import ShapeLines.Schema.Keyword

/-!
# The keywords of a field

`Field.keywords` lists what a field contributes to its node in a document, `Field.ofKeywords`
reads a field from the keywords of a node. Values that have titles are written under `oneOf`,
values without under `enum`.
-/

namespace ShapeLines.Field

def titled (value : Json) (title : String) : Json :=
  Json.ofMembers [("const", value), ("title", .str title)]

/-- Values beyond the last title are dropped, and so are titles beyond the last value. -/
def enumKeywords (f : Field) : List (String × Json) :=
  let values := f.enumValues.map (Keyword.typedValue f.type)
  if values.isEmpty then []
  else if f.enumNames.isEmpty then [("enum", .arr values)]
  else [("oneOf", .arr (List.zipWith titled values f.enumNames))]

/-- A single value is written as itself, several as an array. -/
def constKeywords (f : Field) : List (String × Json) :=
  match f.constValues.map (Keyword.typedValue f.type) with
  | [] => []
  | [value] => [("const", value)]
  | values => [("const", .arr values)]

/-- The value of `examples`: the array that the text denotes, or else the text as the only
example. -/
def examplesValue (raw : String) : Json :=
  match Json.parse? raw with
  | some (.arr elements) => .arr elements
  | _ => .arr [.str raw]

def textKeyword (key : String) (value : String → Json) : Option String → List (String × Json)
  | some raw => [(key, value raw)]
  | none => []

def extraKeywords (f : Field) : List (String × Json) :=
  (f.extra.entries.filter fun e => !Keyword.isStructural e.1).map fun e =>
    (e.1, Keyword.keywordValue e.1 e.2)

/-- What a field contributes to its node; of two entries with one key the later counts. -/
def keywords (f : Field) : List (String × Json) :=
  textKeyword "format" .str f.format
  ++ enumKeywords f
  ++ constKeywords f
  ++ textKeyword "default" (Keyword.typedValue f.type) f.defaultText
  ++ textKeyword "example" (Keyword.typedValue f.type) f.exampleText
  ++ textKeyword "examples" examplesValue f.examplesText
  ++ extraKeywords f

def rawTexts : Json → List String
  | .arr elements => elements.map Json.plainText
  | v => [v.plainText]

/-- The raw text of `examples`. An array of one example is that example. -/
def examplesRaw : Json → String
  | .arr [v] => v.plainText
  | v => v.plainText

def titled? : Json → Option (String × Option String)
  | .obj members =>
    (Entries.get? "const" members).map fun v =>
      (v.plainText, (Entries.get? "title" members).map Json.plainText)
  | _ => none

/-- The raw values under `oneOf` and their titles. The titles count only when every value has one.
-/
def titledValues? : Json → Option (List String × List String)
  | .arr entries =>
    (entries.mapM titled?).map fun pairs =>
      let titles := pairs.filterMap (·.2)
      (pairs.map (·.1), if titles.length = pairs.length then titles else [])
  | _ => none

def takeKeyword (f : Field) (keyword : String × Json) : Field :=
  let (key, value) := keyword
  match key with
  | "format" => { f with format := some value.plainText }
  | "enum" => { f with enumValues := rawTexts value }
  | "const" => { f with constValues := rawTexts value }
  | "default" => { f with defaultText := some value.plainText }
  | "example" => { f with exampleText := some value.plainText }
  | "examples" => { f with examplesText := some (examplesRaw value) }
  | "oneOf" =>
    match titledValues? value with
    | some (enumValues, enumNames) => { f with enumValues, enumNames }
    | none => { f with extra := f.extra.insert key value.plainText }
  | _ => { f with extra := f.extra.insert key value.plainText }

def ofKeywords (fullname : String) (type : FieldType) (required : Bool)
    (keywords : List (String × Json)) : Field :=
  keywords.foldl takeKeyword { fullname, type, required }

end ShapeLines.Field
