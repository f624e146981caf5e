import ShapeLines.Line.Entry
import ShapeLines.Proofs.KeyMap
import ShapeLines.Schema.Attribute

/-!
# The keywords of a field, key by key

What a field writes at each key, and what a field takes from the keywords of a node. Keywords that
no attribute reads are kept as raw text, and so is a `oneOf` that is no list of values.
-/

namespace ShapeLines.Field

variable {f : Field} {key : String}

/-- The texts of a field that are written as values of its type. -/
def valueTexts (f : Field) : List String :=
  f.enumValues ++ f.constValues ++ f.defaultText.toList ++ f.exampleText.toList

/-- The keys that belong to attributes of a field. -/
def attributeKeys : List String :=
  ["format", "enum", "const", "default", "example", "examples"]

def enumAt (f : Field) (key : String) : Option Json :=
  if f.enumValues.isEmpty then none
  else if f.enumNames.isEmpty then
    if key = "enum" then some (.arr (f.enumValues.map (Keyword.typedValue f.type))) else none
  else if key = "oneOf" then
    some (.arr (List.zipWith titled (f.enumValues.map (Keyword.typedValue f.type)) f.enumNames))
  else none

def constValue? (f : Field) : Option Json :=
  match f.constValues.map (Keyword.typedValue f.type) with
  | [] => none
  | [value] => some value
  | values => some (.arr values)

def extraAt (f : Field) (key : String) : Option Json :=
  if Keyword.isStructural key then none
  else (f.extra.get? key).map (Keyword.keywordValue key)

theorem get?_const_titled (value : Json) (title : String) :
    Entries.get? "const" (Entries.ofList [("const", value), ("title", .str title)]) =
      some value := by
  rw [Entries.get?_ofList]
  rfl

theorem valuesAt_textKeyword (key own : String) (value : String → Json) (raw : Option String) :
    Entries.valuesAt key (textKeyword own value raw) =
      if own = key then (raw.map value).toList else [] := by
  cases raw with
  | none => simp [textKeyword]
  | some raw => by_cases h : own = key <;> simp [textKeyword, Entries.valuesAt_cons, h]

theorem valuesAt_enumKeywords (f : Field) (key : String) :
    Entries.valuesAt key f.enumKeywords = (f.enumAt key).toList := by
  unfold enumKeywords enumAt
  dsimp only
  rw [List.isEmpty_map]
  cases f.enumValues.isEmpty with
  | true => rfl
  | false =>
    cases f.enumNames.isEmpty with
    | true => by_cases h : key = "enum" <;> simp [Entries.valuesAt_cons, h, eq_comm]
    | false => by_cases h : key = "oneOf" <;> simp [Entries.valuesAt_cons, h, eq_comm]

theorem valuesAt_constKeywords (f : Field) (key : String) :
    Entries.valuesAt key f.constKeywords = if key = "const" then f.constValue?.toList else [] := by
  unfold constKeywords constValue?
  match f.constValues.map (Keyword.typedValue f.type) with
  | [] => simp
  | [value] => by_cases h : key = "const" <;> simp [Entries.valuesAt_cons, h, eq_comm]
  | value :: other :: rest =>
    by_cases h : key = "const" <;> simp [Entries.valuesAt_cons, h, eq_comm]

theorem get?_extraEntries (entries : List (String × String)) (key : String) :
    Entries.get? key ((entries.filter fun e => !Keyword.isStructural e.1).map fun e =>
      (e.1, Keyword.keywordValue e.1 e.2)) =
      if Keyword.isStructural key then none
      else (Entries.get? key entries).map (Keyword.keywordValue key) := by
  induction entries with
  | nil => simp [Entries.get?]
  | cons e rest ih =>
    obtain ⟨k, v⟩ := e
    by_cases h : key = k
    · subst h
      cases structural : Keyword.isStructural key <;> simp [structural, Entries.get?, ih]
    · cases structural : Keyword.isStructural k <;> simp [structural, Entries.get?, ih, h]

theorem ascending_extraKeywords (f : Field) : Entries.Ascending f.extraKeywords := by
  unfold extraKeywords Entries.Ascending
  rw [List.pairwise_map]
  exact f.extra.ascending.filter _

theorem valuesAt_extraKeywords (f : Field) (key : String) :
    Entries.valuesAt key f.extraKeywords = (f.extraAt key).toList := by
  rw [(ascending_extraKeywords f).valuesAt, extraKeywords, get?_extraEntries]
  rfl

theorem enumAt_of_ne (f : Field) (enum : key ≠ "enum") (oneOf : key ≠ "oneOf") :
    f.enumAt key = none := by
  unfold enumAt
  rw [if_neg enum, if_neg oneOf]
  cases f.enumValues.isEmpty <;> cases f.enumNames.isEmpty <;> rfl

/-- What a field writes at the key of an attribute. -/
def attributeAt (f : Field) (key : String) : Option Json :=
  if key = "format" then f.format.map .str
  else if key = "const" then f.constValue?
  else if key = "default" then f.defaultText.map (Keyword.typedValue f.type)
  else if key = "example" then f.exampleText.map (Keyword.typedValue f.type)
  else if key = "examples" then f.examplesText.map examplesValue
  else f.enumAt key

theorem attributeAt_format (f : Field) : f.attributeAt "format" = f.format.map .str := rfl

theorem attributeAt_enum (f : Field) : f.attributeAt "enum" = f.enumAt "enum" := rfl

theorem attributeAt_const (f : Field) : f.attributeAt "const" = f.constValue? := rfl

theorem attributeAt_default (f : Field) :
    f.attributeAt "default" = f.defaultText.map (Keyword.typedValue f.type) := rfl

theorem attributeAt_example (f : Field) :
    f.attributeAt "example" = f.exampleText.map (Keyword.typedValue f.type) := rfl

theorem attributeAt_examples (f : Field) :
    f.attributeAt "examples" = f.examplesText.map examplesValue := rfl

theorem get?_keywords (f : Field) (key : String) :
    Entries.get? key (Entries.ofList f.keywords) = (f.extraAt key).or (f.attributeAt key) := by
  have last (a b : Option Json) : (a.toList ++ b.toList).getLast? = b.or a := by
    cases b <;> cases a <;> rfl
  rw [Entries.get?_ofList]
  unfold keywords
  simp only [Entries.valuesAt_append, valuesAt_textKeyword, valuesAt_enumKeywords,
    valuesAt_constKeywords, valuesAt_extraKeywords]
  rw [← last]
  unfold attributeAt
  split
  · next eq => subst eq; simp [enumAt_of_ne]
  · next format =>
    split
    · next eq => subst eq; simp [enumAt_of_ne]
    · split
      · next eq => subst eq; simp [enumAt_of_ne]
      · next default =>
        split
        · next eq => subst eq; simp [enumAt_of_ne]
        · next example' =>
          split
          · next eq => subst eq; simp [enumAt_of_ne]
          · next examples =>
            simp [Ne.symm format, Ne.symm default, Ne.symm example', Ne.symm examples]

end ShapeLines.Field
