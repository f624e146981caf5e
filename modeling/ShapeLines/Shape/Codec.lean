import ShapeLines.Json.Member
import ShapeLines.Shape.Basic

/-!
# Shapes as JSON values

Texts that are absent and lists that are empty are left out when a field is written, and members
that are missing get those values when it is read. Members of other names are ignored. A value of
the wrong type is refused; `null` counts as absent only for the four optional texts. The names of
the members are listed in the order in which an array gives their values.
-/

namespace ShapeLines

namespace KeyMap

def entry? (member : String × Json) : Option (String × String) :=
  member.2.string?.map fun s => (member.1, s)

def strings? : Json → Option (KeyMap String)
  | .obj members => (members.mapM entry?).map KeyMap.ofList
  | _ => none

def toJson (m : KeyMap String) : Json :=
  .obj (m.entries.map fun e => (e.1, .str e.2))

end KeyMap

namespace Direction

def toJson (d : Direction) : Json := .str d.name

def ofJson? (v : Json) : Option Direction := v.enumName?.bind ofName?

end Direction

namespace FieldType

def toJson (t : FieldType) : Json := .str t.name

def ofJson? (v : Json) : Option FieldType := v.enumName?.bind ofName?

end FieldType

namespace Header

def toJson (h : Header) : Json :=
  Json.ofMembers [("id", .str h.id), ("version", .str h.version),
    ("direction", h.direction.toJson)]

def memberNames : List String := ["id", "version", "direction"]

def ofMembers? (members : List (String × Json)) : Option Header := do
  let id ← Json.required? members "id" Json.string?
  let version ← Json.required? members "version" Json.string?
  let direction ← Json.required? members "direction" Direction.ofJson?
  return { id, version, direction }

def ofJson? : Json → Option Header := Json.record? memberNames ofMembers?

end Header

namespace Field

/-- The member of a text, if it is there. -/
def textMember (key : String) : Option String → List (String × Json)
  | some s => [(key, .str s)]
  | none => []

/-- The member of a list of texts, unless it is empty. -/
def listMember (key : String) (texts : List String) : List (String × Json) :=
  if texts.isEmpty then [] else [(key, .arr (texts.map .str))]

def toJson (f : Field) : Json :=
  Json.ofMembers <|
    [("fullname", .str f.fullname), ("type", f.type.toJson)]
    ++ textMember "format" f.format
    ++ [("required", .bool f.required)]
    ++ listMember "enum" f.enumValues
    ++ listMember "enumNames" f.enumNames
    ++ listMember "const" f.constValues
    ++ textMember "default" f.defaultText
    ++ textMember "example" f.exampleText
    ++ textMember "examples" f.examplesText
    ++ [("src", .str f.src), ("dst", .str f.dst)]
    ++ if f.extra.isEmpty then [] else [("extra", f.extra.toJson)]

def memberNames : List String :=
  ["fullname", "type", "format", "required", "enum", "enumNames", "const", "default", "example",
    "examples", "src", "dst", "extra"]

def ofMembers? (members : List (String × Json)) : Option Field := do
  let fullname ← Json.required? members "fullname" Json.string?
  let type ← Json.optional? members "type" default FieldType.ofJson?
  let format ← Json.optional? members "format" none Json.optionalString?
  let required ← Json.optional? members "required" false Json.bool?
  let enumValues ← Json.optional? members "enum" [] Json.strings?
  let enumNames ← Json.optional? members "enumNames" [] Json.strings?
  let constValues ← Json.optional? members "const" [] Json.strings?
  let defaultText ← Json.optional? members "default" none Json.optionalString?
  let exampleText ← Json.optional? members "example" none Json.optionalString?
  let examplesText ← Json.optional? members "examples" none Json.optionalString?
  let src ← Json.optional? members "src" "" Json.string?
  let dst ← Json.optional? members "dst" "" Json.string?
  let extra ← Json.optional? members "extra" ∅ KeyMap.strings?
  return { fullname, type, format, required, enumValues, enumNames, constValues, defaultText,
           exampleText, examplesText, src, dst, extra }

def ofJson? : Json → Option Field := Json.record? memberNames ofMembers?

def listOfJson? : Json → Option (List Field)
  | .arr elements => elements.mapM ofJson?
  | _ => none

end Field

namespace Shape

def toJson (s : Shape) : Json :=
  Json.ofMembers [("meta", s.header.toJson), ("items", .arr (s.fields.map Field.toJson))]

def memberNames : List String := ["meta", "items"]

def ofMembers? (members : List (String × Json)) : Option Shape := do
  let header ← Json.required? members "meta" Header.ofJson?
  let fields ← Json.required? members "items" Field.listOfJson?
  return { header, fields }

def ofJson? : Json → Option Shape := Json.record? memberNames ofMembers?

end Shape

end ShapeLines
