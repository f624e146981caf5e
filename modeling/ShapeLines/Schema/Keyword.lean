import ShapeLines.Json.Text
import ShapeLines.Shape.Basic

/-!
# Keywords of JSON Schema

A field keeps its values as raw text. In a document they are typed: by the field's type where they
are values of the field, and by the keyword where they are keywords that are passed through. A
text that does not read as the type it should have is written as a string. `Json.plainText` goes
back.
-/

namespace ShapeLines.Keyword

def numeric : List String :=
  ["multipleOf", "maximum", "minimum", "maxLength", "minLength", "maxItems", "minItems",
   "maxContains", "minContains", "maxProperties", "minProperties"]

def flags : List String :=
  ["exclusiveMaximum", "exclusiveMinimum", "deprecated", "readOnly", "writeOnly", "uniqueItems",
   "allowEmptyValue"]

/-- Keywords that belong to the form of the document and never to a field. -/
def structural : List String :=
  ["type", "properties", "items", "required", "$schema", "$id"]

def isStructural (key : String) : Bool :=
  structural.contains key

def number? (raw : String) : Option Json :=
  match Json.parse? raw with
  | some (.num n) => some (.num n)
  | _ => none

def boolean? (raw : String) : Option Json :=
  if raw = "true" then some (.bool true)
  else if raw = "false" then some (.bool false)
  else none

/-- A raw text as a value of the given type. -/
def typedValue (type : FieldType) (raw : String) : Json :=
  match type with
  | .scalar .number | .scalar .integer => (number? raw).getD (.str raw)
  | .scalar .boolean => (boolean? raw).getD (.str raw)
  | _ => .str raw

def keywordValue (key raw : String) : Json :=
  if numeric.contains key then (number? raw).getD (.str raw)
  else if flags.contains key then (boolean? raw).getD (.str raw)
  else .str raw

end ShapeLines.Keyword
