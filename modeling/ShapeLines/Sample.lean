import ShapeLines.Json.Text
import ShapeLines.Schema.Error
import ShapeLines.Shape.Binding

/-!
# Shapes from sample documents

A sample document gives a shape with a field for each place that holds a text, a number or a truth
value. All elements of an array share one place, and the first value that is met at a place
becomes the field's example. The walk goes through members in the order of their keys and through
elements in their order. A value whose place has an empty fullname gives no field.
-/

namespace ShapeLines.Sample

def fieldOf (place : String) (format : Option String) (sample : String) : Field :=
  { fullname := place, format, exampleText := some sample }

/-- Adds the field of a scalar, unless its place is empty or has a field. -/
def meet (place : String) (format : Option String) (v : Json) (found : List Field) : List Field :=
  if place = "" || found.any (·.fullname == place) then found
  else found ++ [fieldOf place format v.plainText]

mutual

/-- Goes through the value at `place`, given the fields that have been found before it. -/
def walk (place : String) (found : List Field) : Json → List Field
  | .null => found
  | .bool b => meet place (some "bool") (.bool b) found
  | .num n => meet place (some "number") (.num n) found
  | .str s => meet place none (.str s) found
  | .arr elements => walkElements (Fullname.element place) found elements
  | .obj members => walkMembers place found members

def walkElements (place : String) (found : List Field) : List Json → List Field
  | [] => found
  | v :: rest => walkElements place (walk place found v) rest

def walkMembers (place : String) (found : List Field) : List (String × Json) → List Field
  | [] => found
  | (name, v) :: rest => walkMembers place (walk (Fullname.join place name) found v) rest

end

end ShapeLines.Sample

namespace ShapeLines.Shape

def ofSample (v : Json) : Shape where
  header := ⟨Header.defaultId, Header.defaultVersion, .inbound⟩
  fields := (Sample.walk "" [] v).map (·.bindInPlace Header.defaultId)

def ofSampleText (text : String) : Except SchemaError Shape :=
  match Json.parse? text with
  | some v => .ok (ofSample v)
  | none => .error .invalidJson

end ShapeLines.Shape
