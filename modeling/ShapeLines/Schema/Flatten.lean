import ShapeLines.Schema.Attribute
import ShapeLines.Schema.Document
import ShapeLines.Shape.Binding

/-!
# The fields of a schema

A schema is flattened into a field for each node that says something of its own. The root is no
field. An object is a field of its own if it has keywords, is required or has no properties. An
array without keywords is written as its elements, which then carry its flag; an array with
keywords is a field beside its elements. A node is required if its object lists it or if it says
so itself.
-/

namespace ShapeLines

namespace Schema

def fieldAt (place : String) (required : Bool) (type : FieldType) (marks : Marks) : List Field :=
  if place = "" then []
  else [Field.ofKeywords place type (required || marks.flag) marks.keywords]

mutual

/-- The fields of the node at `place` and of all nodes below it. -/
def fields (place : String) (required : Bool) : Schema → List Field
  | .scalar type marks => fieldAt place required (.scalar type) marks
  | .array marks items => arrayFields place required marks items
  | .object marks names properties =>
    (if !marks.keywords.isEmpty || required || properties.isEmpty then
      fieldAt place required .object marks else [])
    ++ propertyFields place names properties

def arrayFields (place : String) (required : Bool) (marks : Marks) : Option Schema → List Field
  | none => fieldAt place required .array marks
  | some items =>
    if marks.keywords.isEmpty then fields (Fullname.element place) required items
    else fieldAt place required .array marks ++ fields (Fullname.element place) false items

def propertyFields (place : String) (names : List String) : List (String × Schema) → List Field
  | [] => []
  | (name, s) :: rest =>
    fields (Fullname.join place name) (names.contains name) s ++ propertyFields place names rest

end

end Schema

namespace Shape

/-- The shape of a document. -/
def ofDescribed (d : Schema.Described) : Shape where
  header := ⟨d.id, d.version, .inbound⟩
  fields := (d.root.fields "" false).map (·.bindInPlace d.id)

def ofSchemaJson (v : Json) : Except SchemaError Shape :=
  (Schema.Described.ofJson v).map ofDescribed

def ofSchemaText (text : String) : Except SchemaError Shape :=
  match Json.parse? text with
  | some v => ofSchemaJson v
  | none => .error .invalidJson

end Shape

end ShapeLines
