import ShapeLines.Json.Basic
import ShapeLines.Shape.Basic

/-!
# Schemas

A schema is the tree that a JSON Schema document describes: objects with properties, arrays with
elements, and scalars. Every node has the keywords that are no part of this form. Properties and
keywords stand in ascending order.
-/

namespace ShapeLines

/-- What a node carries apart from its form. -/
structure Schema.Marks where
  /-- Whether the node itself says that it is required. -/
  flag : Bool := false
  keywords : List (String × Json) := []

inductive Schema where
  | scalar (type : ScalarType) (marks : Schema.Marks)
  | array (marks : Schema.Marks) (items : Option Schema)
  /-- The names in `required` need not be names of properties. -/
  | object (marks : Schema.Marks) (required : List String) (properties : List (String × Schema))

namespace Schema

def type : Schema → FieldType
  | .scalar type _ => .scalar type
  | .array _ _ => .array
  | .object _ _ _ => .object

def kind (s : Schema) : Kind := s.type.kind

/-- A node of the given kind of which nothing else is known. -/
def bare : Kind → Schema
  | .object => .object {} [] []
  | .array => .array {} none
  | .scalar => .scalar .string {}

def isLeaf : Schema → Bool
  | .scalar _ _ => true
  | .array _ items => items.isNone
  | .object _ _ properties => properties.isEmpty

end Schema

end ShapeLines
