import ShapeLines.Fullname.Basic
import ShapeLines.KeyMap

/-!
# Shapes

A shape describes a JSON document: a header, and fields that each declare one place of the
document together with the bindings that fill it. The bindings of a field are its source and its
destination. Keywords that no operation reads, such as `title` or `minimum`, are kept as raw text
in `Field.extra` and copied to every output.
-/

namespace ShapeLines

/-- The side of the bindings that a shape describes. -/
inductive Direction where
  /-- Data of a request. -/
  | inbound
  /-- Data of a response; its containers are set up before they are filled. -/
  | outbound
  /-- Data that is reshaped between two documents. -/
  | convert
  deriving DecidableEq

namespace Direction

def name : Direction → String
  | .inbound => "in"
  | .outbound => "out"
  | .convert => "convert"

def ofName? (s : String) : Option Direction :=
  match s with
  | "in" => some .inbound
  | "out" => some .outbound
  | "convert" => some .convert
  | _ => none

end Direction

inductive ScalarType where
  | string | number | integer | boolean
  deriving DecidableEq

inductive FieldType where
  | scalar (type : ScalarType)
  | array
  | object
  deriving DecidableEq

/-- What a place in a document is, apart from the type of a scalar. -/
inductive Kind where
  | object | array | scalar
  deriving DecidableEq

def Kind.name : Kind → String
  | .object => "object"
  | .array => "array"
  | .scalar => "scalar"

namespace FieldType

instance : Inhabited FieldType := ⟨.scalar .string⟩

def name : FieldType → String
  | .scalar .string => "string"
  | .scalar .number => "number"
  | .scalar .integer => "integer"
  | .scalar .boolean => "boolean"
  | .array => "array"
  | .object => "object"

def ofName? (s : String) : Option FieldType :=
  match s with
  | "string" => some (.scalar .string)
  | "number" => some (.scalar .number)
  | "integer" => some (.scalar .integer)
  | "boolean" => some (.scalar .boolean)
  | "array" => some .array
  | "object" => some .object
  | _ => none

/-- The type of the given name, where `int` and `bool` may be written for the longer names. -/
def ofShortName? (s : String) : Option FieldType :=
  match s with
  | "int" => some (.scalar .integer)
  | "bool" => some (.scalar .boolean)
  | _ => ofName? s

theorem ofShortName?_name (t : FieldType) : ofShortName? t.name = some t := by
  cases t with
  | scalar t => cases t <;> rfl
  | array => rfl
  | object => rfl

def kind : FieldType → Kind
  | .scalar _ => .scalar
  | .array => .array
  | .object => .object

def isContainer (t : FieldType) : Bool := t.kind != .scalar

end FieldType

structure Header where
  /-- Also the name space of the implied bindings. -/
  id : String
  version : String
  direction : Direction
  deriving DecidableEq

/-- The version of a shape that comes without one. -/
def Header.defaultVersion : String := "http://json-schema.org/draft-07/schema#"

/-- The id of a shape that comes without one. -/
def Header.defaultId : String := "example"

structure Field where
  fullname : String
  type : FieldType := .scalar .string
  format : Option String := none
  required : Bool := false
  enumValues : List String := []
  enumNames : List String := []
  constValues : List String := []
  defaultText : Option String := none
  exampleText : Option String := none
  examplesText : Option String := none
  src : String := ""
  dst : String := ""
  extra : KeyMap String := ∅
  deriving DecidableEq, Inhabited

/-- Whether a binding is a template instead of a path. -/
def isTemplate (binding : String) : Bool :=
  match binding.toList with
  | '\x7b' :: '\x7b' :: _ => true
  | _ => false

namespace Field

def attribute? (field : Field) (key : String) : Option String :=
  field.extra.get? key

def segments (field : Field) : List Segment :=
  Fullname.segments field.fullname

def hasTemplate (field : Field) : Bool :=
  isTemplate field.src || isTemplate field.dst

end Field

structure Shape where
  header : Header
  fields : List Field
  deriving DecidableEq

/-- The last field that declares `fullname`. -/
def Shape.field? (shape : Shape) (fullname : String) : Option Field :=
  shape.fields.reverse.find? (·.fullname == fullname)

end ShapeLines
