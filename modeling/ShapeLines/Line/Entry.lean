import ShapeLines.Line.Pair
import ShapeLines.Shape.Basic

/-!
# What a line declares

A line with an `id` and without a `fullname` is the header; every other line is a field. Of a key
that is written twice the last value counts, except for the keys that hold lists, whose values
accumulate. The header passes over keys that are not its own, a field keeps them.
-/

namespace ShapeLines

inductive Line.Entry where
  | header (header : Header)
  | field (field : Field)
  deriving DecidableEq

namespace Header

/-- The value that `key` is given last. -/
def lastValue? (key : String) (pairs : List Line.Pair) : Option String :=
  (pairs.reverse.find? (·.1 == key)).map (·.2)

def needed (key : String) (pairs : List Line.Pair) : Except LineFault String :=
  match lastValue? key pairs with
  | none => .error (.missingHeaderKey key)
  | some value => if value = "" then .error (.missingHeaderKey key) else .ok value

def directionOf (pairs : List Line.Pair) : Except LineFault Direction :=
  let got := (lastValue? "direction" pairs).getD ""
  match Direction.ofName? got with
  | some direction => .ok direction
  | none => .error (.invalidDirection got)

def ofPairs (pairs : List Line.Pair) : Except LineFault Header := do
  let id ← needed "id" pairs
  let version ← needed "version" pairs
  let direction ← directionOf pairs
  return { id, version, direction }

end Header

namespace Field

def flag (key value : String) : Except LineFault Bool :=
  match value with
  | "true" => .ok true
  | "false" => .ok false
  | _ => .error (.invalidFlag key value)

def typeOf (value : String) : Except LineFault FieldType :=
  match FieldType.ofShortName? value with
  | some type => .ok type
  | none => .error (.unknownType value)

/-- The keys that a field reads itself. All others are kept as they are. -/
def ownKeys : List String :=
  ["fullname", "type", "format", "required", "enum", "enumNames", "const", "default", "example",
   "examples", "src", "dst"]

def declare (field : Field) (pair : Line.Pair) : Except LineFault Field :=
  let (key, value) := pair
  match key with
  | "fullname" => .ok { field with fullname := value }
  | "type" => (typeOf value).map fun type => { field with type }
  | "format" => .ok { field with format := some value }
  | "required" => (flag key value).map fun required => { field with required }
  | "enum" => .ok { field with enumValues := field.enumValues ++ [value] }
  | "enumNames" => .ok { field with enumNames := field.enumNames ++ [value] }
  | "const" => .ok { field with constValues := field.constValues ++ [value] }
  | "default" => .ok { field with defaultText := some value }
  | "example" => .ok { field with exampleText := some value }
  | "examples" => .ok { field with examplesText := some value }
  | "src" => .ok { field with src := value }
  | "dst" => .ok { field with dst := value }
  | _ => .ok { field with extra := field.extra.insert key value }

/-- A field needs a fullname and at least one binding. -/
def checked (field : Field) : Except LineFault Field :=
  if field.fullname = "" then .error .missingFullname
  else if field.src = "" ∧ field.dst = "" then .error (.missingBinding field.fullname)
  else .ok field

def ofPairs (pairs : List Line.Pair) : Except LineFault Field :=
  (pairs.foldlM declare { fullname := "" }).bind checked

end Field

namespace Line

def hasKey (key : String) (pairs : List Pair) : Bool :=
  pairs.any (·.1 == key)

def Entry.ofPairs (pairs : List Pair) : Except LineFault Entry :=
  if hasKey "id" pairs && !hasKey "fullname" pairs then (Header.ofPairs pairs).map .header
  else (Field.ofPairs pairs).map .field

def Entry.ofChars (s : List Char) : Except LineFault Entry :=
  (pairs s).bind ofPairs

end Line

end ShapeLines
