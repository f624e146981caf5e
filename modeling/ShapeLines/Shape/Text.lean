import ShapeLines.Json.Text
import ShapeLines.Line.KeyOrder
import ShapeLines.Line.Writer
import ShapeLines.Shape.Binding

/-!
# Writing shapes as text

A shape is written as its header on a line, followed by a line for each field. What reading would
fill in is left out: the default type, and a binding that is implied. When both bindings are
implied one of them has to be written, because a field needs one. A list is written as repeated
pairs, unless one of its values starts with a bracket and would be taken for a list literal; such
a list is written as a literal itself.
-/

namespace ShapeLines

namespace Field

inductive Written where
  | text (value : String)
  | literal (text : String)
  deriving DecidableEq

abbrev WrittenPair := String × Written

/-- The bindings to write for a field whose implied binding is `implied`. -/
def bindingPairs (direction : Direction) (implied : String) (f : Field) : List WrittenPair :=
  let bothImplied := f.src = implied ∧ f.dst = implied
  let writesSrc := f.src ≠ implied ∨ (bothImplied ∧ direction = .outbound)
  let writesDst := f.dst ≠ implied ∨ (bothImplied ∧ direction ≠ .outbound)
  (if writesSrc then [("src", .text f.src)] else []) ++
    (if writesDst then [("dst", .text f.dst)] else [])

def opensBracket (value : String) : Bool :=
  value.toList.head? == some '['

/-- The pairs of a list that is written value by value. -/
def repeatedPairs (key : String) (values : List String) : List WrittenPair :=
  if values.any opensBracket then [] else values.map fun v => (key, .text v)

def literalPair (key : String) (values : List String) : List WrittenPair :=
  if values.any opensBracket then [(key, .literal (Json.arr (values.map .str)).text)] else []

def textPairs (key : String) (value : Option String) : List WrittenPair :=
  value.toList.map fun v => (key, .text v)

/-- The pairs of a field before they are put in order. A literal comes after every other pair, also
after one whose key is the same. -/
def writtenPairs (header : Header) (f : Field) : List WrittenPair :=
  [("fullname", .text f.fullname)]
  ++ bindingPairs header.direction (impliedBinding header.id f.fullname) f
  ++ (if f.type = .scalar .string then [] else [("type", .text f.type.name)])
  ++ textPairs "format" f.format
  ++ (if f.required then [("required", .text "true")] else [])
  ++ repeatedPairs "enum" f.enumValues
  ++ repeatedPairs "enumNames" f.enumNames
  ++ repeatedPairs "const" f.constValues
  ++ textPairs "default" f.defaultText
  ++ textPairs "example" f.exampleText
  ++ textPairs "examples" f.examplesText
  ++ f.extra.entries.map (fun (key, value) => (key, .text value))
  ++ literalPair "enum" f.enumValues
  ++ literalPair "enumNames" f.enumNames
  ++ literalPair "const" f.constValues

/-- The pairs of a field in the given order; pairs with one key keep their order. -/
def orderedPairs (order : KeyOrder) (header : Header) (f : Field) : List WrittenPair :=
  (f.writtenPairs header).mergeSort fun a b => order.le a.1 b.1

end Field

def LineWriter.Call.ofPair : Field.WrittenPair → LineWriter.Call
  | (key, .text value) => .pair key value
  | (key, .literal text) => .literal key text

namespace Shape

def headerCalls (h : Header) : List LineWriter.Call :=
  [.pair "version" h.version, .pair "direction" h.direction.name, .pair "id" h.id, .endLine]

def fieldCalls (order : KeyOrder) (header : Header) (f : Field) : List LineWriter.Call :=
  (f.orderedPairs order header).map .ofPair ++ [.endLine]

def calls (order : KeyOrder) (s : Shape) : List LineWriter.Call :=
  headerCalls s.header ++ s.fields.flatMap (fieldCalls order s.header)

def text (order : KeyOrder) (s : Shape) : String :=
  (LineWriter.run {} (s.calls order)).finish

end Shape

end ShapeLines
