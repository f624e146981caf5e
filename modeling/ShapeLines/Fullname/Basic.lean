import ShapeLines.Text.Split

/-!
# Fullnames

A fullname names a place in a JSON document. It is a sequence of segments between dots; a segment
that ends in `[]` is a hop into the elements of an array, so `items[].price.tiers[].min` goes
through the elements of `items`, the object `price` and the elements of `tiers` to `min`. A bare
`[]` is a hop into the value that has been reached already. No text is refused: empty segments are
left out.
-/

namespace ShapeLines

/-- One step of a fullname. The name of a bare `[]` is empty. -/
structure Segment where
  name : String
  isArray : Bool
  deriving DecidableEq

namespace Fullname

/-- What stands before a final `[]`. -/
def beforeHop? : List Char → Option (List Char)
  | [] => none
  | ['[', ']'] => some []
  | c :: rest => (beforeHop? rest).map (c :: ·)

end Fullname

def Segment.ofChars (s : List Char) : Segment :=
  match Fullname.beforeHop? s with
  | some name => ⟨String.ofList name, true⟩
  | none => ⟨String.ofList s, false⟩

namespace Fullname

def segments (fullname : String) : List Segment :=
  (Text.words '.' fullname.toList).map Segment.ofChars

/-- The number of segments above the last. A container comes before what it holds in the order of
depths. -/
def depth (fullname : String) : Nat :=
  (segments fullname).length - 1

def join (container name : String) : String :=
  if container = "" then name else container ++ "." ++ name

def element (fullname : String) : String :=
  fullname ++ "[]"

/-- The parts of a text that end right before a dot, the shortest first. -/
def cuts : List Char → List (List Char)
  | [] => []
  | c :: rest => (if c = '.' then [[]] else []) ++ (cuts rest).map (c :: ·)

/-- The containers around a place, the innermost first. -/
def enclosing (fullname : String) : List String :=
  (cuts fullname.toList).reverse.map String.ofList

def parent? (fullname : String) : Option String :=
  (enclosing fullname).head?

def leadsInside : List Char → Bool
  | '.' :: _ => true
  | '[' :: ']' :: _ => true
  | _ => false

def isAncestorChars (ancestor path : List Char) : Bool :=
  match Text.after? ancestor path with
  | some rest => !rest.isEmpty && (ancestor.isEmpty || leadsInside rest)
  | none => false

/-- Whether the place `path` lies inside the container `ancestor` and is not the container itself.
-/
def isAncestor (ancestor path : String) : Bool :=
  isAncestorChars ancestor.toList path.toList

end Fullname

end ShapeLines
