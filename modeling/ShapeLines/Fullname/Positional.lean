import ShapeLines.Fullname.Basic

/-!
# Positional paths

The other way to write a place uses the segment `#` for a hop: `items[].id` is `items.#.id`.
Bindings are written in this way. A condition such as `#(id==1)` may stand for `#`; it selects
elements by position as well.
-/

namespace ShapeLines.Fullname

/-- Writes each `[]` as a segment `#` of its own. -/
def hopsApart : List Char → List Char
  | '[' :: ']' :: rest => '.' :: '#' :: hopsApart rest
  | c :: rest => c :: hopsApart rest
  | [] => []

def toPositionalChars (s : List Char) : List Char :=
  List.intercalate ['.'] (Text.words '.' (hopsApart s))

def addPart (done part : List Char) : List Char :=
  if part = ['#'] then done ++ ['[', ']']
  else if done.isEmpty then part
  else done ++ '.' :: part

def ofPositionalChars (s : List Char) : List Char :=
  (Text.words '.' s).foldl addPart []

/-- The positional path of a fullname. Empty segments are left out. -/
def toPositional (fullname : String) : String :=
  String.ofList (toPositionalChars fullname.toList)

def ofPositional (path : String) : String :=
  String.ofList (ofPositionalChars path.toList)

def isSelector : List Char → Bool
  | ['#'] => true
  | '#' :: '(' :: _ => true
  | _ => false

def hasWildcard (path : String) : Bool :=
  (Text.pieces '.' path.toList).any isSelector

end ShapeLines.Fullname
