/-!
# Pieces and lines

A text is cut at a separator into pieces, of which there is always one more than there are
separators. Lines are another matter: a line feed ends a line, so a text that ends in one has no
empty line after it, and one carriage return that stands right before a line feed belongs to the
line's end.
-/

namespace ShapeLines.Text

/-- The pieces of `s` between occurrences of `separator`, empty ones included. -/
def pieces (separator : Char) (s : List Char) : List (List Char) :=
  s.splitOn separator

def words (separator : Char) (s : List Char) : List (List Char) :=
  (pieces separator s).filter (· ≠ [])

def extendFirst (c : Char) : List (List Char) → List (List Char)
  | [] => [[c]]
  | line :: rest => (c :: line) :: rest

/-- The lines of a text. A carriage return that no line feed follows is part of its line. -/
def lines : List Char → List (List Char)
  | [] => []
  | '\n' :: rest => [] :: lines rest
  | '\r' :: '\n' :: rest => [] :: lines rest
  | c :: rest => extendFirst c (lines rest)

/-- What follows `start` in a text that starts with it. -/
def after? : List Char → List Char → Option (List Char)
  | [], s => some s
  | _ :: _, [] => none
  | c :: start, d :: s => if c = d then after? start s else none

theorem after?_eq_some_iff {start s rest : List Char} :
    after? start s = some rest ↔ s = start ++ rest := by
  induction start generalizing s with
  | nil => simp [after?]
  | cons c start ih =>
    cases s with
    | nil => simp [after?]
    | cons d s =>
      by_cases h : c = d
      · simp [after?, h, ih]
      · simp [after?, h, Ne.symm h]

theorem length_after? {start s rest : List Char} (h : after? start s = some rest) :
    s.length = start.length + rest.length := by
  simp [after?_eq_some_iff.mp h]

end ShapeLines.Text
