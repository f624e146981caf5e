/-!
# Blank characters and trimming

A character is blank when it has the Unicode property White_Space. The texts of this library are
trimmed by that property, so a no-break space or an ideographic space is cut from the ends of a line
as a space is. The zero width space U+200B and the mark U+FEFF do not have the property and stay.
-/

namespace ShapeLines.Text

/-- The ranges of White_Space in ascending order, both ends included. -/
def blankRanges : List (Nat × Nat) :=
  [(0x09, 0x0d), (0x20, 0x20), (0x85, 0x85), (0xa0, 0xa0), (0x1680, 0x1680), (0x2000, 0x200a),
   (0x2028, 0x2029), (0x202f, 0x202f), (0x205f, 0x205f), (0x3000, 0x3000)]

def isBlank (c : Char) : Bool :=
  blankRanges.any fun range => range.1 ≤ c.toNat && c.toNat ≤ range.2

def trimStart (s : List Char) : List Char :=
  s.dropWhile isBlank

def trimEnd (s : List Char) : List Char :=
  (s.reverse.dropWhile isBlank).reverse

/-- What is left of `s` without the blank characters at its ends. -/
def trim (s : List Char) : List Char :=
  trimEnd (trimStart s)

@[simp] theorem trimStart_nil : trimStart [] = [] := rfl

@[simp] theorem trim_nil : trim [] = [] := rfl

theorem trimStart_cons (c : Char) (s : List Char) :
    trimStart (c :: s) = if isBlank c then trimStart s else c :: s := by
  cases h : isBlank c <;> simp [trimStart, h]

theorem length_trimStart_le (s : List Char) : (trimStart s).length ≤ s.length := by
  induction s with
  | nil => exact Nat.le_refl 0
  | cons c s ih =>
    rw [trimStart_cons]
    split
    · exact Nat.le_succ_of_le ih
    · exact Nat.le_refl _

end ShapeLines.Text
