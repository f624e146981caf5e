import ShapeLines.Decimal.Binary64

/-!
# The shortest decimal of a number

Among the decimals that round to a given finite number, `Binary64.shortest` takes one with the
fewest digits, of those the nearest to the number, and of two at the same distance the even one.
For one, two, … up to 17 digits it looks at the two neighbours of the number on the grid of
decimals with that many digits. If any point of a grid rounds to the number, one of these two does,
and 17 digits always suffice.

All sizes are whole multiples of `2 ^ (-1075) * 10 ^ (-400)`. In this unit the numbers themselves,
the midpoints between neighbouring ones and the grids are all whole.
-/

namespace ShapeLines

/-- The number `digits * 10 ^ exponent`. -/
structure Decimal where
  digits : Nat
  exponent : Int
  deriving DecidableEq

namespace Binary64

def decimalScale : Nat := Nat.pow 10 400

def binaryScale : Nat := Nat.pow 2 1075

/-- What is to be written: a number and the two ends of the interval of reals that round to it. -/
structure Target where
  value : Nat
  low : Nat
  high : Nat
  /-- Whether the ends themselves round to the number. -/
  closed : Bool

/-- The ends lie halfway to the neighbouring ranks, and belong to the number of even rank. -/
def Target.ofRank (rank : Nat) : Target where
  value := 2 * magnitudeOf rank * decimalScale
  low := (magnitudeOf (rank - 1) + magnitudeOf rank) * decimalScale
  high := (magnitudeOf rank + magnitudeOf (rank + 1)) * decimalScale
  closed := rank % 2 == 0

def Target.contains (t : Target) (x : Nat) : Bool :=
  if t.closed then t.low ≤ x && x ≤ t.high else t.low < x && x < t.high

/-- The multiple of `step` to write `t` with, if one of the two nearest rounds to it. -/
def Target.onGrid (t : Target) (step : Nat) : Option Nat :=
  let below := t.value / step
  let above := below + 1
  let toBelow := t.value - below * step
  let toAbove := above * step - t.value
  match t.contains (below * step), t.contains (above * step) with
  | true, true =>
    if toBelow < toAbove ∨ (toBelow = toAbove ∧ below % 2 = 0) then some below else some above
  | true, false => some below
  | false, true => some above
  | false, false => none

def shortest (rank : Nat) : Decimal :=
  let t := Target.ofRank rank
  let length := (Nat.toDigits 10 (t.value / binaryScale)).length
  let found := (List.range 17).findSome? fun n =>
    (t.onGrid (Nat.pow 10 (length - (n + 1)) * binaryScale)).map fun digits =>
      (⟨digits, (length : Int) - (n + 1) - 400⟩ : Decimal)
  found.getD ⟨0, 0⟩

end Binary64

end ShapeLines
