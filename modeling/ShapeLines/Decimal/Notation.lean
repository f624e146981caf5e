import ShapeLines.Decimal.Shortest

/-!
# Decimal notation of floating-point numbers

A finite number is written with its shortest digits. With `10 ^ e` the place of the first digit it
is written positionally for `-5 ≤ e ≤ 15`, and then always with a fraction, so that `100.0` is not
taken for a whole number; otherwise one digit stands before the point, no empty fraction is
written, and an exponent with its sign follows, as in `1.5e-6` and `1e+16`. Negative zero is
`-0.0`.
-/

namespace ShapeLines

def Decimal.leastPositional : Int := -5

def Decimal.greatestPositional : Int := 15

/-- The digits `ds` with the point after the first `before` of them, where `before` may lie outside
the digits. -/
def Decimal.positional (ds : List Char) (before : Int) : List Char :=
  if before ≤ 0 then '0' :: '.' :: (List.replicate (-before).toNat '0' ++ ds)
  else
    let whole := ds.take before.toNat
    let fraction := ds.drop before.toNat
    whole ++ List.replicate (before.toNat - whole.length) '0' ++ '.' ::
      (if fraction.isEmpty then ['0'] else fraction)

/-- The digits `ds` with the point after the first, and the exponent `e`. -/
def Decimal.withExponent (ds : List Char) (e : Int) : List Char :=
  let fraction := ds.drop 1
  ds.take 1 ++ (if fraction.isEmpty then [] else '.' :: fraction) ++
    'e' :: (if e < 0 then '-' else '+') :: Nat.toDigits 10 e.natAbs

/-- Zeros at the end of the digits are not written. -/
def Decimal.text (d : Decimal) : List Char :=
  let all := Nat.toDigits 10 d.digits
  let before := d.exponent + all.length
  let ds := (all.reverse.dropWhile (· = '0')).reverse
  if leastPositional ≤ before - 1 ∧ before - 1 ≤ greatestPositional then positional ds before
  else withExponent ds (before - 1)

def Binary64.text (x : Binary64) : List Char :=
  (if x.negative then ['-'] else []) ++
    if x.rank = 0 then ['0', '.', '0'] else (shortest x.rank).text

end ShapeLines
