/-!
# Finite floating-point numbers of 64 bits

A finite number is a sign and a rank. The ranks number the non-negative values upwards from zero,
so that neighbouring values have neighbouring ranks; written in 63 bits a rank is the exponent
field followed by the fraction field. Every value is a whole multiple of the least positive one,
which is `2 ^ (-1074)`. `Binary64.magnitudeOf` is that multiple, and sizes are computed in this
unit, so nothing is ever rounded unseen.

A product or a quotient is rounded once, to the nearest value. A decimal is read as a product or a
quotient of its digits and a power of ten, so it is rounded more than once and may come out beside
the nearest value.
-/

namespace ShapeLines

/-- How many fractions each exponent has, which is `2 ^ 52`. -/
def Binary64.fractions : Nat := 0x10000000000000

/-- The first rank that no finite value has. -/
def Binary64.rankEnd : Nat := 2047 * fractions

/-- Zero has two forms, one for each sign. -/
structure Binary64 where
  negative : Bool
  rank : Nat
  rank_lt : rank < Binary64.rankEnd
  deriving DecidableEq

namespace Binary64

/-- The value of a rank as a multiple of `2 ^ (-1074)`. Below `2 ^ 52` the steps are of size one;
from there on they double with every `2 ^ 52` ranks. Ranks past the end continue the pattern. -/
def magnitudeOf (rank : Nat) : Nat :=
  if rank < fractions then rank
  else (fractions + rank % fractions) * Nat.pow 2 (rank / fractions - 1)

/-- The quotient of two numbers rounded to the nearest whole number, a half to the even neighbour.
-/
def roundQuotient (num den : Nat) : Nat :=
  let q := num / den
  let r := num % den
  if 2 * r < den then q
  else if den < 2 * r then q + 1
  else if q % 2 = 0 then q else q + 1

/-- The rank of the value nearest to `num / den` units, a half going to the even rank. The step at a
value of `n` units is `2 ^ k` for the `k` that leaves 53 binary digits of `n`. -/
def nearestRank (num den : Nat) : Nat :=
  let k := (num / den).log2 - 52
  k * fractions + roundQuotient num (den * Nat.pow 2 k)

def rankOfNat (n : Nat) : Nat :=
  nearestRank (n * Nat.pow 2 1074) 1

def mulRank (a b : Nat) : Nat :=
  nearestRank (magnitudeOf a * magnitudeOf b) (Nat.pow 2 1074)

def divRank (a b : Nat) : Nat :=
  nearestRank (magnitudeOf a * Nat.pow 2 1074) (magnitudeOf b)

/-- The exponent of the greatest power of ten that is finite. -/
def greatestPower : Nat := 308

def powerRank (exponent : Nat) : Nat :=
  rankOfNat (Nat.pow 10 exponent)

def lowerRank (rank : Nat) : Nat → Nat
  | 0 => rank
  | times + 1 =>
    -- Zero stays zero, however often it would still have to be divided.
    if rank = 0 then 0 else lowerRank (divRank rank (powerRank greatestPower)) times

/-- The rank of `digits * 10 ^ exponent`, where a power that is not finite is divided by in several
steps and is too much to multiply by. -/
def rankOfDecimal (digits : Nat) (exponent : Int) : Nat :=
  let rank := rankOfNat digits
  let power := exponent.natAbs
  if 0 ≤ exponent then
    if power ≤ greatestPower then mulRank rank (powerRank power)
    else if rank = 0 then 0
    else rankEnd
  else
    let times := (power - 1) / greatestPower
    divRank (lowerRank rank times) (powerRank (power - times * greatestPower))

def ofDecimal? (negative : Bool) (digits : Nat) (exponent : Int) : Option Binary64 :=
  let rank := rankOfDecimal digits exponent
  if h : rank < rankEnd then some ⟨negative, rank, h⟩ else none

end Binary64

end ShapeLines
