import ShapeLines.Decimal.Notation

/-!
# JSON numbers

A number that is written without fraction and exponent and fits 64 bits, signed when negative and
unsigned otherwise, is kept as a whole number. Every other number is read as a floating-point one,
from as many of its first digits as fit 64 bits; it is refused when it lies beyond the finite ones.
A written `-0` is the floating-point negative zero.
-/

namespace ShapeLines.Json

inductive Number where
  | int (n : Int) (bounds : -0x8000000000000000 ≤ n ∧ n < 0x10000000000000000)
  | float (x : Binary64)
  deriving DecidableEq

/-- The parts of a number as written: `-`, digits, `.` and digits, `e` and a signed whole number. -/
structure Numeral where
  negative : Bool
  whole : List Char
  fraction : Option (List Char)
  exponent : Option Int

namespace Numeral

/-- Digits of a whole number, of which a leading zero is the only one. -/
def isWhole (digits : List Char) : Bool :=
  !digits.isEmpty && (digits.head? != some '0' || digits.length == 1)

/-- Reads a fraction if a point opens one. At least one digit must follow the point. -/
def takeFraction? : List Char → Option (Option (List Char) × List Char)
  | '.' :: s =>
    let digits := s.takeWhile Char.isDigit
    if digits.isEmpty then none else some (some digits, s.dropWhile Char.isDigit)
  | s => some (none, s)

def exponentDigits? (s : List Char) : Option Nat :=
  if s.isEmpty || !s.all Char.isDigit then none else some (Nat.ofDigitChars 10 s 0)

def exponent? : List Char → Option (Option Int)
  | [] => some none
  | mark :: s =>
    if mark = 'e' ∨ mark = 'E' then
      match s with
      | '-' :: s => (exponentDigits? s).map fun n => some (-(n : Int))
      | '+' :: s => (exponentDigits? s).map fun n => some (n : Int)
      | s => (exponentDigits? s).map fun n => some (n : Int)
    else none

def ofText? (s : List Char) : Option Numeral := do
  let negative := s.head? == some '-'
  let s := if negative then s.tail else s
  let whole := s.takeWhile Char.isDigit
  if !isWhole whole then none
  let (fraction, s) ← takeFraction? (s.dropWhile Char.isDigit)
  let exponent ← exponent? s
  return { negative, whole, fraction, exponent }

/-- Goes on reading a whole number for as long as it fits 64 bits, and counts the digits that are
left. -/
def takeDigits (n : Nat) : List Char → Nat × Nat
  | [] => (n, 0)
  | c :: s =>
    let next := 10 * n + (c.toNat - '0'.toNat)
    if next < 0x10000000000000000 then takeDigits next s else (n, s.length + 1)

def float? (n : Numeral) : Option Number :=
  let fraction := n.fraction.getD []
  let (whole, cut) := takeDigits 0 n.whole
  -- Digits of the fraction may still fit although some before the point did not.
  let (digits, left) := takeDigits whole fraction
  let exponent := n.exponent.getD 0 + cut - (fraction.length - left)
  (Binary64.ofDecimal? n.negative digits exponent).map .float

def number? (n : Numeral) : Option Number :=
  match n.fraction, n.exponent with
  | none, none =>
    let size := Nat.ofDigitChars 10 n.whole 0
    if n.negative then
      if h : 0 < size ∧ size ≤ 0x8000000000000000 then some (.int (-(size : Int)) (by omega))
      else n.float?
    else
      if h : size < 0x10000000000000000 then some (.int size (by omega)) else n.float?
  | _, _ => n.float?

end Numeral

namespace Number

def ofText? (s : List Char) : Option Number :=
  (Numeral.ofText? s).bind Numeral.number?

def text : Number → List Char
  | .int n _ => (if n < 0 then ['-'] else []) ++ Nat.toDigits 10 n.natAbs
  | .float x => x.text

end Number

end ShapeLines.Json
