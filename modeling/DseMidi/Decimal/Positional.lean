/-!
# DseMidi.Decimal.Positional

**Decimal numbers and their positional text.** A decimal is a whole number of steps of
a power of ten; its text writes all digits out and has at least one digit on each side
of the point.
-/

namespace DseMidi

/-- The number `coefficient · 10 ^ exponent`. -/
structure Decimal where
  coefficient : Nat
  exponent : Int
  deriving DecidableEq

namespace Decimal

/-- Decimal digits with as many zeros in front as it takes to have `width` of them. -/
def paddedDigits (width n : Nat) : List Char :=
  (Nat.toDigits 10 n).leftpad width '0'

/-- The text of a decimal, without an exponent and with at least one fraction digit. -/
def text (d : Decimal) : List Char :=
  if 0 ≤ d.exponent then
    Nat.toDigits 10 (d.coefficient * Nat.pow 10 d.exponent.toNat) ++ ['.', '0']
  else
    let places := (-d.exponent).toNat
    let digits := paddedDigits (places + 1) d.coefficient
    let whole := digits.length - places
    digits.take whole ++ '.' :: digits.drop whole

end Decimal

end DseMidi
