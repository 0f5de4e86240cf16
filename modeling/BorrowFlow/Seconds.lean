import BorrowFlow.Text.Number

/-! # A span of time

  A deadline is given in seconds, as a decimal number.  Values too small for a
  double-precision number count as zero, and a deadline may also be infinite or
  not a number at all, in which case it never passes.
-/

namespace BorrowFlow

open Text

/-- A number of seconds. -/
inductive Seconds where
  | finite (value : Signed Decimal)
  | infinite (negative : Bool)
  | undefined
  deriving DecidableEq

namespace Seconds

/-- The order of magnitude of a decimal that is not zero: the least power of ten
    above it. -/
def magnitude (d : Decimal) : Int := (Nat.toDigits 10 d.digits).length + d.exponent

/-- Is the decimal rounded to zero?  Half of the least positive double-precision
    number is two to the power of -1075, which lies between ten to the power of
    -324 and of -323. -/
def vanishes (d : Decimal) : Bool :=
  d.digits == 0 || magnitude d < -323 ||
    (magnitude d == -323 && d.digits * Nat.pow 2 1075 ≤ Nat.pow 10 d.exponent.natAbs)

/-- Is the value below zero? -/
def isNegative : Seconds → Bool
  | finite v => v.negative && !vanishes v.magnitude
  | infinite negative => negative
  | undefined => false

/-- Has the time passed before any work is done?  A microsecond counts as long
    enough to begin. -/
def isOver : Seconds → Bool
  | finite v => v.negative || v.magnitude.digits == 0 || magnitude v.magnitude ≤ -6
  | infinite negative => negative
  | undefined => false

/-- The number of seconds that a text writes. -/
def read? (s : String) : Option Seconds :=
  let v := signed (trimBlanks s.toList)
  let word := String.ofList (v.magnitude.map Char.toLower)
  if word = "inf" ∨ word = "infinity" then some (infinite v.negative)
  else if word = "nan" then some undefined
  else (readDecimal? v.magnitude).map fun d => finite ⟨v.negative, d⟩

end Seconds

end BorrowFlow
