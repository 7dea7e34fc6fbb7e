import DispatchLisp.Decimal

/-! # Quotients

Division of decimals.  A quotient is worked out digit by digit: it stops when it is exact or has a
hundred significant digits, and in the second case the last digit is rounded by the one that would
follow (`quotient`).  `withDigits` then cuts a number down to a given count of significant digits:
a positive number is rounded half up on the first dropped digit, a negative number loses its
remaining digits without rounding.

Division, `divide`, does both: a quotient of thirty-two significant digits. -/

namespace DispatchLisp.Decimal

/-- The most significant digits that the digit-by-digit quotient works out. -/
def quotientDigits : Nat := 100

/-- The significant digits that division keeps. -/
def divisionDigits : Nat := 32

/-! ### Long division -/

/-- Multiplies the numerator by ten, at most `fuel` times, until it is not less than the
denominator.  Also counts the multiplications. -/
def scaleUp (den : Nat) : Nat → Nat → Nat → Nat × Nat
  | 0, num, shift => (num, shift)
  | fuel + 1, num, shift =>
    if num < den then scaleUp den fuel (num * 10) (shift + 1) else (num, shift)

/-- Appends digits to a quotient while there is a remainder, at most `fuel` of them.  The result is
the quotient, the remainder that is left, and the number of digits appended. -/
def appendDigits (den : Nat) : Nat → Nat → Nat → Nat → Nat × Nat × Nat
  | 0, quo, rem, shift => (quo, rem, shift)
  | fuel + 1, quo, rem, shift =>
    if rem = 0 then (quo, rem, shift)
    else appendDigits den fuel (quo * 10 + rem * 10 / den) (rem * 10 % den) (shift + 1)

/-- The quotient of two positive numbers as digits and a scale, rounded on the digit that follows
if it is not exact. -/
def longDivision (num den : Nat) : Nat × Nat :=
  let (num, shift) := scaleUp den (Digits.count den) num 0
  let quo := num / den
  let (quo, rem, shift) :=
    appendDigits den (quotientDigits - Digits.count quo) quo (num % den) shift
  if rem = 0 then (quo, shift) else (if 5 ≤ rem * 10 / den then quo + 1 else quo, shift)

/-- The quotient of two decimals, the second of which is not zero.  Zero, and what is divided by
one, stays as it is. -/
def quotient (a b : Decimal) : Decimal :=
  if a.isZero || b.isOne then a
  else
    let (digits, shift) := longDivision a.coefficient.natAbs b.coefficient.natAbs
    let negative := decide (a.coefficient < 0) != decide (b.coefficient < 0)
    ⟨if negative then -(digits : Int) else digits, a.scale - b.scale + shift⟩

/-! ### Significant digits -/

/-- The number cut down or padded to the given count of significant digits. -/
def withDigits (d : Decimal) (digits : Nat) : Decimal :=
  let present := Digits.count d.coefficient.natAbs
  if digits < present then
    let drop := present - digits
    let unit : Int := powerOfTen drop
    let kept := d.coefficient.tdiv unit
    let dropped := d.coefficient.tmod unit
    ⟨if unit ≤ 2 * dropped then kept + 1 else kept, d.scale - drop⟩
  else d.rescale (d.scale + (digits - present : Nat))

/-- Division of decimals, kept to thirty-two significant digits; the divisor is not zero. -/
def divide (a b : Decimal) : Decimal := (quotient a b).withDigits divisionDigits

end DispatchLisp.Decimal
