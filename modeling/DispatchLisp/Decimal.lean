import DispatchLisp.Digits
import DispatchLisp.Word

/-! # Decimals

An exact decimal number: an integer coefficient and a scale, standing for
`coefficient · 10 ^ (-scale)`.  One number has many representations (`1.5` and `1.50` differ in
coefficient and scale), so numbers are compared by value, never by representation.

* `rescale` writes a decimal with more digits after the point;
* `add`, `sub`, `neg` and `abs` are exact, and `mul` is as long as the scale fits its word;
* `compare`, `same` and `isZero` look at the value only;
* `isOne` looks at the representation, and finds a one that is not written with too many zeros;
* `truncate` drops the digits after the point;
* `normalize` picks the representation without trailing zeros. -/

namespace DispatchLisp

/-- The decimal number `coefficient · 10 ^ (-scale)`. -/
structure Decimal where
  coefficient : Int
  scale : Int
deriving DecidableEq, Repr, Inhabited

namespace Decimal

/-- An integer as a decimal. -/
def ofInt (n : Int) : Decimal := ⟨n, 0⟩

/-- A power of ten. -/
def powerOfTen (n : Nat) : Nat := Nat.pow 10 n

/-- The coefficient of `d` when it is written with the given scale, which is at least its own. -/
def coefficientAt (d : Decimal) (scale : Int) : Int :=
  d.coefficient * powerOfTen (scale - d.scale).toNat

/-- The same number with a scale that is at least its own. -/
def rescale (d : Decimal) (scale : Int) : Decimal := ⟨d.coefficientAt scale, scale⟩

/-- The number is zero. -/
def isZero (d : Decimal) : Bool := d.coefficient == 0

/-- The number is one, and is written with at most thirty-eight zeros after the point. -/
def isOne (d : Decimal) : Bool :=
  decide (0 ≤ d.scale) && decide (d.scale ≤ 38) && d.coefficient == powerOfTen d.scale.toNat

/-! ### Arithmetic -/

/-- The negated number. -/
def neg (d : Decimal) : Decimal := ⟨-d.coefficient, d.scale⟩

/-- The number without its sign. -/
def abs (d : Decimal) : Decimal := ⟨d.coefficient.natAbs, d.scale⟩

/-- The exact sum, written with the larger of the two scales. -/
def add (a b : Decimal) : Decimal :=
  let scale := max a.scale b.scale
  ⟨a.coefficientAt scale + b.coefficientAt scale, scale⟩

/-- The exact difference, written with the larger of the two scales.  If one of the numbers is zero,
the other one keeps its scale. -/
def sub (a b : Decimal) : Decimal :=
  if b.isZero then a
  else if a.isZero then b.neg
  else
    let scale := max a.scale b.scale
    ⟨a.coefficientAt scale - b.coefficientAt scale, scale⟩

/-- The product.  If one of the numbers is one, the other one keeps its scale.  Otherwise the scale
is the sum of the two in a word of 64 bits. -/
def mul (a b : Decimal) : Decimal :=
  if a.isOne then b
  else if b.isOne then a
  else ⟨a.coefficient * b.coefficient, Word.wrapSigned 64 (a.scale + b.scale)⟩

/-! ### Order -/

/-- The order of the two numbers by value. -/
def compare (a b : Decimal) : Ordering :=
  let scale := max a.scale b.scale
  Ord.compare (a.coefficientAt scale) (b.coefficientAt scale)

/-- The two decimals are the same number. -/
def same (a b : Decimal) : Bool := compare a b == .eq

/-! ### Dropping digits -/

/-- The integer part: the digits after the point are dropped, so the result is no farther from
zero. -/
def truncate (d : Decimal) : Int :=
  if d.scale ≤ 0 then d.coefficientAt 0 else d.coefficient.tdiv (powerOfTen d.scale.toNat)

/-- Strips up to `fuel` trailing zeros off the coefficient. -/
def stripZeros : Nat → Decimal → Decimal
  | 0, d => d
  | fuel + 1, d =>
    if d.coefficient % 10 = 0 then stripZeros fuel ⟨d.coefficient / 10, d.scale - 1⟩ else d

/-- The same number without trailing zeros; zero is written with scale zero. -/
def normalize (d : Decimal) : Decimal :=
  if d.coefficient = 0 then ⟨0, 0⟩ else stripZeros (Digits.count d.coefficient.natAbs) d

end Decimal

end DispatchLisp
