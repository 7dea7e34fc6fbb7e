import DispatchLisp.Decimal

/-! # Equality of decimals

Two decimals are equal if the coefficient with fewer places, times a power of ten, is the other
coefficient.  The product is not worked out if that can be helped:

* a coefficient with too few bits is told apart at once;
* for fewer than twenty places the product is formed word by word.  A word of 32 bits times the
  power of ten, plus the carry, goes into a register of 64 bits; the lower half of the register is
  compared with the next word of the other coefficient, and the upper half is the next carry;
* if the product of a word and the power of ten does not fit the register, and for twenty places or
  more, the numbers are compared in full.

The register drops what does not fit when the carry is added.  So `equal` is `same` as long as no
such sum reaches `2 ^ 64`; if one does, equal numbers are told apart, and numbers that differ by the
dropped amount are not. -/

namespace DispatchLisp.Decimal

/-! ### Words -/

/-- The number of values of a word. -/
def wordSize : Nat := 4294967296

/-- The number of values of a register, which holds two words. -/
def registerSize : Nat := wordSize * wordSize

/-- The number of bits of a number; zero has none. -/
def bitCount (n : Nat) : Nat := if n = 0 then 0 else n.log2 + 1

/-- The lowest words of a number, at most `fuel` of them, lowest first. -/
def wordsWithin : Nat → Nat → List Nat
  | 0, _ => []
  | fuel + 1, n => if n = 0 then [] else n % wordSize :: wordsWithin fuel (n / wordSize)

/-- The words of a number, lowest first; zero has none. -/
def words (n : Nat) : List Nat := wordsWithin (bitCount n / 32 + 1) n

/-- Compares words with those of the product of other words and a power, given the carry so far.
There is no answer if the product of a word and the power does not fit the register. -/
def matchWords (power : Nat) : List Nat → List Nat → Nat → Option Bool
  | a :: as, b :: bs, carry =>
    if b * power < registerSize then
      let register := (b * power + carry) % registerSize
      if a = register % wordSize then matchWords power as bs (register / wordSize) else some false
    else none
  | a :: as, [], carry => if a = carry then matchWords power as [] 0 else some false
  | [], _ :: _, _ => some false
  | [], [], carry => some (carry == 0)

/-! ### Equality -/

/-- A count of bits that every number with more than `places` digits has: `2 ^ powerBits places` is
at most `10 ^ places`. -/
def powerBits (places : Nat) : Nat := places * 33219 / 10000

/-- The number `long` is found to be `short · 10 ^ places`. -/
def isScaled (long short places : Nat) : Bool :=
  if bitCount long < bitCount short + powerBits places then false
  else if places < 20 then
    match matchWords (powerOfTen places) (words long) (words short) 0 with
    | some answer => answer
    | none => long == short * powerOfTen places
  else long == short * powerOfTen places

/-- The two decimals are found to be equal. -/
def equal (a b : Decimal) : Bool :=
  if a.scale = b.scale then a.coefficient == b.coefficient
  else if a.coefficient.sign ≠ b.coefficient.sign then false
  else if a.coefficient = 0 then true
  else if a.scale < b.scale then
    isScaled b.coefficient.natAbs a.coefficient.natAbs (b.scale - a.scale).toNat
  else isScaled a.coefficient.natAbs b.coefficient.natAbs (a.scale - b.scale).toNat

end DispatchLisp.Decimal
