/-! # Decimal digits

The digits of a natural number, and the number that digits stand for.  Long numbers are taken
eighteen digits at a time, because then only one long division or multiplication is needed for
eighteen short ones.

`ofNat_eq` and `toNat_eq` say that this makes no difference to the result. -/

namespace DispatchLisp.Digits

/-- The number of digits that are taken at a time. -/
def chunkLength : Nat := 18

/-- The number of values of a chunk of digits. -/
def chunkSize : Nat := 1000000000000000000

/-! ### From a number to its digits -/

/-- The last `count` digits of a number, followed by other digits. -/
def lastDigits : Nat → Nat → List Char → List Char
  | 0, _, rest => rest
  | count + 1, n, rest => lastDigits count (n / 10) (Nat.digitChar (n % 10) :: rest)

/-- The digits of a number, followed by other digits; at most `fuel` chunks are split off. -/
def ofNatWithin : Nat → Nat → List Char → List Char
  | 0, n, rest => Nat.toDigits 10 n ++ rest
  | fuel + 1, n, rest =>
    if n < chunkSize then Nat.toDigits 10 n ++ rest
    else ofNatWithin fuel (n / chunkSize) (lastDigits chunkLength (n % chunkSize) rest)

/-- The digits of a number; zero has one digit. -/
def ofNat (n : Nat) : List Char := ofNatWithin (n.log2 / 59) n []

/-- The number of digits of a number. -/
def count (n : Nat) : Nat := (ofNat n).length

theorem toDigits_append_eq (count n : Nat) (rest : List Char) (h : Nat.pow 10 count ≤ n) :
    Nat.toDigits 10 n ++ rest =
      Nat.toDigits 10 (n / Nat.pow 10 count) ++ lastDigits count n rest := by
  induction count generalizing n rest with
  | zero => simp [lastDigits]
  | succ count ih =>
    have hpow : Nat.pow 10 (count + 1) = 10 * Nat.pow 10 count := by
      rw [Nat.mul_comm]; rfl
    have hpos : 0 < Nat.pow 10 count := Nat.pow_pos (by decide)
    have hn : Nat.pow 10 count ≤ n / 10 := by
      rw [Nat.le_div_iff_mul_le (by decide)]; omega
    rw [Nat.toDigits_of_base_le (by decide) (by omega), List.append_assoc, List.singleton_append,
      ih _ _ hn, Nat.div_div_eq_div_mul, hpow, lastDigits]

theorem lastDigits_mod (count n : Nat) (rest : List Char) :
    lastDigits count (n % Nat.pow 10 count) rest = lastDigits count n rest := by
  induction count generalizing n rest with
  | zero => rfl
  | succ count ih =>
    have hpow : Nat.pow 10 (count + 1) = 10 * Nat.pow 10 count := by
      rw [Nat.mul_comm]; rfl
    rw [lastDigits, lastDigits, hpow, Nat.mod_mul_right_div_self, Nat.mod_mul_right_mod, ih]

theorem ofNatWithin_eq (fuel n : Nat) (rest : List Char) :
    ofNatWithin fuel n rest = Nat.toDigits 10 n ++ rest := by
  induction fuel generalizing n rest with
  | zero => rfl
  | succ fuel ih =>
    rw [ofNatWithin]
    split
    · rfl
    · next h =>
      have hpow : chunkSize = Nat.pow 10 chunkLength := rfl
      rw [ih, hpow, lastDigits_mod, ← toDigits_append_eq]
      exact hpow ▸ Nat.le_of_not_lt h

/-- The digits are those of the usual notation. -/
theorem ofNat_eq (n : Nat) : ofNat n = Nat.toDigits 10 n := by
  rw [ofNat, ofNatWithin_eq, List.append_nil]

/-! ### From digits to the number -/

/-- The value of a digit. -/
def value (c : Char) : Nat := c.toNat - '0'.toNat

/-- The number that digits stand for after a number `high · power + low`, where `low` is less than
`power`. -/
def toNatFrom (high low power : Nat) : List Char → Nat
  | [] => high * power + low
  | c :: cs =>
    if power < chunkSize then toNatFrom high (low * 10 + value c) (power * 10) cs
    else toNatFrom (high * power + low) (value c) 10 cs

/-- The number that digits stand for. -/
def toNat (digits : List Char) : Nat := toNatFrom 0 0 1 digits

theorem toNatFrom_eq (high low power : Nat) (digits : List Char) :
    toNatFrom high low power digits =
      digits.foldl (fun n c => n * 10 + value c) (high * power + low) := by
  induction digits generalizing high low power with
  | nil => rfl
  | cons c cs ih =>
    rw [toNatFrom, List.foldl_cons]
    split
    · rw [ih, ← Nat.mul_assoc, Nat.add_mul, Nat.add_assoc]
    · exact ih _ _ _

/-- Each digit adds its value to ten times the number before it. -/
theorem toNat_eq (digits : List Char) :
    toNat digits = digits.foldl (fun n c => n * 10 + value c) 0 :=
  toNatFrom_eq 0 0 1 digits

end DispatchLisp.Digits
