import DispatchLisp.Proofs.Exactness
import DispatchLisp.Proofs.Outcomes
import Mathlib.Tactic.FieldSimp
import Mathlib.Tactic.Linarith

/-! # Division

A quotient is rounded twice.  Long division works out a hundred digits and rounds on the next one
(`Decimal.rounds_longDivision`), and then thirty-two significant digits are kept
(`Decimal.withDigits_near`).  The error of the first rounding is so far behind the digits that the
second one keeps that both together stay below one unit of the last digit
(`Decimal.abs_divide_sub_le`).

A number with at most thirty-two digits is not changed by either: no such number lies strictly
between two integers of a hundred digits (`Decimal.Approximates.value_eq`), and all that the second
one drops are zeros (`Decimal.value_withDigits`). -/

namespace DispatchLisp

namespace Digits

theorem count_le_iff {n k : Nat} (hk : 0 < k) : count n ≤ k ↔ n < 10 ^ k := by
  rw [count, ofNat_eq, Nat.length_toDigits_le_iff (by decide) hk]

theorem count_pos (n : Nat) : 0 < count n := by
  rw [count, ofNat_eq]
  exact Nat.length_toDigits_pos

theorem lt_pow_count (n : Nat) : n < 10 ^ count n := (count_le_iff (count_pos n)).mp le_rfl

theorem pow_le_of_lt_count {n k : Nat} (hk : 0 < k) (h : k < count n) : 10 ^ k ≤ n :=
  not_lt.mp fun hlt => absurd ((count_le_iff hk).mpr hlt) (not_le.mpr h)

/-- A positive number is at least the power of ten with as many digits. -/
theorem pow_le_of_count {n : Nat} (h : 0 < n) : 10 ^ (count n - 1) ≤ n := by
  rcases Nat.eq_zero_or_pos (count n - 1) with hone | hmore
  · rw [hone, pow_zero]
    exact h
  · exact pow_le_of_lt_count hmore (by omega)

end Digits

namespace Decimal

/-! ### Long division -/

/-- Scaling up multiplies by a power of ten, and ends with a numerator that is not less than the
denominator if there is fuel enough. -/
theorem scaleUp_eq (den fuel num shift : Nat) :
    ∃ k, scaleUp den fuel num shift = (num * 10 ^ k, shift + k) ∧
      (den ≤ num * 10 ^ k ∨ k = fuel) := by
  induction fuel generalizing num shift with
  | zero => exact ⟨0, by simp [scaleUp], .inr rfl⟩
  | succ fuel ih =>
      unfold scaleUp
      split
      case isTrue hless =>
        obtain ⟨k, hk, hend⟩ := ih (num * 10) (shift + 1)
        refine ⟨k + 1, ?_, ?_⟩
        · rw [hk, pow_succ', ← mul_assoc, add_assoc, add_comm 1 k]
        · rw [pow_succ', ← mul_assoc]
          omega
      case isFalse hless => exact ⟨0, by simp, .inl (by omega)⟩

/-- Digits are appended until nothing remains or there are as many as wanted. -/
theorem appendDigits_eq {den : Nat} (fuel quo rem shift : Nat) (hrem : rem < den) :
    ∃ quo' rem' k, appendDigits den fuel quo rem shift = (quo', rem', shift + k) ∧
      quo' * den + rem' = (quo * den + rem) * 10 ^ k ∧ rem' < den ∧
      (rem' = 0 ∨ quo * 10 ^ fuel ≤ quo') := by
  induction fuel generalizing quo rem shift with
  | zero => exact ⟨quo, rem, 0, by simp [appendDigits], by simp, hrem, .inr (by simp)⟩
  | succ fuel ih =>
      unfold appendDigits
      split
      case isTrue hzero => exact ⟨quo, rem, 0, by simp, by simp, hrem, .inl hzero⟩
      case isFalse =>
        have hden : 0 < den := by omega
        obtain ⟨quo', rem', k, heq, hinv, hless, hend⟩ :=
          ih (quo * 10 + rem * 10 / den) (rem * 10 % den) (shift + 1) (Nat.mod_lt _ hden)
        have hstep : (quo * 10 + rem * 10 / den) * den + rem * 10 % den =
            (quo * den + rem) * 10 := by
          have := Nat.div_add_mod' (rem * 10) den
          calc (quo * 10 + rem * 10 / den) * den + rem * 10 % den
              = quo * 10 * den + (rem * 10 / den * den + rem * 10 % den) := by ring
            _ = (quo * den + rem) * 10 := by rw [this]; ring
        refine ⟨quo', rem', k + 1, ?_, ?_, hless, hend.imp_right fun hle => ?_⟩
        · rw [heq, add_assoc, add_comm 1 k]
        · rw [hinv, hstep, pow_succ', ← mul_assoc]
        · calc quo * 10 ^ (fuel + 1) = quo * 10 * 10 ^ fuel := by rw [pow_succ', mul_assoc]
            _ ≤ (quo * 10 + rem * 10 / den) * 10 ^ fuel :=
              Nat.mul_le_mul_right _ (Nat.le_add_right _ _)
            _ ≤ quo' := hle

/-- The integer is the number, or else the number lies between two integers of a hundred digits and
more, and the integer is the nearer one of them. -/
def Rounds (y : ℚ) (n : Nat) : Prop :=
  (n : ℚ) = y ∨ ∃ quo : Nat, 10 ^ (quotientDigits - 1) ≤ quo ∧ quo ≤ n ∧ (quo : ℚ) < y ∧
    y < quo + 1 ∧ |(n : ℚ) - y| ≤ 1 / 2

theorem rounds_of_remainder {quo rem num den : Nat} (hden : 0 < den) (hinv : quo * den + rem = num)
    (hrem : rem < den) (hend : rem = 0 ∨ 10 ^ (quotientDigits - 1) ≤ quo) :
    Rounds (num / den)
      (if rem = 0 then quo else if 5 ≤ rem * 10 / den then quo + 1 else quo) := by
  have hden' : (0 : ℚ) < den := by exact_mod_cast hden
  have hy : (num : ℚ) / den = quo + rem / den := by
    rw [← hinv, Nat.cast_add, Nat.cast_mul, add_div, mul_div_cancel_right₀ _ hden'.ne']
  rw [hy]
  by_cases hzero : rem = 0
  · left
    simp [hzero]
  · right
    have hpos : (0 : ℚ) < rem / den := div_pos (by exact_mod_cast Nat.pos_of_ne_zero hzero) hden'
    have hlt : (rem : ℚ) / den < 1 := (div_lt_one hden').mpr (by exact_mod_cast hrem)
    have hhalf : 5 ≤ rem * 10 / den ↔ (1 / 2 : ℚ) ≤ rem / den := by
      rw [Nat.le_div_iff_mul_le hden, div_le_div_iff₀ (by norm_num) hden']
      constructor
      · intro h
        have : ((5 * den : Nat) : ℚ) ≤ (rem * 10 : Nat) := by exact_mod_cast h
        push_cast at this
        linarith
      · intro h
        have : (den : ℚ) ≤ (rem * 2 : Nat) := by push_cast; linarith
        have : den ≤ rem * 2 := by exact_mod_cast this
        omega
    rw [if_neg hzero]
    refine ⟨quo, hend.resolve_left hzero, ?_, by linarith, by linarith, ?_⟩
    · split <;> omega
    · split
      case isTrue hup =>
        have := hhalf.mp hup
        rw [abs_le]
        push_cast
        constructor <;> linarith
      case isFalse hdown =>
        have := not_le.mp (mt hhalf.mpr hdown)
        rw [abs_le]
        constructor <;> linarith

/-- **Long division** gives the quotient, rounded if it has more than a hundred digits. -/
theorem rounds_longDivision {num den : Nat} (hnum : 0 < num) (hden : 0 < den) :
    Rounds (num / den * 10 ^ (longDivision num den).2) (longDivision num den).1 := by
  obtain ⟨k, hscale, hend⟩ := scaleUp_eq den (Digits.count den) num 0
  have hge : den ≤ num * 10 ^ k := by
    rcases hend with hge | rfl
    · exact hge
    · calc den ≤ 10 ^ Digits.count den := (Digits.lt_pow_count den).le
        _ ≤ num * 10 ^ Digits.count den := Nat.le_mul_of_pos_left _ hnum
  generalize hnum' : num * 10 ^ k = num' at hscale hge
  have hquo : 0 < num' / den := Nat.div_pos hge hden
  obtain ⟨quo, rem, j, happend, hinv, hrem, hlong⟩ :=
    appendDigits_eq (quotientDigits - Digits.count (num' / den)) (num' / den) (num' % den) (0 + k)
      (Nat.mod_lt num' hden)
  have hresult : longDivision num den =
      (if rem = 0 then quo else if 5 ≤ rem * 10 / den then quo + 1 else quo, 0 + k + j) := by
    unfold longDivision
    simp only [hscale, happend]
    split <;> rfl
  have hlong' : rem = 0 ∨ 10 ^ (quotientDigits - 1) ≤ quo := by
    refine hlong.imp_right fun hle => ?_
    calc 10 ^ (quotientDigits - 1)
        ≤ 10 ^ (Digits.count (num' / den) - 1) *
            10 ^ (quotientDigits - Digits.count (num' / den)) := by
          rw [← pow_add]
          have := Digits.count_pos (num' / den)
          exact Nat.pow_le_pow_right (by decide) (by omega)
      _ ≤ num' / den * 10 ^ (quotientDigits - Digits.count (num' / den)) :=
          Nat.mul_le_mul_right _ (Digits.pow_le_of_count hquo)
      _ ≤ quo := hle
  have hrounds := rounds_of_remainder hden hinv hrem hlong'
  rw [Nat.div_add_mod'] at hrounds
  have hvalue : ((num' * 10 ^ j : Nat) : ℚ) / den = num / den * 10 ^ (0 + k + j) := by
    rw [← hnum']
    push_cast
    rw [zero_add, pow_add]
    ring
  rw [hresult]
  rwa [hvalue] at hrounds

/-! ### Quotients -/

/-- The decimal is the number, or else the number is written with the same scale, rounded to the
nearer one of two coefficients of a hundred digits and more. -/
def Approximates (d : Decimal) (x : ℚ) : Prop :=
  d.value = x ∨ ∃ quo : Nat, 10 ^ (quotientDigits - 1) ≤ quo ∧ quo ≤ d.coefficient.natAbs ∧
    (quo : ℚ) < |x * 10 ^ d.scale| ∧ |x * 10 ^ d.scale| < quo + 1 ∧
    |d.coefficient - x * 10 ^ d.scale| ≤ 1 / 2

theorem value_mul_pow (d : Decimal) : d.value * 10 ^ d.scale = d.coefficient :=
  div_mul_cancel₀ _ (zpow_ne_zero _ (by norm_num))

theorem div_eq_sign_mul (m n : Int) : (m : ℚ) / n =
    (if decide (m < 0) != decide (n < 0) then -1 else 1) * ((m.natAbs : ℚ) / n.natAbs) := by
  rw [Nat.cast_natAbs, Nat.cast_natAbs, Int.cast_abs, Int.cast_abs]
  have hneg {i : Int} (hi : i < 0) : |(i : ℚ)| = -i := abs_of_neg (by exact_mod_cast hi)
  have hnonneg {i : Int} (hi : 0 ≤ i) : |(i : ℚ)| = i := abs_of_nonneg (by exact_mod_cast hi)
  rcases lt_or_ge m 0 with hm | hm <;> rcases lt_or_ge n 0 with hn | hn
  · simp [hm, hn, hneg hm, hneg hn]
  · simp [hm, hn.not_gt, hneg hm, hnonneg hn, neg_div]
  · simp [hm.not_gt, hn, hnonneg hm, hneg hn, div_neg]
  · simp [hm.not_gt, hn.not_gt, hnonneg hm, hnonneg hn]

theorem value_eq_zero_iff {d : Decimal} : d.value = 0 ↔ d.coefficient = 0 := by
  rw [value, div_eq_zero_iff, or_iff_left (zpow_ne_zero _ (by norm_num)), Int.cast_eq_zero]

theorem Rounds.approximates {y x : ℚ} {n : Nat} {d : Decimal} (h : Rounds y n) (sign : ℚ)
    (hy : 0 ≤ y) (hsign : |sign| = 1) (hd : (d.coefficient : ℚ) = sign * n)
    (hx : x * 10 ^ d.scale = sign * y) : d.Approximates x := by
  have hpow : (10 : ℚ) ^ d.scale ≠ 0 := zpow_ne_zero _ (by norm_num)
  rcases h with hexact | ⟨quo, hlong, hle, hlow, hhigh, hnear⟩
  · left
    refine mul_right_cancel₀ hpow ?_
    rw [value_mul_pow, hd, hexact, hx]
  · right
    have hmagnitude : d.coefficient.natAbs = n := by
      have hcast : ((d.coefficient.natAbs : Nat) : ℚ) = n := by
        rw [Nat.cast_natAbs, Int.cast_abs, hd, abs_mul, hsign, one_mul, Nat.abs_cast]
      exact_mod_cast hcast
    have hmove : |x * 10 ^ d.scale| = y := by rw [hx, abs_mul, hsign, one_mul, abs_of_nonneg hy]
    refine ⟨quo, hlong, hmagnitude ▸ hle, hmove ▸ hlow, hmove ▸ hhigh, ?_⟩
    rw [hd, hx, ← mul_sub, abs_mul, hsign, one_mul]
    exact hnear

/-- **The quotient of two decimals** is exact, or rounded beyond a hundred digits. -/
theorem approximates_quotient (a : Decimal) {b : Decimal} (hb : b.value ≠ 0) :
    (quotient a b).Approximates (a.value / b.value) := by
  by_cases hplain : (a.isZero || b.isOne) = true
  · left
    rw [quotient, if_pos hplain]
    rcases Bool.or_eq_true_iff.mp hplain with hzero | hone
    · rw [value_of_isZero hzero, zero_div]
    · rw [value_of_isOne hone, div_one]
  · have hzero : a.coefficient ≠ 0 := by
      simp only [isZero, Bool.or_eq_true, beq_iff_eq, not_or] at hplain
      exact hplain.1
    have hrounds := rounds_longDivision (Int.natAbs_pos.mpr hzero)
      (Int.natAbs_pos.mpr (mt value_eq_zero_iff.mpr hb))
    rw [quotient, if_neg hplain]
    refine hrounds.approximates (if decide (a.coefficient < 0) != decide (b.coefficient < 0)
      then -1 else 1) (by positivity) ?_ ?_ ?_
    · split <;> simp
    · dsimp only
      split <;> simp
    · have ha : (10 : ℚ) ^ a.scale ≠ 0 := zpow_ne_zero _ (by norm_num)
      have hb : (10 : ℚ) ^ b.scale ≠ 0 := zpow_ne_zero _ (by norm_num)
      dsimp only
      rw [← mul_assoc, ← div_eq_sign_mul, value, value, zpow_add₀ (by norm_num),
        zpow_sub₀ (by norm_num), zpow_natCast]
      field_simp

/-! ### Significant digits -/

/-- The number has a finite decimal expansion with at most `digits` significant digits. -/
def HasDigits (digits : Nat) (x : ℚ) : Prop := ∃ m k : ℤ, m.natAbs < 10 ^ digits ∧ x = m * 10 ^ k

/-- A number with few digits has none after the point once its magnitude is large. -/
theorem HasDigits.exists_int {digits : Nat} {x : ℚ} (h : HasDigits digits x) (scale : Int) :
    (∃ (m : ℤ) (j : ℕ), m.natAbs < 10 ^ digits ∧ x * 10 ^ scale = m * 10 ^ j) ∨
      |x * 10 ^ scale| < 10 ^ digits := by
  obtain ⟨m, k, hm, rfl⟩ := h
  have hmove : (m : ℚ) * 10 ^ k * 10 ^ scale = m * 10 ^ (k + scale) := by
    rw [mul_assoc, ← zpow_add₀ (by norm_num)]
  rw [hmove]
  rcases lt_or_ge (k + scale) 0 with hneg | hpos
  · right
    have hm' : |(m : ℚ)| < 10 ^ digits := by
      rw [← Int.cast_abs, ← Nat.cast_natAbs]
      exact_mod_cast hm
    have hone : (10 : ℚ) ^ (k + scale) ≤ 1 := zpow_le_one_of_nonpos₀ (by norm_num) hneg.le
    have hpow : (0 : ℚ) < 10 ^ (k + scale) := zpow_pos (by norm_num) _
    rw [abs_mul, abs_of_pos hpow]
    calc |(m : ℚ)| * 10 ^ (k + scale) ≤ |(m : ℚ)| * 1 :=
          mul_le_mul_of_nonneg_left hone (abs_nonneg _)
      _ < 10 ^ digits := by rwa [mul_one]
  · left
    obtain ⟨j, hj⟩ := Int.eq_ofNat_of_zero_le hpos
    exact ⟨m, j, hm, by rw [hj, zpow_natCast]⟩

theorem natAbs_cast (n : Int) : (n.natAbs : ℚ) = |(n : ℚ)| := by rw [Nat.cast_natAbs, Int.cast_abs]

theorem Approximates.near {d : Decimal} {x : ℚ} (h : d.Approximates x) :
    (d.coefficient : ℚ) = x * 10 ^ d.scale ∨
      10 ^ (quotientDigits - 1) ≤ |(d.coefficient : ℚ)| ∧
        |d.coefficient - x * 10 ^ d.scale| ≤ 1 / 2 := by
  rcases h with hexact | ⟨quo, hlong, hle, -, -, hnear⟩
  · left
    rw [← hexact, value_mul_pow]
  · right
    refine ⟨?_, hnear⟩
    rw [← natAbs_cast]
    exact_mod_cast hlong.trans hle

/-- A quotient with few digits is exact. -/
theorem Approximates.value_eq {d : Decimal} {x : ℚ} (h : d.Approximates x)
    (hx : HasDigits (quotientDigits - 1) x) : d.value = x := by
  rcases h with hexact | ⟨quo, hlong, -, hlow, hhigh, -⟩
  · exact hexact
  exfalso
  rcases hx.exists_int d.scale with ⟨m, j, -, hint⟩ | hsmall
  · -- There is no integer between the two.
    have habs : |x * 10 ^ d.scale| = ((m.natAbs * 10 ^ j : Nat) : ℚ) := by
      rw [hint, abs_mul, abs_of_pos (by positivity : (0 : ℚ) < 10 ^ j), ← Int.cast_abs,
        ← Nat.cast_natAbs]
      push_cast
      rfl
    rw [habs] at hlow hhigh
    have hlow' : quo < m.natAbs * 10 ^ j := by exact_mod_cast hlow
    have hhigh' : m.natAbs * 10 ^ j < quo + 1 := by exact_mod_cast hhigh
    omega
  · have hlong' : (10 : ℚ) ^ (quotientDigits - 1) ≤ quo := by exact_mod_cast hlong
    linarith

theorem value_rescale (d : Decimal) {scale : Int} (h : d.scale ≤ scale) :
    (d.rescale scale).value = d.value := d.coefficientAt_div h

/-- The coefficient that is kept of one that loses its last digits. -/
def cut (c unit : Int) : Int :=
  if unit ≤ 2 * c.tmod unit then c.tdiv unit + 1 else c.tdiv unit

theorem abs_cut_sub_le (c : Int) {unit : Int} (hunit : 0 < unit) :
    |cut c unit * unit - c| ≤ unit - 1 := by
  have hsplit := Int.mul_tdiv_add_tmod c unit
  have hlow := Int.lt_tmod_of_pos c hunit
  have hhigh := Int.tmod_lt_of_pos c hunit
  rw [abs_le]
  unfold cut
  split
  case isTrue hup =>
    rw [add_mul, mul_comm]
    omega
  case isFalse =>
    rw [mul_comm]
    omega

theorem cut_of_dvd {c unit : Int} (hunit : 0 < unit) (h : unit ∣ c) : cut c unit * unit = c := by
  rw [cut, Int.tmod_eq_zero_of_dvd h, if_neg (by omega)]
  exact Int.tdiv_mul_cancel h

/-- Cutting down a long coefficient. -/
theorem value_withDigits_cut {d : Decimal} {digits : Nat}
    (h : digits < Digits.count d.coefficient.natAbs) :
    let unit : Nat := 10 ^ (Digits.count d.coefficient.natAbs - digits)
    (d.withDigits digits).value * 10 ^ d.scale = ((cut d.coefficient unit * unit : Int) : ℚ) := by
  intro unit
  have hresult : d.withDigits digits =
      ⟨cut d.coefficient unit, d.scale - (Digits.count d.coefficient.natAbs - digits : Nat)⟩ :=
    if_pos h
  have hpow : (10 : ℚ) ^ d.scale =
      10 ^ (d.scale - (Digits.count d.coefficient.natAbs - digits : Nat)) * unit := by
    rw [Nat.cast_pow, Nat.cast_ofNat, ← zpow_natCast, ← zpow_add₀ (by norm_num), sub_add_cancel]
  rw [hresult, hpow, ← mul_assoc, value_mul_pow]
  push_cast
  rfl

/-- Cutting down to significant digits keeps the number, or changes it by less than one unit of the
last digit that is kept. -/
theorem withDigits_near (d : Decimal) (digits : Nat) (hdigits : 1 < digits) :
    (d.withDigits digits).value * 10 ^ d.scale = d.coefficient ∨
      ∃ unit : ℚ, 10 ^ (digits - 1) * unit ≤ |(d.coefficient : ℚ)| ∧
        |(d.withDigits digits).value * 10 ^ d.scale - d.coefficient| ≤ unit - 1 := by
  rcases Nat.lt_or_ge digits (Digits.count d.coefficient.natAbs) with hmore | hless
  · right
    refine ⟨(10 ^ (Digits.count d.coefficient.natAbs - digits) : Nat), ?_, ?_⟩
    · rw [← natAbs_cast]
      have hsize : 10 ^ (digits - 1) * 10 ^ (Digits.count d.coefficient.natAbs - digits) ≤
          d.coefficient.natAbs := by
        rw [← pow_add]
        exact Digits.pow_le_of_lt_count (by omega) (by omega)
      exact_mod_cast hsize
    · rw [value_withDigits_cut hmore]
      exact_mod_cast abs_cut_sub_le d.coefficient (by positivity)
  · left
    rw [withDigits, if_neg (by omega), value_rescale d (by omega), value_mul_pow]

/-- A number that has few digits is kept. -/
theorem value_withDigits {d : Decimal} {digits : Nat} (hdigits : 1 < digits)
    (h : HasDigits digits d.value) : (d.withDigits digits).value = d.value := by
  rcases Nat.lt_or_ge digits (Digits.count d.coefficient.natAbs) with hmore | hless
  · have hlong : 10 ^ (Digits.count d.coefficient.natAbs - 1) ≤ d.coefficient.natAbs :=
      Digits.pow_le_of_lt_count (by omega) (by omega)
    have hints := h.exists_int d.scale
    rw [value_mul_pow] at hints
    rcases hints with ⟨m, j, hm, hint⟩ | hsmall
    · have hcoefficient : d.coefficient = m * 10 ^ j := by exact_mod_cast hint
      -- All digits that are dropped are zeros.
      have hdrop : Digits.count d.coefficient.natAbs - digits ≤ j := by
        have hlt : 10 ^ (Digits.count d.coefficient.natAbs - 1) < 10 ^ (digits + j) := by
          calc 10 ^ (Digits.count d.coefficient.natAbs - 1)
              ≤ d.coefficient.natAbs := hlong
            _ = m.natAbs * 10 ^ j := by rw [hcoefficient, Int.natAbs_mul, Int.natAbs_pow]; rfl
            _ < 10 ^ digits * 10 ^ j := Nat.mul_lt_mul_of_pos_right hm (by positivity)
            _ = 10 ^ (digits + j) := (pow_add _ _ _).symm
        have := (Nat.pow_lt_pow_iff_right (by decide)).mp hlt
        omega
      have hdvd : ((10 ^ (Digits.count d.coefficient.natAbs - digits) : Nat) : Int) ∣
          d.coefficient := by
        rw [Nat.cast_pow, Nat.cast_ofNat]
        exact (pow_dvd_pow 10 hdrop).trans ⟨m, hcoefficient.trans (mul_comm _ _)⟩
      have hpow : (10 : ℚ) ^ d.scale ≠ 0 := zpow_ne_zero _ (by norm_num)
      refine mul_right_cancel₀ hpow ?_
      rw [value_withDigits_cut hmore, cut_of_dvd (by positivity) hdvd, value_mul_pow]
    · exfalso
      have hsmall' : d.coefficient.natAbs < 10 ^ digits := by
        rw [← Int.cast_abs, ← Nat.cast_natAbs] at hsmall
        exact_mod_cast hsmall
      have := (Digits.count_le_iff (by omega)).mpr hsmall'
      omega
  · rw [withDigits, if_neg (by omega)]
    exact d.value_rescale (by omega)

/-! ### Division -/

/-- Two roundings, the first one far behind the digits that the second one keeps. -/
theorem abs_sub_le_of_roundings {w c y : ℚ} (hfirst : c = y ∨ 10 ^ 99 ≤ |c| ∧ |c - y| ≤ 1 / 2)
    (hsecond : w = c ∨ ∃ unit : ℚ, 10 ^ 31 * unit ≤ |c| ∧ |w - c| ≤ unit - 1) :
    |w - y| ≤ 10 ^ (-31 : ℤ) * |y| := by
  have hpower : (10 : ℚ) ^ (-31 : ℤ) = 1 / 10 ^ 31 := by norm_num
  have hnear : |c - y| ≤ 1 / 2 := by
    rcases hfirst with rfl | ⟨-, hnear⟩
    · rw [sub_self, abs_zero]
      norm_num
    · exact hnear
  have herror : |w - c| + |c - y| ≤ 1 / 10 ^ 31 * (|c| - |c - y|) := by
    rcases hsecond with rfl | ⟨unit, hunit, hcut⟩
    · rw [sub_self, abs_zero, zero_add]
      rcases hfirst with rfl | ⟨hlong, -⟩
      · rw [sub_self, abs_zero, sub_zero]
        positivity
      · linarith
    · linarith
  calc |w - y| ≤ |w - c| + |c - y| := abs_sub_le _ _ _
    _ ≤ 1 / 10 ^ 31 * (|c| - |c - y|) := herror
    _ ≤ 1 / 10 ^ 31 * |y| := by
      have := abs_sub_abs_le_abs_sub c y
      exact mul_le_mul_of_nonneg_left (by linarith) (by positivity)
    _ = 10 ^ (-31 : ℤ) * |y| := by rw [hpower]

/-- **A quotient is accurate.** -/
theorem abs_divide_sub_le (a : Decimal) {b : Decimal} (hb : b.value ≠ 0) :
    |(divide a b).value - a.value / b.value| ≤ 10 ^ (-31 : ℤ) * |a.value / b.value| := by
  have hfirst := (approximates_quotient a hb).near
  have hsecond := withDigits_near (quotient a b) divisionDigits (by decide)
  have hpow : (0 : ℚ) < 10 ^ (quotient a b).scale := zpow_pos (by norm_num) _
  -- Both roundings are measured in units of the last digit of the first one.
  have hunits := abs_sub_le_of_roundings hfirst hsecond
  rw [← sub_mul, abs_mul, abs_mul, abs_of_pos hpow, ← mul_assoc] at hunits
  exact le_of_mul_le_mul_right hunits hpow

/-- **A quotient is exact** if it has no more digits than are kept. -/
theorem value_divide {a b : Decimal} (hb : b.value ≠ 0)
    (h : HasDigits divisionDigits (a.value / b.value)) :
    (divide a b).value = a.value / b.value := by
  have hlonger : HasDigits (quotientDigits - 1) (a.value / b.value) := by
    obtain ⟨m, k, hm, hx⟩ := h
    exact ⟨m, k, hm.trans (by decide), hx⟩
  have hquotient := (approximates_quotient a hb).value_eq hlonger
  rw [divide, value_withDigits (by decide) (by rwa [hquotient]), hquotient]

/-! ### Trailing zeros -/

theorem value_stripZeros (fuel : Nat) (d : Decimal) : (stripZeros fuel d).value = d.value := by
  induction fuel generalizing d with
  | zero => rfl
  | succ fuel ih =>
      unfold stripZeros
      split
      case isTrue hzero => rw [ih, value_div_ten hzero]
      case isFalse => rfl

theorem value_normalize (d : Decimal) : d.normalize.value = d.value := by
  unfold normalize
  split
  case isTrue hzero => rw [value_eq_zero_iff.mpr hzero, value_eq_zero_iff]
  case isFalse => exact value_stripZeros _ d

end Decimal

/-! ### Calls of `/` -/

namespace Prelude

theorem divideAll_eq_none_iff {d : Decimal} {ds : List Decimal} :
    divideAll d ds = none ↔ ∃ e ∈ ds, e.value = 0 := by
  induction ds generalizing d with
  | nil => simp [divideAll]
  | cons e ds ih =>
      have hzero : e.isZero = true ↔ e.value = 0 := by
        rw [Decimal.isZero, beq_iff_eq, Decimal.value_eq_zero_iff]
      rw [divideAll, List.exists_mem_cons_iff, ← hzero]
      split
      case isTrue hfirst => simp [hfirst]
      case isFalse hfirst => simp [hfirst, ih]

end Prelude

namespace World

variable (limit : Nat) {a : Value} {bs : List Value}

theorem selected_divide (ha : a.IsNumber) (hbs : ∀ b ∈ bs, b.IsNumber) (hne : bs ≠ []) :
    (Overloads.named "/" (Prelude.core ++ Prelude.entries)).selected (a :: bs) =
      .ok (Prelude.variadic "/" [.num, .num] .num Prelude.divide) := by
  refine Overloads.selected_sole rfl ((Entry.matches_all (by simp [Prelude.variadic])).mpr ⟨?_, ?_⟩)
  · have := List.length_pos_iff.mpr hne
    simp [Prelude.variadic]
    omega
  · exact List.forall_mem_cons.mpr ⟨ha.admits, fun b hb => (hbs b hb).admits⟩

theorem run_divide (ha : a.IsNumber) (hbs : ∀ b ∈ bs, b.IsNumber) (h : Heap) :
    Prelude.divide (a :: bs) h =
      match Prelude.divideAll a.decimal (bs.map Value.decimal) with
      | some q => (.ok (.real q.normalize), h)
      | none => (.error (.base (.eval (.divisionByZero "/"))), h) := by
  have hall : ∀ v ∈ a :: bs, Kind.num.Admits v :=
    List.forall_mem_cons.mpr ⟨ha.admits, fun b hb => (hbs b hb).admits⟩
  rw [Prelude.divide, Prelude.decimals?_eq hall, List.map_cons]
  dsimp only
  cases Prelude.divideAll a.decimal (bs.map Value.decimal) <;> rfl

/-- A call with a divisor that is zero fails. -/
theorem fails_divide (ha : a.IsNumber) (hbs : ∀ b ∈ bs, b.IsNumber)
    (hzero : ∃ b ∈ bs, b.number = 0) (h : Heap) :
    (new limit).Fails "/" (a :: bs) h (.eval (.divisionByZero "/")) := by
  obtain ⟨b, hb, hvalue⟩ := hzero
  have hnone : Prelude.divideAll a.decimal (bs.map Value.decimal) = none :=
    Prelude.divideAll_eq_none_iff.mpr
      ⟨b.decimal, List.mem_map_of_mem hb, (hbs b hb).value_decimal.trans hvalue⟩
  refine fails_of_selected limit rfl (selected_divide ha hbs (List.ne_nil_of_mem hb)) ?_
  rw [run_divide ha hbs, hnone]

/-- A call without such a divisor gives the quotient. -/
theorem gives_divide (ha : a.IsNumber) (hbs : ∀ b ∈ bs, b.IsNumber) (hne : bs ≠ [])
    (hnonzero : ∀ b ∈ bs, b.number ≠ 0) :
    ∃ q, Prelude.divideAll a.decimal (bs.map Value.decimal) = some q ∧
      (new limit).Gives "/" (a :: bs) (.real q.normalize) := by
  have hsome : Prelude.divideAll a.decimal (bs.map Value.decimal) ≠ none := by
    rw [ne_eq, Prelude.divideAll_eq_none_iff]
    rintro ⟨d, hd, hvalue⟩
    obtain ⟨b, hb, rfl⟩ := List.mem_map.mp hd
    exact hnonzero b hb ((hbs b hb).value_decimal.symm.trans hvalue)
  obtain ⟨q, hq⟩ := Option.ne_none_iff_exists'.mp hsome
  refine ⟨q, hq, gives_of_selected limit rfl (selected_divide ha hbs hne) fun h => ?_⟩
  rw [run_divide ha hbs, hq]

/-- **Division is accurate, exact where it can be, and fails only for zero.**  A number divided by a
number that is not zero gives a real, whose product with the divisor differs from the dividend by at
most `10 ^ (-31)` of the dividend.  If the quotient has a finite decimal expansion with at most
thirty-two significant digits, then the real is the quotient.  A call with any divisors fails, with
the error for division by zero, if and only if one of them is zero; otherwise it gives a real. -/
theorem division_accurate :
    (∀ a b : Value, a.IsNumber → b.IsNumber → b.number ≠ 0 → ∃ q : Decimal,
      (new limit).Gives "/" [a, b] (.real q) ∧
      |q.value * b.number - a.number| ≤ 10 ^ (-31 : ℤ) * |a.number| ∧
      (Decimal.HasDigits 32 (a.number / b.number) → q.value = a.number / b.number)) ∧
    ∀ (a : Value) (bs : List Value), a.IsNumber → (∀ b ∈ bs, b.IsNumber) → bs ≠ [] →
      (∀ h, (new limit).Fails "/" (a :: bs) h (.eval (.divisionByZero "/")) ↔
        ∃ b ∈ bs, b.number = 0) ∧
      ((∃ q, (new limit).Gives "/" (a :: bs) (.real q)) ↔ ∀ b ∈ bs, b.number ≠ 0) := by
  constructor
  · intro a b ha hb hzero
    have hbs : ∀ v ∈ [b], v.IsNumber := List.forall_mem_singleton.mpr hb
    obtain ⟨q, hq, hgives⟩ :=
      gives_divide limit ha hbs (List.cons_ne_nil _ _) (List.forall_mem_singleton.mpr hzero)
    obtain rfl : a.decimal.divide b.decimal = q := by
      simp only [List.map_cons, List.map_nil, Prelude.divideAll] at hq
      split at hq
      · cases hq
      · exact Option.some.inj hq
    have hvalue := hb.value_decimal
    rw [← hvalue] at hzero
    have herror := Decimal.abs_divide_sub_le a.decimal hzero
    refine ⟨_, hgives, ?_, fun hdigits => ?_⟩
    · rw [Decimal.value_normalize, ← hvalue, ← ha.value_decimal]
      calc |(a.decimal.divide b.decimal).value * b.decimal.value - a.decimal.value|
          = |(a.decimal.divide b.decimal).value - a.decimal.value / b.decimal.value| *
              |b.decimal.value| := by rw [← abs_mul, sub_mul, div_mul_cancel₀ _ hzero]
        _ ≤ 10 ^ (-31 : ℤ) * |a.decimal.value / b.decimal.value| * |b.decimal.value| :=
            mul_le_mul_of_nonneg_right herror (abs_nonneg _)
        _ = 10 ^ (-31 : ℤ) * |a.decimal.value| := by
            rw [mul_assoc, ← abs_mul, div_mul_cancel₀ _ hzero]
    · rw [← hvalue, ← ha.value_decimal] at hdigits ⊢
      rw [Decimal.value_normalize, Decimal.value_divide hzero hdigits]
  · intro a bs ha hbs hne
    have hfails := fails_divide limit ha hbs
    have hgives := gives_divide limit ha hbs hne
    refine ⟨fun h => ⟨fun hfail => ?_, fun hzero => hfails hzero h⟩, ?_, fun hnonzero => ?_⟩
    · by_contra hnone
      push Not at hnone
      obtain ⟨q, -, hq⟩ := hgives hnone
      exact (hq.performs h).not_fails hfail
    · rintro ⟨q, hq⟩ b hb hzero
      exact (hq.performs {}).not_fails (hfails ⟨b, hb, hzero⟩ {})
    · obtain ⟨q, -, hq⟩ := hgives hnonzero
      exact ⟨_, hq⟩

/-- Two thirds have an error, an eighth has none, and a zero among the divisors is found behind
others. -/
theorem division_accurate_thirds :
    let minusTwo : Value := .int (-2)
    let three : Value := .real ⟨30, 1⟩
    let zero : Value := .real ⟨0, 2⟩
    minusTwo.IsNumber ∧ three.IsNumber ∧ three.number ≠ 0 ∧ Decimal.HasDigits 32 (1 / 8) ∧
      (∃ q : Decimal, (new 10).Gives "/" [minusTwo, three] (.real q) ∧
        |q.value * 3 - -2| ≤ 10 ^ (-31 : ℤ) * 2) ∧
      (∃ q : Decimal, (new 10).Gives "/" [.int 1, .int 8] (.real q) ∧ q.value = 1 / 8) ∧
      (∀ h, (new 10).Fails "/" [minusTwo, three, zero, three] h (.eval (.divisionByZero "/"))) ∧
      ∃ q, (new 10).Gives "/" [minusTwo, three, three] (.real q) := by
  intro minusTwo three zero
  have htwo : minusTwo.IsNumber := .inl ⟨-2, rfl⟩
  have hthree : three.IsNumber := .inr ⟨_, rfl⟩
  have hzero : zero.IsNumber := .inr ⟨_, rfl⟩
  have hvalue : three.number = 3 := by norm_num [three, Value.number, Decimal.value]
  have hvalue' : three.number ≠ 0 := by rw [hvalue]; norm_num
  have hdigits : Decimal.HasDigits 32 (1 / 8) := ⟨125, -3, by decide, by norm_num⟩
  obtain ⟨hpairs, hmany⟩ := division_accurate 10
  obtain ⟨q, hgives, herror, -⟩ := hpairs minusTwo three htwo hthree hvalue'
  obtain ⟨q', hgives', -, hexact⟩ := hpairs (.int 1) (.int 8) (.inl ⟨1, rfl⟩) (.inl ⟨8, rfl⟩)
    (by norm_num [Value.number])
  refine ⟨htwo, hthree, hvalue', hdigits, ⟨q, hgives, ?_⟩, ⟨q', hgives', ?_⟩, fun h => ?_, ?_⟩
  · have htwo' : minusTwo.number = -2 := by norm_num [minusTwo, Value.number]
    rw [hvalue, htwo'] at herror
    norm_num at herror ⊢
    exact herror
  · norm_num [Value.number] at hexact
    exact hexact hdigits
  · refine ((hmany minusTwo [three, zero, three] htwo ?_ (List.cons_ne_nil _ _)).1 h).mpr ?_
    · simp [hthree, hzero]
    · exact ⟨zero, by simp, by norm_num [zero, Value.number, Decimal.value]⟩
  · refine (hmany minusTwo [three, three] htwo ?_ (List.cons_ne_nil _ _)).2.mpr ?_
    · simp [hthree]
    · simp [hvalue]

end World

end DispatchLisp
