import DispatchLisp.Decimal.Equality
import DispatchLisp.Heap.Digest
import DispatchLisp.Proofs.Numeral
import Mathlib.Data.Nat.Digits.Lemmas

/-! # Equality and digests of decimals

The digest of a decimal is the coefficient of the number when it is written with as few places after
the point as possible.  There is only one such coefficient (`Decimal.Reduced.unique`), so decimals
that are the same number have the same digest (`Decimal.digest_eq_of_same`).

The comparison word by word is exact as long as the power of ten fits a word: then a register never
overflows (`Decimal.matchWords_eq`).  Decimals whose scales differ by at most nine are therefore
compared by value (`Decimal.equal_eq_same`). -/

namespace DispatchLisp.Decimal

/-! ### Digests -/

/-- The number is written with `places` digits after the point, and the last of them is not zero. -/
structure Reduced (coefficient : Int) (places : Nat) (number : ℚ) : Prop where
  value : (coefficient : ℚ) / 10 ^ places = number
  last : places = 0 ∨ coefficient % 10 ≠ 0

theorem Reduced.places_le {n n' : Int} {p p' : Nat} {q : ℚ} (h : Reduced n p q)
    (h' : Reduced n' p' q) : p' ≤ p := by
  by_contra hlt
  obtain ⟨k, rfl⟩ : ∃ k, p' = p + (k + 1) := ⟨p' - p - 1, by omega⟩
  have hne : (10 : ℚ) ^ p ≠ 0 := by positivity
  have hne' : (10 : ℚ) ^ (p + (k + 1)) ≠ 0 := by positivity
  have hvalue := h.value.trans h'.value.symm
  rw [div_eq_div_iff hne hne', pow_add, ← mul_assoc, mul_right_comm] at hvalue
  have hcast : ((n * 10 ^ (k + 1) : Int) : ℚ) = n' := by
    push_cast
    exact mul_right_cancel₀ hne hvalue
  have hn : n * 10 ^ (k + 1) = n' := by exact_mod_cast hcast
  rcases h'.last with hzero | hlast
  · omega
  · rw [← hn, pow_succ, ← mul_assoc, Int.mul_emod_left] at hlast
    exact hlast rfl

/-- A number has one coefficient without zeros at the end of the fraction. -/
theorem Reduced.unique {n n' : Int} {p p' : Nat} {q : ℚ} (h : Reduced n p q)
    (h' : Reduced n' p' q) : n = n' := by
  obtain rfl : p = p' := Nat.le_antisymm (h'.places_le h) (h.places_le h')
  have hne : (10 : ℚ) ^ p ≠ 0 := by positivity
  have hvalue := h.value.trans h'.value.symm
  rw [div_left_inj' hne] at hvalue
  exact_mod_cast hvalue

/-- A zero at the end of the coefficient and one place make no difference. -/
theorem value_div_ten {d : Decimal} (h : d.coefficient % 10 = 0) :
    value ⟨d.coefficient / 10, d.scale - 1⟩ = d.value := by
  have hdvd : (10 : Int) ∣ d.coefficient := Int.dvd_of_emod_eq_zero h
  have hpow : (10 : ℚ) ^ d.scale = 10 * 10 ^ (d.scale - 1) := by
    rw [← zpow_one_add₀ (by norm_num), add_sub_cancel]
  unfold value
  push_cast [hdvd]
  rw [hpow, div_div]

theorem reduced_stripZeros (k : Nat) (d : Decimal) (h : d.scale = k) :
    ∃ p, Reduced (stripZeros k d).coefficient p d.value := by
  induction k generalizing d with
  | zero => exact ⟨0, by simp [stripZeros, value, h], .inl rfl⟩
  | succ k ih =>
      unfold stripZeros
      split
      case isTrue hzero =>
        have hscale : d.scale - 1 = k := by omega
        obtain ⟨p, hp⟩ := ih ⟨d.coefficient / 10, d.scale - 1⟩ hscale
        rw [value_div_ten hzero] at hp
        exact ⟨p, hp⟩
      case isFalse hlast =>
        refine ⟨k + 1, ?_, .inr hlast⟩
        rw [value, h, zpow_natCast]

theorem exists_reduced_digest (d : Decimal) : ∃ p, Reduced d.digest p d.value := by
  unfold digest
  split
  case isTrue hzero => exact ⟨0, by simp [value, hzero], .inl rfl⟩
  case isFalse =>
    split
    case isTrue hscale => exact reduced_stripZeros _ d (by omega)
    case isFalse hscale =>
      have hvalue := d.coefficientAt_div (Int.not_lt.mp hscale)
      rw [zpow_zero, div_one] at hvalue
      exact ⟨0, by rw [pow_zero, div_one, hvalue], .inl rfl⟩

/-- Decimals that are the same number have the same digest. -/
theorem digest_eq_of_same {a b : Decimal} (h : same a b = true) : a.digest = b.digest := by
  obtain ⟨p, hp⟩ := a.exists_reduced_digest
  obtain ⟨p', hp'⟩ := b.exists_reduced_digest
  rw [same_iff] at h
  exact (h ▸ hp).unique hp'

/-! ### Words -/

theorem wordsWithin_eq {fuel n : Nat} (h : n < wordSize ^ fuel) :
    wordsWithin fuel n = Nat.digits wordSize n := by
  induction fuel generalizing n with
  | zero =>
      obtain rfl : n = 0 := by simpa using h
      rw [wordsWithin, Nat.digits_zero]
  | succ fuel ih =>
      unfold wordsWithin
      split
      case isTrue hzero => rw [hzero, Nat.digits_zero]
      case isFalse hpos =>
        have hrest : n / wordSize < wordSize ^ fuel := by
          apply Nat.div_lt_of_lt_mul
          rwa [← Nat.pow_succ']
        rw [Nat.digits_def' (by decide) (Nat.pos_of_ne_zero hpos), ih hrest]

theorem lt_two_pow_bitCount (n : Nat) : n < 2 ^ bitCount n := by
  unfold bitCount
  split
  case isTrue hzero => simp [hzero]
  case isFalse => exact Nat.lt_log2_self

theorem words_eq (n : Nat) : words n = Nat.digits wordSize n := by
  apply wordsWithin_eq
  have hsize : wordSize = 2 ^ 32 := by decide
  rw [hsize, ← Nat.pow_mul]
  exact lt_of_lt_of_le (lt_two_pow_bitCount n) (Nat.pow_le_pow_right (by decide) (by omega))

/-- The words of a number and what is carried make up the product. -/
theorem eq_mul_add_iff (m n power carry : Nat) :
    m = n * power + carry ↔
      m % wordSize = (n % wordSize * power + carry) % wordSize ∧
        m / wordSize = n / wordSize * power + (n % wordSize * power + carry) / wordSize := by
  have hsize : 0 < wordSize := by decide
  generalize hregister : n % wordSize * power + carry = register
  have hproduct : n * power + carry =
      register % wordSize + wordSize * (n / wordSize * power + register / wordSize) := by
    calc n * power + carry
        = (n % wordSize + wordSize * (n / wordSize)) * power + carry := by rw [Nat.mod_add_div]
      _ = register + wordSize * (n / wordSize * power) := by rw [← hregister]; ring
      _ = _ := by
        nth_rewrite 1 [← Nat.mod_add_div register wordSize]
        ring
  rw [hproduct, and_comm, Nat.div_mod_unique hsize]
  constructor
  · exact fun h => ⟨h.symm, Nat.mod_lt _ hsize⟩
  · exact fun h => h.1.symm

/-- The product of words and a power that fits a word, and what is carried, fit the register: the
comparison is exact. -/
theorem matchWords_eq {power : Nat} (hpos : 0 < power) (hfits : power ≤ wordSize) (m n : Nat)
    {carry : Nat} (hcarry : carry < power) :
    matchWords power (Nat.digits wordSize m) (Nat.digits wordSize n) carry =
      some (decide (m = n * power + carry)) := by
  have hsize : 1 < wordSize := by decide
  induction m using Nat.strong_induction_on generalizing n carry with
  | _ m ih =>
      rcases Nat.eq_zero_or_pos m with rfl | hm <;> rcases Nat.eq_zero_or_pos n with rfl | hn
      · cases carry <;> simp [matchWords]
      · have hproduct : 0 < n * power := Nat.mul_pos hn hpos
        rw [Nat.digits_zero, Nat.digits_def' hsize hn, matchWords, decide_eq_false (by omega)]
      · have hrest := ih (m / wordSize) (Nat.div_lt_self hm hsize) 0 hpos
        have hiff := eq_mul_add_iff m 0 power carry
        rw [Nat.digits_zero] at hrest ⊢
        rw [Nat.digits_def' hsize hm, matchWords, hrest]
        simp only [Nat.zero_mod, Nat.zero_div, Nat.zero_mul, Nat.zero_add,
          Nat.mod_eq_of_lt (lt_of_lt_of_le hcarry hfits),
          Nat.div_eq_of_lt (lt_of_lt_of_le hcarry hfits)] at hiff ⊢
        split
        case isTrue hword => simp [hiff, hword]
        case isFalse hword => simp [hiff, hword]
      · have hword : n % wordSize < wordSize := Nat.mod_lt _ (by decide)
        have hregister : n % wordSize * power + carry < wordSize * power := by
          calc n % wordSize * power + carry
              < n % wordSize * power + power := by omega
            _ = (n % wordSize + 1) * power := by ring
            _ ≤ wordSize * power := Nat.mul_le_mul_right _ hword
        have hroom : wordSize * power ≤ registerSize := Nat.mul_le_mul_left _ hfits
        have hrest := ih (m / wordSize) (Nat.div_lt_self hm hsize) (n / wordSize)
          (Nat.div_lt_of_lt_mul hregister)
        have hiff := eq_mul_add_iff m n power carry
        rw [Nat.digits_def' hsize hm, Nat.digits_def' hsize hn, matchWords, if_pos (by omega),
          Nat.mod_eq_of_lt (by omega)]
        simp only [hrest]
        split
        case isTrue hword => simp [hiff, hword]
        case isFalse hword => simp [hiff, hword]

/-! ### Equality -/

theorem two_pow_bitCount_le {n : Nat} (h : 0 < n) : 2 ^ bitCount n ≤ 2 * n := by
  have hne : n ≠ 0 := by omega
  rw [bitCount, if_neg hne, Nat.pow_succ']
  exact Nat.mul_le_mul_left _ (Nat.log2_self_le hne)

/-- A product with a power of ten has as many bits as it is expected to have. -/
theorem bitCount_mul_powerOfTen {short places : Nat} (hshort : 0 < short) (hplaces : places ≤ 9) :
    bitCount short + powerBits places ≤ bitCount (short * powerOfTen places) := by
  have hpower : 2 ^ powerBits places ≤ powerOfTen places := by
    interval_cases places <;> decide
  have hlt : 2 ^ (bitCount short + powerBits places) <
      2 ^ (bitCount (short * powerOfTen places) + 1) := by
    calc 2 ^ (bitCount short + powerBits places)
        = 2 ^ bitCount short * 2 ^ powerBits places := Nat.pow_add _ _ _
      _ ≤ 2 * short * powerOfTen places := Nat.mul_le_mul (two_pow_bitCount_le hshort) hpower
      _ = 2 * (short * powerOfTen places) := Nat.mul_assoc _ _ _
      _ < 2 * 2 ^ bitCount (short * powerOfTen places) := by
        have := lt_two_pow_bitCount (short * powerOfTen places)
        omega
      _ = 2 ^ (bitCount (short * powerOfTen places) + 1) := by rw [Nat.pow_succ']
  have := (Nat.pow_lt_pow_iff_right (by decide)).mp hlt
  omega

theorem isScaled_eq {long short places : Nat} (hshort : 0 < short) (hplaces : places ≤ 9) :
    isScaled long short places = decide (long = short * powerOfTen places) := by
  have hpos : 0 < powerOfTen places := Nat.pos_of_ne_zero (by
    unfold powerOfTen
    interval_cases places <;> decide)
  have hfits : powerOfTen places ≤ wordSize := by
    interval_cases places <;> decide
  unfold isScaled
  split
  case isTrue hbits =>
    symm
    rw [decide_eq_false_iff_not]
    rintro rfl
    have := bitCount_mul_powerOfTen hshort hplaces
    omega
  case isFalse =>
    rw [if_pos (by omega), words_eq, words_eq, matchWords_eq hpos hfits long short hpos]
    rfl

theorem same_iff_of_le {a b : Decimal} (h : a.scale ≤ b.scale) :
    same a b = true ↔
      a.coefficient * powerOfTen (b.scale - a.scale).toNat = b.coefficient := by
  have hb : b.coefficientAt b.scale = b.coefficient := by simp [coefficientAt, powerOfTen]
  rw [← coefficientAt, ← hb]
  simp only [same, compare, max_eq_right h, beq_iff_eq, compare_eq_iff_eq, hb]

theorem same_comm (a b : Decimal) : same a b = same b a := by
  rw [Bool.eq_iff_iff, same_iff, same_iff, eq_comm]

theorem equal_self (d : Decimal) : equal d d = true := by simp [equal]

/-- Coefficients of one sign are compared by their magnitudes. -/
theorem isScaled_natAbs_iff {c c' : Int} {places : Nat} (hplaces : places ≤ 9) (hc : c ≠ 0)
    (hsign : c.sign = c'.sign) :
    isScaled c'.natAbs c.natAbs places = true ↔ c * powerOfTen places = c' := by
  rw [isScaled_eq (Int.natAbs_pos.mpr hc) hplaces, decide_eq_true_iff]
  constructor
  · intro h
    have hcast : (c'.natAbs : Int) = c.natAbs * powerOfTen places := by exact_mod_cast h
    rw [← Int.sign_mul_natAbs c', hcast, ← hsign, ← Int.mul_assoc, Int.sign_mul_natAbs]
  · intro h
    rw [← h, Int.natAbs_mul, Int.natAbs_natCast]

theorem sign_mul_powerOfTen (c : Int) (places : Nat) : (c * powerOfTen places).sign = c.sign := by
  have hpos : 0 < (powerOfTen places : Int) := by
    unfold powerOfTen
    exact_mod_cast Nat.pow_pos (n := places) (by decide : 0 < 10)
  rw [Int.sign_mul, Int.sign_eq_one_of_pos hpos, Int.mul_one]

theorem equal_eq_same_of_le {a b : Decimal} (hle : a.scale ≤ b.scale)
    (hnear : b.scale - a.scale ≤ 9) : equal a b = same a b := by
  rw [Bool.eq_iff_iff, same_iff_of_le hle]
  unfold equal
  by_cases hscale : a.scale = b.scale
  · rw [if_pos hscale, beq_iff_eq, hscale]
    simp [powerOfTen]
  have hlt : a.scale < b.scale := lt_of_le_of_ne hle hscale
  rw [if_neg hscale, if_pos hlt]
  by_cases hsign : a.coefficient.sign = b.coefficient.sign
  · rw [if_neg (not_not.mpr hsign)]
    by_cases hzero : a.coefficient = 0
    · have hzero' : b.coefficient = 0 := by
        rw [hzero, Int.sign_zero] at hsign
        exact Int.sign_eq_zero_iff_zero.mp hsign.symm
      simp [hzero, hzero']
    · rw [if_neg hzero, isScaled_natAbs_iff (by omega) hzero hsign]
  · rw [if_pos hsign]
    constructor
    · intro h
      cases h
    · intro h
      rw [← h, sign_mul_powerOfTen] at hsign
      exact absurd rfl hsign

theorem equal_comm (a b : Decimal) : equal a b = equal b a := by
  unfold equal
  by_cases hscale : a.scale = b.scale
  · rw [if_pos hscale, if_pos hscale.symm, Bool.beq_comm]
  rw [if_neg hscale, if_neg (Ne.symm hscale)]
  by_cases hsign : a.coefficient.sign = b.coefficient.sign
  · have hzero : a.coefficient = 0 ↔ b.coefficient = 0 := by
      rw [← Int.sign_eq_zero_iff_zero, hsign, Int.sign_eq_zero_iff_zero]
    have hlt : a.scale < b.scale ↔ ¬ b.scale < a.scale := by omega
    simp only [hsign, hzero, hlt, ite_not, ne_eq, not_true_eq_false, if_false]
  · rw [if_pos hsign, if_pos (Ne.symm hsign)]

/-- Decimals whose scales are not far apart are compared by value. -/
theorem equal_eq_same {a b : Decimal} (h : (a.scale - b.scale).natAbs ≤ 9) :
    equal a b = same a b := by
  rcases Int.le_total a.scale b.scale with hle | hle
  · exact equal_eq_same_of_le hle (by omega)
  · rw [equal_comm, same_comm]
    exact equal_eq_same_of_le hle (by omega)

-- With ten places a register can overflow, and then equality is not transitive.
example : equal ⟨7922816251677867879, 0⟩ ⟨792281625167786787900000, 5⟩ = true ∧
    equal ⟨792281625167786787900000, 5⟩ ⟨79228162516778678790000000000, 10⟩ = true ∧
    equal ⟨7922816251677867879, 0⟩ ⟨79228162516778678790000000000, 10⟩ = false := by decide

end DispatchLisp.Decimal
