import DispatchLisp.Decimal.Numeral
import Mathlib.Algebra.Field.Rat
import Mathlib.Algebra.Order.Ring.Rat
import Mathlib.Data.List.TakeWhile
import Mathlib.Tactic.Positivity

/-! # Numbers and their texts

What a decimal stands for is a rational number, `Decimal.value`; two decimals are the same in the
sense of `Decimal.same` if and only if these are equal (`Decimal.same_iff`).

The text of a decimal is a sign, a *whole* part, a point and a *fraction*, both parts made of digits
and neither of them empty.  Read as one number with the point left out, the digits stand for the
magnitude of the decimal (`Numeral.value_parts`), so that reading the text gives a decimal of the
same value (`Numeral.toDecimal?_ofDecimal`, `Numeral.same_reread`). -/

namespace DispatchLisp

/-! ### Digits -/

namespace Digits

theorem toNat_eq_ofDigitChars (ds : List Char) : toNat ds = Nat.ofDigitChars 10 ds 0 := by
  rw [toNat_eq, Nat.ofDigitChars_eq_foldl]
  congr 1
  funext n c
  rw [Nat.mul_comm]
  rfl

@[simp] theorem toNat_ofNat (n : Nat) : toNat (ofNat n) = n := by
  rw [toNat_eq_ofDigitChars, ofNat_eq, Nat.ofDigitChars_ten_toDigits]

theorem toNat_append (a b : List Char) : toNat (a ++ b) = toNat a * 10 ^ b.length + toNat b := by
  simp only [toNat_eq_ofDigitChars]
  rw [Nat.ofDigitChars_append, Nat.ofDigitChars_eq_ofDigitChars_zero, Nat.mul_comm]

@[simp] theorem toNat_replicate_zero (k : Nat) : toNat (List.replicate k '0') = 0 := by
  rw [toNat_eq_ofDigitChars, Nat.ofDigitChars_replicate_zero, Nat.mul_zero]

/-- The text is made of digits, and there is at least one. -/
structure Proper (ds : List Char) : Prop where
  ne_nil : ds ≠ []
  isDigit : ∀ c ∈ ds, c.isDigit = true

theorem proper_ofNat (n : Nat) : Proper (ofNat n) := by
  rw [ofNat_eq]
  exact ⟨Nat.toDigits_ne_nil, fun c hc => Nat.isDigit_of_mem_toDigits (by decide) (by decide) hc⟩

theorem proper_zero : Proper ['0'] := ⟨by decide, List.all_eq_true.mp (by decide)⟩

theorem Proper.exists_cons {ds : List Char} (h : Proper ds) :
    ∃ x xs, ds = x :: xs ∧ x.isDigit = true := by
  obtain ⟨x, xs, rfl⟩ := List.exists_cons_of_ne_nil h.ne_nil
  exact ⟨x, xs, rfl, h.isDigit x List.mem_cons_self⟩

theorem Proper.append {a b : List Char} (ha : Proper a) (hb : Proper b) : Proper (a ++ b) := by
  refine ⟨by simp [ha.ne_nil], fun c hc => ?_⟩
  rcases List.mem_append.mp hc with hc | hc
  · exact ha.isDigit c hc
  · exact hb.isDigit c hc

theorem Proper.ne {ds : List Char} (h : Proper ds) {c x : Char} (hc : c ∈ ds)
    (hx : x.isDigit = false) : c ≠ x := by
  rintro rfl
  rw [h.isDigit c hc] at hx
  cases hx

end Digits

/-! ### The value of a decimal -/

namespace Decimal

/-- The rational number that a decimal stands for. -/
def value (d : Decimal) : ℚ := d.coefficient / 10 ^ d.scale

theorem coefficientAt_div (d : Decimal) {scale : Int} (h : d.scale ≤ scale) :
    (d.coefficientAt scale : ℚ) / 10 ^ scale = d.value := by
  have hpow : (10 : ℚ) ^ scale = 10 ^ (scale - d.scale).toNat * 10 ^ d.scale := by
    rw [← zpow_natCast, ← zpow_add₀ (by norm_num)]
    congr 1
    omega
  have hne : (10 : ℚ) ^ (scale - d.scale).toNat ≠ 0 := by positivity
  have hcoe : (d.coefficientAt scale : ℚ) = d.coefficient * 10 ^ (scale - d.scale).toNat := by
    unfold coefficientAt powerOfTen
    rw [Nat.pow_eq]
    push_cast
    rfl
  rw [hcoe, hpow, value, mul_comm ((10 : ℚ) ^ (scale - d.scale).toNat), mul_div_mul_right _ _ hne]

/-- Two decimals are the same if and only if they stand for the same number. -/
theorem same_iff {a b : Decimal} : same a b = true ↔ a.value = b.value := by
  have hne : (10 : ℚ) ^ (max a.scale b.scale) ≠ 0 := zpow_ne_zero _ (by norm_num)
  unfold same compare
  rw [beq_iff_eq, compare_eq_iff_eq, ← a.coefficientAt_div (le_max_left a.scale b.scale),
    ← b.coefficientAt_div (le_max_right a.scale b.scale), div_left_inj' hne, Int.cast_inj]

end Decimal

/-! ### The parts of a decimal's text -/

namespace Numeral

/-- The digits before the point. -/
def whole (d : Decimal) : List Char :=
  let digits := (split d.coefficient.natAbs d.scale).1
  if digits.all (· == '0') then ['0'] else digits

/-- The digits after the point. -/
def fraction (d : Decimal) : List Char :=
  let digits := (split d.coefficient.natAbs d.scale).2
  if digits.isEmpty then ['0'] else digits

theorem ofDecimal_eq (d : Decimal) :
    ofDecimal d = sign d.coefficient ++ whole d ++ '.' :: fraction d := rfl

theorem eq_trimZeros_append (ds : List Char) :
    ∃ k, ds = trimZeros ds ++ List.replicate k '0' := by
  have hsplit : ds.reverse = ds.reverse.takeWhile (· == '0') ++ ds.reverse.dropWhile (· == '0') :=
    List.takeWhile_append_dropWhile.symm
  have hzeros : ds.reverse.takeWhile (· == '0') =
      List.replicate (ds.reverse.takeWhile (· == '0')).length '0' := by
    refine List.eq_replicate_iff.mpr ⟨rfl, fun c hc => ?_⟩
    simpa using List.all_eq_true.mp List.all_takeWhile c hc
  refine ⟨(ds.reverse.takeWhile (· == '0')).length, ?_⟩
  have := congrArg List.reverse hsplit
  rw [List.reverse_reverse, List.reverse_append, hzeros, List.reverse_replicate] at this
  exact this

/-- For a scale above zero the two parts are the digits, led by as many zeros as are needed, less
the zeros at the end. -/
theorem split_of_pos (n : Nat) {scale : Int} (h : 0 < scale) :
    ∃ j k, (split n scale).1 ++ (split n scale).2 ++ List.replicate k '0' =
        List.replicate j '0' ++ Digits.ofNat n ∧
      (split n scale).2.length + k = scale.toNat ∧ (split n scale).1 ≠ [] := by
  have hscale : ¬ scale ≤ 0 := by omega
  unfold split
  simp only [hscale, if_false]
  generalize hj : scale.toNat + 1 - (Digits.ofNat n).length = j
  generalize hp : List.replicate j '0' ++ Digits.ofNat n = padded
  have hlen : scale.toNat + 1 ≤ padded.length := by
    rw [← hp, List.length_append, List.length_replicate]
    omega
  obtain ⟨k, hk⟩ := eq_trimZeros_append (padded.drop (padded.length - scale.toNat))
  refine ⟨j, k, ?_, ?_, ?_⟩
  · rw [List.append_assoc, ← hk, List.take_append_drop, hp]
  · have := congrArg List.length hk
    rw [List.length_drop, List.length_append, List.length_replicate] at this
    omega
  · intro hnil
    have := congrArg List.length hnil
    rw [List.length_take, List.length_nil] at this
    omega

theorem isDigit_of_mem_replicate {k : Nat} {c : Char} (h : c ∈ List.replicate k '0') :
    c.isDigit = true := by
  rw [List.eq_of_mem_replicate h]
  decide

/-- The parts are made of digits, and the first one is not empty. -/
theorem split_digits (n : Nat) (scale : Int) :
    (∀ c ∈ (split n scale).1 ++ (split n scale).2, c.isDigit = true) ∧ (split n scale).1 ≠ [] := by
  rcases le_or_gt scale 0 with h | h
  · simp only [split, h, if_true, List.append_nil]
    refine ⟨fun c hc => ?_, by simp [(Digits.proper_ofNat n).ne_nil]⟩
    rcases List.mem_append.mp hc with hc | hc
    · exact (Digits.proper_ofNat n).isDigit c hc
    · exact isDigit_of_mem_replicate hc
  · obtain ⟨j, k, heq, _, hne⟩ := split_of_pos n h
    refine ⟨fun c hc => ?_, hne⟩
    have hc' : c ∈ List.replicate j '0' ++ Digits.ofNat n := heq ▸ List.mem_append_left _ hc
    rcases List.mem_append.mp hc' with hc' | hc'
    · exact isDigit_of_mem_replicate hc'
    · exact (Digits.proper_ofNat n).isDigit c hc'

/-- There are no more places after the point than the scale says. -/
theorem split_length_le (n : Nat) (scale : Int) :
    ((split n scale).2.length : Int) ≤ max 0 scale := by
  rcases le_or_gt scale 0 with h | h
  · simp [split, h]
  · obtain ⟨j, k, _, hlen, _⟩ := split_of_pos n h
    omega

/-- The parts together stand for the coefficient, shifted by the scale. -/
theorem split_value (n : Nat) (scale : Int) :
    (Digits.toNat ((split n scale).1 ++ (split n scale).2) : ℚ) / 10 ^ (split n scale).2.length =
      n / 10 ^ scale := by
  rcases le_or_gt scale 0 with h | h
  · obtain ⟨k, rfl⟩ : ∃ k : Nat, scale = -k := ⟨(-scale).toNat, by omega⟩
    simp only [split, h, if_true]
    rw [List.append_nil, Digits.toNat_append, Digits.toNat_ofNat, Digits.toNat_replicate_zero]
    simp
  · obtain ⟨j, k, heq, hlen, _⟩ := split_of_pos n h
    have hn := congrArg Digits.toNat heq
    rw [Digits.toNat_append, Digits.toNat_append (List.replicate j '0'), Digits.toNat_ofNat,
      Digits.toNat_replicate_zero, Digits.toNat_replicate_zero, List.length_replicate, Nat.zero_mul,
      Nat.zero_add, Nat.add_zero] at hn
    have hscale : (10 : ℚ) ^ scale = 10 ^ (split n scale).2.length * 10 ^ k := by
      rw [← pow_add, hlen, ← zpow_natCast]
      congr 1
      omega
    have hk : (10 : ℚ) ^ k ≠ 0 := by positivity
    rw [hscale, ← mul_div_mul_right _ _ hk]
    congr 1
    exact_mod_cast hn

theorem proper_whole (d : Decimal) : Digits.Proper (whole d) := by
  unfold whole
  simp only
  split
  · exact Digits.proper_zero
  · obtain ⟨hds, hne⟩ := split_digits d.coefficient.natAbs d.scale
    exact ⟨hne, fun c hc => hds c (List.mem_append_left _ hc)⟩

theorem proper_fraction (d : Decimal) : Digits.Proper (fraction d) := by
  unfold fraction
  simp only
  split
  · exact Digits.proper_zero
  · next h =>
    obtain ⟨hds, _⟩ := split_digits d.coefficient.natAbs d.scale
    exact ⟨by simpa using h, fun c hc => hds c (List.mem_append_right _ hc)⟩

theorem length_fraction_le (d : Decimal) : ((fraction d).length : Int) ≤ max 1 d.scale := by
  have := split_length_le d.coefficient.natAbs d.scale
  unfold fraction
  simp only
  split
  · simp
  · omega

theorem toNat_whole (d : Decimal) :
    Digits.toNat (whole d) = Digits.toNat (split d.coefficient.natAbs d.scale).1 := by
  unfold whole
  simp only
  split
  · next h =>
    have hzeros : ∀ c ∈ (split d.coefficient.natAbs d.scale).1, c = '0' := by simpa using h
    rw [List.eq_replicate_iff.mpr ⟨rfl, hzeros⟩, Digits.toNat_replicate_zero]
    exact Digits.toNat_replicate_zero 1
  · rfl

/-- The digits of the text, without the point, stand for the magnitude of the decimal. -/
theorem value_parts (d : Decimal) :
    (Digits.toNat (whole d ++ fraction d) : ℚ) / 10 ^ (fraction d).length =
      d.coefficient.natAbs / 10 ^ d.scale := by
  rw [← split_value, Digits.toNat_append, Digits.toNat_append, toNat_whole]
  unfold fraction
  simp only
  split
  · next h =>
    rw [List.isEmpty_iff.mp h]
    have hzero : Digits.toNat ['0'] = 0 := Digits.toNat_replicate_zero 1
    have hnil : Digits.toNat [] = 0 := Digits.toNat_replicate_zero 0
    rw [hzero, hnil]
    simp
  · rfl

/-! ### Reading the text back -/

theorem toNat?_eq {ds : List Char} (h : Digits.Proper ds) : toNat? ds = some (Digits.toNat ds) := by
  have hhead : ds.head? ≠ some '_' := by
    intro hd
    have := h.isDigit '_' (List.mem_of_mem_head? hd)
    revert this
    decide
  have hall : (ds.all fun c => c.isDigit || c == '_') = true := by
    rw [List.all_eq_true]
    intro c hc
    rw [h.isDigit c hc, Bool.true_or]
  have hfilter : ds.filter Char.isDigit = ds := List.filter_eq_self.mpr h.isDigit
  unfold toNat?
  simp [h.ne_nil, hhead, hall, hfilter]

theorem toInt?_eq {ds : List Char} (h : Digits.Proper ds) (n : Int) :
    toInt? (sign n ++ ds) = some (if n < 0 then -(Digits.toNat ds : Int) else Digits.toNat ds) := by
  unfold sign
  split
  · simp [toInt?, toNat?_eq h]
  · rw [List.nil_append]
    unfold toInt?
    split
    · exact absurd (h.isDigit '-' List.mem_cons_self) (by decide)
    · exact absurd (h.isDigit '+' List.mem_cons_self) (by decide)
    · rw [toNat?_eq h]
      rfl

/-- The text of an integer is read as that integer. -/
theorem toInt?_ofInt (n : Int) : toInt? (ofInt n) = some n := by
  unfold ofInt
  rw [toInt?_eq (Digits.proper_ofNat _), Digits.toNat_ofNat]
  congr 1
  split <;> omega

theorem ne_of_mem_sign {n : Int} {c x : Char} (hc : c ∈ sign n) (hx : x ≠ '-') : c ≠ x := by
  unfold sign at hc
  split at hc
  · rw [List.mem_singleton.mp hc]
    exact hx.symm
  · cases hc

/-- Digits around a point are read as the number that all of them stand for, with as many places as
there are digits after the point. -/
theorem toDecimal?_eq {w f : List Char} (hw : Digits.Proper w) (hf : Digits.Proper f)
    (hfits : Word.fitsSigned 64 f.length = true) (n : Int) :
    toDecimal? (sign n ++ w ++ '.' :: f) =
      some ⟨if n < 0 then -(Digits.toNat (w ++ f) : Int) else Digits.toNat (w ++ f), f.length⟩ := by
  have hsw : ∀ {x : Char}, x ≠ '-' → x.isDigit = false → ∀ c ∈ sign n ++ w, c ≠ x := by
    intro x hx hxd c hc
    rcases List.mem_append.mp hc with hc | hc
    · exact ne_of_mem_sign hc hx
    · exact hw.ne hc hxd
  have hmark : ∀ c ∈ sign n ++ w ++ '.' :: f, (!(c == 'e' || c == 'E')) = true := by
    intro c hc
    simp only [Bool.not_eq_true', Bool.or_eq_false_iff, beq_eq_false_iff_ne]
    rcases List.mem_append.mp hc with hc | hc
    · exact ⟨hsw (by decide) (by decide) c hc, hsw (by decide) (by decide) c hc⟩
    · rcases List.mem_cons.mp hc with rfl | hc
      · decide
      · exact ⟨hf.ne hc (by decide), hf.ne hc (by decide)⟩
  have hpoint : ∀ c ∈ sign n ++ w, (c != '.') = true := fun c hc =>
    bne_iff_ne.mpr (hsw (by decide) (by decide) c hc)
  have hdrop : dropPoint (sign n ++ w ++ '.' :: f) = (sign n ++ (w ++ f), f.length) := by
    unfold dropPoint
    simp only [List.takeWhile_append_of_pos hpoint, List.dropWhile_append_of_pos hpoint]
    have hplaces : f.filter (· != '_') = f :=
      List.filter_eq_self.mpr fun c hc => bne_iff_ne.mpr (hf.ne hc (by decide))
    simp [hplaces]
  unfold toDecimal?
  simp only [List.takeWhile_eq_self_iff.mpr hmark, List.dropWhile_eq_nil_iff.mpr hmark, hdrop]
  simp [hfits, toInt?_eq (hw.append hf)]

theorem fits_of_toDecimal? {cs : List Char} {d : Decimal} (h : toDecimal? cs = some d) :
    Word.fitsSigned 64 d.scale = true := by
  unfold toDecimal? at h
  simp only at h
  split at h
  · cases h
  · split at h
    · cases h
    · split at h
      · obtain ⟨n, -, rfl⟩ := Option.map_eq_some_iff.mp h
        assumption
      · cases h

/-- The decimal that the text of a decimal is read as. -/
def reread (d : Decimal) : Decimal :=
  ⟨if d.coefficient < 0 then -(Digits.toNat (whole d ++ fraction d) : Int)
    else Digits.toNat (whole d ++ fraction d), (fraction d).length⟩

theorem toDecimal?_ofDecimal {d : Decimal} (h : Word.fitsSigned 64 d.scale = true) :
    toDecimal? (ofDecimal d) = some (reread d) := by
  have hlen := length_fraction_le d
  have hfits : Word.fitsSigned 64 (fraction d).length = true := by
    unfold Word.fitsSigned at h ⊢
    simp only [Bool.and_eq_true, decide_eq_true_eq] at h ⊢
    have : (2 : Nat).pow (64 - 1) = 9223372036854775808 := by decide
    omega
  exact toDecimal?_eq (proper_whole d) (proper_fraction d) hfits d.coefficient

/-- Printing and reading keeps the value. -/
theorem same_reread (d : Decimal) : d.same (reread d) = true := by
  rw [Decimal.same_iff]
  have hparts := value_parts d
  unfold Decimal.value reread
  simp only [zpow_natCast]
  split
  · next h =>
    have habs : (d.coefficient : ℚ) = (-(d.coefficient.natAbs : Int) : Int) := by
      congr 1
      omega
    push_cast at habs ⊢
    rw [neg_div, hparts, habs, neg_div]
    simp
  · next h =>
    have habs : (d.coefficient : ℚ) = ((d.coefficient.natAbs : Int) : Int) := by
      congr 1
      omega
    rw [Int.cast_natCast] at habs ⊢
    rw [hparts, habs]

end Numeral

end DispatchLisp
