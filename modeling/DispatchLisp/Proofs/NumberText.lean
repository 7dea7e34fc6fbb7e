import DispatchLisp.Proofs.Natives
import DispatchLisp.Proofs.RoundTrip

/-! # The texts of numbers

A number has one text.  One more place after the point and one more zero at the end of the
coefficient change nothing (`Numeral.split_mul_ten`), so decimals that are the same number have the
same text, and the text tells what number it is (`Numeral.ofDecimal_eq_iff`).

The text is read back in two ways: as the only token of a source text, and by the functions `->real`
and `->int`, which drop blanks at its ends first. -/

namespace DispatchLisp

/-! ### One text for a number -/

theorem Digits.ofNat_mul_ten {n : Nat} (h : 0 < n) : ofNat (n * 10) = ofNat n ++ ['0'] := by
  have hdigit : Nat.digitChar (n * 10 % 10) = '0' := by rw [Nat.mul_mod_left]; rfl
  rw [ofNat_eq, ofNat_eq, Nat.toDigits_of_base_le (by decide) (by omega), hdigit,
    Nat.mul_div_cancel _ (by decide)]

namespace Numeral

theorem trimZeros_append_zero (ds : List Char) : trimZeros (ds ++ ['0']) = trimZeros ds := by
  simp [trimZeros]

/-- One more place and one more zero make no difference to the two parts. -/
theorem split_mul_ten {n : Nat} (h : 0 < n) (scale : Int) :
    split (n * 10) (scale + 1) = split n scale := by
  have hlength : 0 < (Digits.ofNat n).length :=
    List.length_pos_of_ne_nil (Digits.proper_ofNat n).ne_nil
  unfold split
  rw [Digits.ofNat_mul_ten h]
  rcases lt_trichotomy scale 0 with hneg | rfl | hpos
  · obtain ⟨k, rfl⟩ : ∃ k : Nat, scale = -(k + 1 : Nat) := ⟨(-scale).toNat - 1, by omega⟩
    have hk : (-(-(k + 1 : Nat) + 1 : Int)).toNat = k := by omega
    have hk' : (-(-(k + 1 : Nat) : Int)).toNat = k + 1 := by omega
    rw [if_pos (by omega), if_pos (by omega), hk, hk', List.replicate_succ, List.append_assoc,
      List.singleton_append]
  · have hpad : 1 + 1 - (Digits.ofNat n ++ ['0']).length = 0 := by
      rw [List.length_append, List.length_singleton]
      omega
    simp only [if_neg (show ¬ (0 : Int) + 1 ≤ 0 by decide), if_pos (show (0 : Int) ≤ 0 by decide),
      show ((0 : Int) + 1).toNat = 1 from rfl, hpad, List.replicate_zero, List.nil_append]
    simp [trimZeros]
  · obtain ⟨k, rfl⟩ : ∃ k : Nat, scale = k := ⟨scale.toNat, by omega⟩
    have hplaces : ((k : Int) + 1).toNat = k + 1 := by omega
    have hpad : k + 1 + 1 - (Digits.ofNat n ++ ['0']).length = k + 1 - (Digits.ofNat n).length := by
      rw [List.length_append, List.length_singleton]
      omega
    simp only [if_neg (show ¬ (k : Int) + 1 ≤ 0 by omega), if_neg (show ¬ (k : Int) ≤ 0 by omega),
      hplaces, Int.toNat_natCast, hpad]
    rw [← List.append_assoc]
    generalize hpadded : List.replicate (k + 1 - (Digits.ofNat n).length) '0' ++ Digits.ofNat n =
      padded
    have hlength' : (padded ++ ['0']).length - (k + 1) = padded.length - k := by simp
    have hle : padded.length - k ≤ padded.length := Nat.sub_le _ _
    rw [hlength', List.take_append_of_le_length hle, List.drop_append_of_le_length hle,
      trimZeros_append_zero]

theorem split_zero (scale : Int) : ∃ k, split 0 scale = (List.replicate k '0', []) := by
  have hdigits : Digits.ofNat 0 = List.replicate 1 '0' := rfl
  unfold split
  rw [hdigits]
  split
  · exact ⟨1 + (-scale).toNat, by simp only [List.replicate_append_replicate]⟩
  · simp only [List.replicate_append_replicate, List.take_replicate, List.drop_replicate]
    exact ⟨_, Prod.ext rfl (by simp [trimZeros])⟩

/-- The text of zero does not depend on its places. -/
theorem ofDecimal_zero (scale : Int) : ofDecimal ⟨0, scale⟩ = ['0', '.', '0'] := by
  obtain ⟨k, hk⟩ := split_zero scale
  simp [ofDecimal, sign, hk]

theorem ofDecimal_mul_ten (c scale : Int) :
    ofDecimal ⟨c * 10, scale + 1⟩ = ofDecimal ⟨c, scale⟩ := by
  by_cases hc : c = 0
  · rw [hc, Int.zero_mul, ofDecimal_zero, ofDecimal_zero]
  · have hneg : c * 10 < 0 ↔ c < 0 := by omega
    have hsign : sign (c * 10) = sign c := by simp only [sign, hneg]
    have habs : (c * 10).natAbs = c.natAbs * 10 := by rw [Int.natAbs_mul]; rfl
    simp only [ofDecimal, hsign, habs, split_mul_ten (Int.natAbs_pos.mpr hc)]

theorem ofDecimal_rescale (d : Decimal) {scale : Int} (h : d.scale ≤ scale) :
    ofDecimal (d.rescale scale) = ofDecimal d := by
  obtain ⟨k, rfl⟩ : ∃ k : Nat, scale = d.scale + k := ⟨(scale - d.scale).toNat, by omega⟩
  have hk : (d.scale + k - d.scale).toNat = k := by omega
  rw [Decimal.rescale, Decimal.coefficientAt, hk]
  clear h hk
  induction k with
  | zero => simp [Decimal.powerOfTen]
  | succ k ih =>
      have hpower : (Decimal.powerOfTen (k + 1) : Int) = Decimal.powerOfTen k * 10 := rfl
      rw [hpower, ← Int.mul_assoc, Int.natCast_add, Int.natCast_one, ← Int.add_assoc,
        ofDecimal_mul_ten, ih]

/-! ### The number that a text stands for -/

theorem rescale_of_value_eq {a b : Decimal} (hle : a.scale ≤ b.scale) (h : a.value = b.value) :
    a.rescale b.scale = b := by
  have hcoefficient := (Decimal.same_iff_of_le hle).mp (Decimal.same_iff.mpr h)
  rw [Decimal.rescale, Decimal.coefficientAt, hcoefficient]

/-- The sign can be told from the digits. -/
theorem sign_append_inj {m n : Int} {w w' : List Char} (hw : Digits.Proper w)
    (hw' : Digits.Proper w') (h : sign m ++ w = sign n ++ w') : (m < 0 ↔ n < 0) ∧ w = w' := by
  have hminus {ds : List Char} (hds : Digits.Proper ds) : '-' ∉ ds := by
    intro hmem
    exact hds.ne hmem (by decide) rfl
  unfold sign at h
  split at h <;> split at h
  case isTrue.isTrue hm hn => exact ⟨iff_of_true hm hn, List.append_cancel_left h⟩
  case isTrue.isFalse =>
    rw [List.nil_append] at h
    exact absurd (h ▸ List.mem_cons_self) (hminus hw')
  case isFalse.isTrue =>
    rw [List.nil_append] at h
    exact absurd (h ▸ List.mem_cons_self) (hminus hw)
  case isFalse.isFalse hm hn => exact ⟨iff_of_false hm hn, h⟩

/-- A text has one sign, one whole part and one fraction. -/
theorem parts_of_ofDecimal_eq {a b : Decimal} (h : ofDecimal a = ofDecimal b) :
    (a.coefficient < 0 ↔ b.coefficient < 0) ∧ whole a = whole b ∧ fraction a = fraction b := by
  have hpoint (d : Decimal) : ∀ c ∈ sign d.coefficient ++ whole d, (c != '.') = true := by
    intro c hc
    rcases List.mem_append.mp hc with hc | hc
    · exact bne_iff_ne.mpr (ne_of_mem_sign hc (by decide))
    · exact bne_iff_ne.mpr ((proper_whole d).ne hc (by decide))
  have hbefore (d : Decimal) :
      (ofDecimal d).takeWhile (· != '.') = sign d.coefficient ++ whole d := by
    rw [ofDecimal_eq, List.takeWhile_append_of_pos (hpoint d)]
    exact List.append_nil _
  have hafter (d : Decimal) : (ofDecimal d).dropWhile (· != '.') = '.' :: fraction d := by
    rw [ofDecimal_eq, List.dropWhile_append_of_pos (hpoint d)]
    rfl
  have hleft : sign a.coefficient ++ whole a = sign b.coefficient ++ whole b := by
    rw [← hbefore, ← hbefore, h]
  have hright : '.' :: fraction a = '.' :: fraction b := by rw [← hafter, ← hafter, h]
  obtain ⟨hsign, hwhole⟩ := sign_append_inj (proper_whole a) (proper_whole b) hleft
  exact ⟨hsign, hwhole, (List.cons.inj hright).2⟩

/-- **Two decimals have the same text if and only if they are the same number.** -/
theorem ofDecimal_eq_iff {a b : Decimal} : ofDecimal a = ofDecimal b ↔ a.value = b.value := by
  constructor
  · intro h
    obtain ⟨hsign, hwhole, hfraction⟩ := parts_of_ofDecimal_eq h
    have hreread : reread a = reread b := by simp only [reread, hsign, hwhole, hfraction]
    rw [Decimal.same_iff.mp (same_reread a), Decimal.same_iff.mp (same_reread b), hreread]
  · intro h
    rcases Int.le_total a.scale b.scale with hle | hle
    · rw [← rescale_of_value_eq hle h, ofDecimal_rescale a hle]
    · rw [← rescale_of_value_eq hle h.symm, ofDecimal_rescale b hle]

end Numeral

/-! ### Blanks -/

namespace Text

theorem trimBlank_eq_self {cs : List Char} (h : ∀ c ∈ cs, isBlank c = false) :
    trimBlank cs = cs := by
  have hkeep {ds : List Char} (hds : ∀ c ∈ ds, isBlank c = false) : ds.dropWhile isBlank = ds := by
    cases ds with
    | nil => rfl
    | cons d ds => simp [hds d List.mem_cons_self]
  have hreverse : ∀ c ∈ cs.reverse, isBlank c = false := fun c hc => h c (List.mem_reverse.mp hc)
  rw [trimBlank, hkeep h, hkeep hreverse, List.reverse_reverse]

theorem isBlank_of_isDigit {c : Char} (h : c.isDigit = true) : isBlank c = false := by
  have hrange : 48 ≤ c.toNat ∧ c.toNat ≤ 57 := by
    simpa [Char.isDigit, UInt32.le_iff_toNat_le] using h
  simp only [isBlank, Bool.or_eq_false_iff, Bool.and_eq_false_iff, decide_eq_false_iff_not,
    beq_eq_false_iff_ne]
  omega

end Text

namespace Numeral

theorem isBlank_of_mem_sign {n : Int} {c : Char} (h : c ∈ sign n) : Text.isBlank c = false := by
  unfold sign at h
  split at h
  · rw [List.mem_singleton.mp h]
    decide
  · cases h

theorem trimBlank_ofInt (n : Int) : Text.trimBlank (ofInt n) = ofInt n := by
  refine Text.trimBlank_eq_self fun c hc => ?_
  rcases List.mem_append.mp hc with hc | hc
  · exact isBlank_of_mem_sign hc
  · exact Text.isBlank_of_isDigit ((Digits.proper_ofNat _).isDigit c hc)

theorem trimBlank_ofDecimal (d : Decimal) : Text.trimBlank (ofDecimal d) = ofDecimal d := by
  refine Text.trimBlank_eq_self fun c hc => ?_
  rw [ofDecimal_eq, List.mem_append, List.mem_append, List.mem_cons] at hc
  rcases hc with (hc | hc) | rfl | hc
  · exact isBlank_of_mem_sign hc
  · exact Text.isBlank_of_isDigit ((proper_whole d).isDigit c hc)
  · decide
  · exact Text.isBlank_of_isDigit ((proper_fraction d).isDigit c hc)

end Numeral

/-! ### Reading the text -/

/-- A text that is one lexeme is scanned as one token. -/
theorem Token.scan_of_lexeme {c : Char} {cs : List Char} {t : Token}
    (h : lexeme c (cs ++ []) = .ok (some t, cs.length)) :
    scan (String.ofList (c :: cs)) = .ok [⟨t, .start⟩] := by
  rw [scan, String.toList_ofList, ← List.append_nil cs, scanFrom, h]
  simp only [scanFrom_skip]
  rfl

theorem Token.scan_ofInt (n : Int) :
    scan (String.ofList (Numeral.ofInt n)) = .ok [⟨.atom (.int n), .start⟩] := by
  obtain ⟨c, cs, htext, hlexeme⟩ := lexeme_int n ended_nil
  rw [htext]
  exact scan_of_lexeme hlexeme

theorem Token.scan_ofDecimal {d : Decimal} (h : Word.fitsSigned 64 d.scale = true) :
    scan (String.ofList (Numeral.ofDecimal d)) =
      .ok [⟨.atom (.real (Numeral.reread d)), .start⟩] := by
  obtain ⟨c, cs, htext, hlexeme⟩ := lexeme_real h ended_nil
  rw [htext]
  exact scan_of_lexeme hlexeme

namespace World

variable (limit : Nat)

theorem gives_toText {v : Value} {text : String} (h : ∀ heap : Heap, heap.display v = text) :
    (new limit).Gives "->string" [v] (.str text) := by
  refine gives_of_selected limit (e := Prelude.fixed "->string" [.any] Prelude.toText) rfl ?_
    fun heap => ?_
  · cases v <;> rfl
  · rw [Prelude.toText, HeapM.reads, h]

theorem gives_toInt (n : Int) :
    (new limit).Gives "->int" [.str (String.ofList (Numeral.ofInt n))] (.int n) := by
  refine gives_of_selected limit (e := Prelude.fixed "->int" [.str] Prelude.toInt) rfl rfl
    fun h => ?_
  rw [Prelude.toInt, String.toList_ofList, Numeral.trimBlank_ofInt, Numeral.toInt?_ofInt]
  rfl

theorem gives_toReal {d : Decimal} (hd : Word.fitsSigned 64 d.scale = true) :
    (new limit).Gives "->real" [.str (String.ofList (Numeral.ofDecimal d))]
      (.real (Numeral.reread d)) := by
  refine gives_of_selected limit (e := Prelude.fixed "->real" [.str] Prelude.toReal) rfl rfl
    fun h => ?_
  rw [Prelude.toReal, String.toList_ofList, Numeral.trimBlank_ofDecimal,
    Numeral.toDecimal?_ofDecimal hd]
  rfl

theorem gives_equal_real (a b : Decimal) :
    (new limit).Gives "=" [.real a, .real b] (.bool (Decimal.equal a b)) :=
  gives_of_selected limit (e := Prelude.fixed "=" [.any, .any] Prelude.equal) rfl rfl fun _ => rfl

/-- **The text of a number is canonical and faithful.**  Decimals have the same text if and only if
they are the same number.  The text of a decimal is scanned as one token, a real of the same value,
and the functions `->string` and `->real` one after the other give this real.  It need not have the
digits that the decimal has: the equality of the language finds the two equal if and only if the
comparison word by word does, and it does so if the text has lost nine places at most.  The text of
an integer is scanned as one token, this integer, which `->string` and `->int` give as well. -/
theorem number_text_canonical :
    (∀ d d' : Decimal, Numeral.ofDecimal d = Numeral.ofDecimal d' ↔ d.value = d'.value) ∧
    (∀ d : Decimal, Word.fitsSigned 64 d.scale = true →
      let text := String.ofList (Numeral.ofDecimal d)
      ∃ d' : Decimal, d'.value = d.value ∧
        Token.scan text = .ok [⟨.atom (.real d'), .start⟩] ∧
        (new limit).Gives "->string" [.real d] (.str text) ∧
        (new limit).Gives "->real" [.str text] (.real d') ∧
        (new limit).Gives "=" [.real d', .real d] (.bool (Decimal.equal d' d)) ∧
        ((d'.scale - d.scale).natAbs ≤ 9 → Decimal.equal d' d = true)) ∧
    ∀ n : Int,
      let text := String.ofList (Numeral.ofInt n)
      Token.scan text = .ok [⟨.atom (.int n), .start⟩] ∧
        (new limit).Gives "->string" [.int n] (.str text) ∧
        (new limit).Gives "->int" [.str text] (.int n) := by
  refine ⟨fun d d' => Numeral.ofDecimal_eq_iff, fun d hd => ?_, fun n => ?_⟩
  · have hsame : Decimal.same (Numeral.reread d) d = true := by
      rw [Decimal.same_comm]
      exact Numeral.same_reread d
    refine ⟨Numeral.reread d, Decimal.same_iff.mp hsame, Token.scan_ofDecimal hd,
      gives_toText limit fun _ => rfl, gives_toReal limit hd, gives_equal_real limit _ _,
      fun hnear => ?_⟩
    rw [Decimal.equal_eq_same hnear, hsame]
  · exact ⟨Token.scan_ofInt n, gives_toText limit fun _ => rfl, gives_toInt limit n⟩

/-- The number `-0.1500` is read back with two places, and is found equal. -/
theorem number_text_canonical_small_fraction :
    let d : Decimal := ⟨-1500, 4⟩
    Word.fitsSigned 64 d.scale = true ∧ Numeral.ofDecimal d = "-0.15".toList ∧
      Numeral.ofDecimal d = Numeral.ofDecimal ⟨-15, 2⟩ ∧
      ∃ d' : Decimal, d'.value = d.value ∧ d' ≠ d ∧
        Token.scan "-0.15" = .ok [⟨.atom (.real d'), .start⟩] ∧
        (new 10).Gives "->string" [.real d] (.str "-0.15") ∧
        (new 10).Gives "->real" [.str "-0.15"] (.real d') ∧
        (new 10).Gives "=" [.real d', .real d] (.bool true) ∧
        Token.scan "-12" = .ok [⟨.atom (.int (-12)), .start⟩] ∧
        (new 10).Gives "->int" [.str "-12"] (.int (-12)) := by
  intro d
  have hd : Word.fitsSigned 64 d.scale = true := by decide
  have htext : Numeral.ofDecimal d = "-0.15".toList := by decide +kernel
  obtain ⟨hcanonical, hreals, hints⟩ := number_text_canonical 10
  obtain ⟨d', hvalue, hscan, hstring, hreal, hequal, hnear⟩ := hreals d hd
  obtain ⟨hscanInt, -, hint⟩ := hints (-12)
  have hd' : d' = ⟨-15, 2⟩ := by
    have hsame : Token.scan (String.ofList (Numeral.ofDecimal d)) =
        .ok [⟨.atom (.real ⟨-15, 2⟩), .start⟩] := by decide +kernel
    simpa using hscan.symm.trans hsame
  subst hd'
  rw [hnear (by decide)] at hequal
  rw [htext] at hscan hstring hreal
  exact ⟨hd, htext, (hcanonical _ _).mpr hvalue.symm, _, hvalue, by decide, hscan, hstring, hreal,
    hequal, hscanInt, hint⟩

/-- A real with ten zeros at its end is not found equal to the real that its text is read as,
although the two are the same number. -/
theorem toReal_toText_not_equal :
    let d : Decimal := ⟨-79228162515106496340000000000, 19⟩
    let d' : Decimal := ⟨-7922816251510649634, 9⟩
    let session := ((new 10).newSession true).1
    let w := ((new 10).newSession true).2
    Word.fitsSigned 64 d.scale = true ∧ d'.value = d.value ∧
      (new 10).Gives "->string" [.real d] (.str "-7922816251.510649634") ∧
      (new 10).Gives "->real" [.str "-7922816251.510649634"] (.real d') ∧
      (new 10).Gives "=" [.real d', .real d] (.bool false) ∧
      (w.evalText 100 session
        "(def b -7922816251.5106496340000000000) (= (->real (->string b)) b)").map Prod.fst =
        some (.ok (.bool false)) := by
  intro d d' session w
  have hd : Word.fitsSigned 64 d.scale = true := by decide
  have htext : String.ofList (Numeral.ofDecimal d) = "-7922816251.510649634" := by decide +kernel
  have hreread : Numeral.reread d = d' := by decide +kernel
  have hequal : Decimal.equal d' d = false := by decide +kernel
  refine ⟨hd, Decimal.same_iff.mp (by decide +kernel), gives_toText 10 fun _ => htext,
    htext ▸ hreread ▸ gives_toReal 10 hd, hequal ▸ gives_equal_real 10 d' d, ?_⟩
  decide +kernel

end World

end DispatchLisp
