import DispatchLisp.Proofs.Lexeme

/-! # The places of tokens

The scanner keeps the line and the column for each sort of lexeme in its own manner
(`Token.placeAfter`).  This comes to one rule: every character moves the place on, to the next column
or, if it is a line break, to the next line (`Position.next`).  A scan that does just that
(`Token.walkFrom`) gives the same tokens and the same faults (`Token.scan_eq_walkFrom`), and it is
the one to reason about.

No lexeme goes on over a line break, unless it is a string or a comment, and these are complete where
the text is (`Token.lexeme_line`).  So only a string has to look for line breaks. -/

namespace DispatchLisp

namespace Token

/-! ### Lexemes before a line break -/

section

variable {p : Char → Bool} (hp : p '\n' = false) (cs rest : List Char)

include hp

theorem takeWhile_line : (cs ++ '\n' :: rest).takeWhile p = cs.takeWhile p := by
  induction cs with
  | nil => simp [hp]
  | cons c cs ih => simp only [List.cons_append, List.takeWhile_cons, ih]

theorem dropWhile_line : (cs ++ '\n' :: rest).dropWhile p = cs.dropWhile p ++ '\n' :: rest := by
  induction cs with
  | nil => simp [hp]
  | cons c cs ih =>
      simp only [List.cons_append, List.dropWhile_cons, ih]
      split <;> rfl

end

theorem length_takeWhile_le (p : Char → Bool) (cs : List Char) :
    (cs.takeWhile p).length ≤ cs.length := (List.takeWhile_sublist p).length_le

/-- A string is complete with its closing quote. -/
theorem stringBody_append {cs text : List Char} {n : Nat} (h : stringBody cs = .ok (text, n))
    (more : List Char) : stringBody (cs ++ more) = .ok (text, n) ∧ n ≤ cs.length := by
  fun_induction stringBody cs generalizing text n with
  | case1 => cases h
  | case2 rest =>
      cases h
      exact ⟨rfl, by simp⟩
  | case3 => cases h
  | case4 c rest plain hplain ih =>
      obtain ⟨⟨inner, k⟩, hinner, heq⟩ := eq_ok_of_map h
      cases heq
      obtain ⟨hmore, hk⟩ := ih hinner
      simp only [List.cons_append, stringBody, hplain, hmore, List.length_cons]
      exact ⟨rfl, by omega⟩
  | case5 c rest hquote hescape ih =>
      obtain ⟨⟨inner, k⟩, hinner, heq⟩ := eq_ok_of_map h
      cases heq
      obtain ⟨hmore, hk⟩ := ih hinner
      refine ⟨?_, by simp only [List.length_cons]; omega⟩
      rw [List.cons_append, stringBody_plain hquote (fun hc => ?_), hmore]
      · rfl
      · -- A backslash is not the last character of a string.
        cases rest with
        | nil => cases hinner
        | cons d rest => exact absurd rfl (hescape d rest hc)

theorem StartsHash.line {cs : List Char} {v : Value} {n : Nat} (h : StartsHash cs v n)
    (rest : List Char) : StartsHash (cs ++ '\n' :: rest) v n ∧ n ≤ cs.length := by
  cases h with
  | yes => exact ⟨.yes, by simp⟩
  | no => exact ⟨.no, by simp⟩
  | @byte cs digits hdigits hne hlt =>
      refine ⟨.byte ?_ hne hlt, ?_⟩
      · exact (takeWhile_line (by decide) cs rest).trans hdigits
      · have := length_takeWhile_le isHexDigit cs
        rw [hdigits] at this
        rw [List.length_cons]
        omega

theorem numberBody_line (cs rest : List Char) :
    numberBody (cs ++ '\n' :: rest) = numberBody cs := by
  have hdigit : Char.isDigit '\n' = false := by decide
  unfold numberBody
  rw [takeWhile_line hdigit, dropWhile_line hdigit]
  -- The line break can stand where a point or the digit after it is looked for.
  rcases cs.dropWhile Char.isDigit with _ | ⟨x, _ | ⟨d, more⟩⟩
  · rfl
  · by_cases hx : x = '.'
    · subst hx
      simp [hdigit]
    · simp [hx]
  · by_cases hx : x = '.'
    · subst hx
      simp only [List.cons_append, takeWhile_line hdigit]
    · simp [hx]

theorem length_numberBody_le (cs : List Char) : (numberBody cs).1.length ≤ cs.length := by
  have hall : (cs.takeWhile Char.isDigit).length + (cs.dropWhile Char.isDigit).length =
      cs.length := by
    rw [← List.length_append, List.takeWhile_append_dropWhile]
  unfold numberBody
  split
  case h_1 d more hdrop =>
    have hmore := length_takeWhile_le Char.isDigit more
    rw [hdrop, List.length_cons, List.length_cons] at hall
    split
    · simp only [List.length_append, List.length_cons]
      omega
    · simp only
      omega
  case h_2 =>
    simp only
    omega

/-- The number of characters that a number takes beyond the first. -/
def numberLength (first : Char) (rest : List Char) : Nat :=
  let signed := first == '-' || first == '+'
  let body := (numberBody (if signed then rest else first :: rest)).1
  if signed then body.length else body.length - 1

theorem numberLength_le (first : Char) (rest : List Char) :
    numberLength first rest ≤ rest.length := by
  unfold numberLength
  simp only
  split
  · exact length_numberBody_le rest
  · have := length_numberBody_le (first :: rest)
    rw [List.length_cons] at this
    omega

theorem numberLength_of_numberLexeme {c : Char} {cs : List Char} {v : Value} {n : Nat}
    (h : numberLexeme c cs = .ok (v, n)) : n = numberLength c cs := by
  unfold numberLexeme at h
  simp only at h
  repeat' split at h
  all_goals cases h
  all_goals simp_all [numberLength]

/-- After the last character of a number, a line break is as good as the end of the text. -/
theorem badNumber_line {α : Type} (bad : Char → α) (good : α) (cs rest : List Char) :
    (match cs ++ '\n' :: rest with
      | c :: _ => if isSymbolChar c && c != '.' then bad c else good
      | [] => good) =
    match cs with
    | c :: _ => if isSymbolChar c && c != '.' then bad c else good
    | [] => good := by
  have hsymbol : isSymbolChar '\n' = false := by decide
  cases cs with
  | nil => simp [hsymbol]
  | cons c cs => rfl

theorem numberLexeme_line (c : Char) (cs rest : List Char) :
    numberLexeme c (cs ++ '\n' :: rest) = numberLexeme c cs := by
  have hbody : numberBody (if c == '-' || c == '+' then cs ++ '\n' :: rest
        else c :: (cs ++ '\n' :: rest)) =
      numberBody (if c == '-' || c == '+' then cs else c :: cs) := by
    split
    · exact numberBody_line cs rest
    · exact numberBody_line (c :: cs) rest
  have hdrop : (cs ++ '\n' :: rest).drop (numberLength c cs) =
      cs.drop (numberLength c cs) ++ '\n' :: rest :=
    List.drop_append_of_le_length (numberLength_le c cs)
  unfold numberLength at hdrop
  unfold numberLexeme
  simp only [hbody] at hdrop ⊢
  rw [hdrop]
  exact badNumber_line _ _ _ rest

theorem startsNumber_line (c : Char) (cs rest : List Char) :
    startsNumber c (cs ++ '\n' :: rest) = startsNumber c cs := by
  have hdigit : Char.isDigit '\n' = false := by decide
  cases cs with
  | nil => simp [startsNumber, hdigit]
  | cons d cs => rfl

/-- **What stands at a place does not depend on what follows the line break**, if it is complete
there. -/
theorem lexeme_line {c : Char} {cs : List Char} {t : Option Token} {n : Nat}
    (h : lexeme c cs = .ok (t, n)) (rest : List Char) :
    lexeme c (cs ++ '\n' :: rest) = .ok (t, n) ∧ n ≤ cs.length := by
  cases starts_of_lexeme h with
  | blank hblank => exact ⟨(Starts.blank hblank).lexeme_eq, Nat.zero_le _⟩
  | comment =>
      refine ⟨?_, length_takeWhile_le _ cs⟩
      rw [← takeWhile_line (p := (· != '\n')) (by decide) cs rest]
      exact Starts.comment.lexeme_eq
  | opening => exact ⟨rfl, Nat.zero_le _⟩
  | closing => exact ⟨rfl, Nat.zero_le _⟩
  | quote => exact ⟨rfl, Nat.zero_le _⟩
  | string hbody =>
      obtain ⟨hmore, hn⟩ := stringBody_append hbody ('\n' :: rest)
      exact ⟨(Starts.string hmore).lexeme_eq, hn⟩
  | hash hhash =>
      obtain ⟨hmore, hn⟩ := hhash.line rest
      exact ⟨(Starts.hash hmore).lexeme_eq, hn⟩
  | number hstart hnumber =>
      refine ⟨(Starts.number ?_ ?_).lexeme_eq, ?_⟩
      · rw [startsNumber_line, hstart]
      · rw [numberLexeme_line, hnumber]
      · rw [numberLength_of_numberLexeme hnumber]
        exact numberLength_le c cs
  | symbol hstart hnumber =>
      refine ⟨?_, length_takeWhile_le _ cs⟩
      rw [← takeWhile_line (p := isSymbolChar) (by decide) cs rest]
      exact (Starts.symbol hstart (by rw [startsNumber_line, hnumber])).lexeme_eq

/-- Only a string goes on over a line break. -/
theorem Starts.le_length {c : Char} {cs rest : List Char} {t : Option Token} {n : Nat}
    (h : Starts c (cs ++ '\n' :: rest) t n) (hc : c ≠ '"') : n ≤ cs.length := by
  generalize hall : cs ++ '\n' :: rest = all at h
  cases h with
  | blank => exact Nat.zero_le _
  | comment =>
      rw [← hall, takeWhile_line (by decide)]
      exact length_takeWhile_le _ cs
  | opening => exact Nat.zero_le _
  | closing => exact Nat.zero_le _
  | quote => exact Nat.zero_le _
  | string => exact absurd rfl hc
  | hash hhash =>
      -- The first character after the hash sign is not the line break.
      cases cs with
      | nil =>
          subst hall
          cases hhash
      | cons x cs =>
          cases hhash with
          | yes => exact Nat.succ_pos _
          | no => exact Nat.succ_pos _
          | byte hdigits =>
              obtain ⟨rfl, rfl⟩ := List.cons.inj hall
              have hline := (takeWhile_line (by decide) cs rest).symm.trans hdigits
              have := length_takeWhile_le isHexDigit cs
              rw [hline] at this
              rw [List.length_cons]
              omega
  | number _ hnumber =>
      rw [← hall, numberLexeme_line] at hnumber
      rw [numberLength_of_numberLexeme hnumber]
      exact numberLength_le c cs
  | symbol =>
      rw [← hall, takeWhile_line (by decide)]
      exact length_takeWhile_le _ cs

theorem Starts.notMem_take {c : Char} {cs : List Char} {t : Option Token} {n : Nat}
    (h : Starts c cs t n) (hc : c ≠ '"') : '\n' ∉ cs.take n := by
  intro hmem
  obtain ⟨start, more, htake⟩ := List.append_of_mem hmem
  have hcs : cs = start ++ '\n' :: (more ++ cs.drop n) := by
    rw [← List.cons_append, ← List.append_assoc, ← htake, List.take_append_drop]
  rw [hcs] at h
  have hle := h.le_length hc
  have hlength : (cs.take n).length ≤ n := List.length_take_le n cs
  rw [htake, List.length_append, List.length_cons] at hlength
  omega

end Token

/-! ### The place after a lexeme -/

/-- The position of the character after `c`, which stands at the given position. -/
def Position.next (p : Position) (c : Char) : Position :=
  if c = '\n' then ⟨p.line + 1, 1⟩ else ⟨p.line, p.column + 1⟩

theorem Position.next_of_ne {c : Char} (h : c ≠ '\n') (p : Position) : p.next c = p.right 1 :=
  if_neg h

theorem Position.right_right (p : Position) (m n : Nat) :
    (p.right m).right n = p.right (m + n) := by
  simp only [right, Nat.add_assoc]

theorem Position.foldl_next_of_notMem {cs : List Char} (h : '\n' ∉ cs) (p : Position) :
    cs.foldl Position.next p = p.right cs.length := by
  induction cs generalizing p with
  | nil => rfl
  | cons c cs ih =>
      rw [List.mem_cons, not_or] at h
      rw [List.foldl_cons, ih h.2, next_of_ne (Ne.symm h.1), right_right, List.length_cons,
        Nat.add_comm]

namespace Token

/-- A string counts its lines and columns as they are. -/
theorem stringEnd_eq {cs text : List Char} {n : Nat} (h : stringBody cs = .ok (text, n))
    (place : Position) : stringEnd cs place = (cs.take n).foldl Position.next place := by
  fun_induction stringBody cs generalizing text n place with
  | case1 => cases h
  | case2 rest =>
      cases h
      rfl
  | case3 => cases h
  | case4 c rest plain hplain ih =>
      obtain ⟨⟨inner, k⟩, hinner, heq⟩ := eq_ok_of_map h
      cases heq
      have hc : c ≠ '\n' := by
        rintro rfl
        cases hplain
      rw [stringEnd, ih hinner, List.take_succ_cons, List.take_succ_cons, List.foldl_cons,
        List.foldl_cons, Position.next_of_ne hc]
      rfl
  | case5 c rest hquote hescape ih =>
      obtain ⟨⟨inner, k⟩, hinner, heq⟩ := eq_ok_of_map h
      cases heq
      rw [List.take_succ_cons, List.foldl_cons]
      by_cases hc : c = '\n'
      · subst hc
        exact ih hinner _
      · rw [stringEnd, ih hinner, Position.next_of_ne hc]
        · exact hquote
        · exact hescape
        · exact hc

theorem placeAfter_other {c : Char} (h : c ∉ leading) (cs : List Char) (n : Nat)
    (place : Position) : placeAfter c cs n place = place.right (n + 1) := by
  unfold placeAfter
  split
  all_goals try exact absurd (by decide) h
  rfl

/-- **The place that is kept is the place after the lexeme**, comments apart. -/
theorem Starts.placeAfter_eq {c : Char} {cs : List Char} {t : Option Token} {n : Nat}
    (h : Starts c cs t n) (hc : c ≠ ';') (place : Position) :
    placeAfter c cs n place = (cs.take n).foldl Position.next (place.next c) := by
  have hline : c ≠ '"' → c ≠ '\n' →
      (cs.take n).foldl Position.next (place.next c) = place.right (n + 1) := by
    intro hstring hbreak
    have hlength : (cs.take n).length = n := List.length_take_of_le (lexeme_line h.lexeme_eq []).2
    rw [Position.foldl_next_of_notMem (h.notMem_take hstring), Position.next_of_ne hbreak,
      Position.right_right, hlength, Nat.add_comm]
  have hother : c ∉ leading → c ≠ '"' ∧ c ≠ '\n' := by
    intro hmem
    constructor <;> (rintro rfl; exact hmem (by decide))
  cases h with
  | blank hblank =>
      simp only [List.mem_cons, List.not_mem_nil, or_false] at hblank
      rcases hblank with rfl | rfl | rfl | rfl <;> rfl
  | comment => exact absurd rfl hc
  | opening => rfl
  | closing => rfl
  | quote => rfl
  | string hbody => exact stringEnd_eq hbody _
  | hash => exact (hline (by decide) (by decide)).symm
  | number hstart =>
      have hmem := notMem_leading_of_startsNumber hstart
      rw [placeAfter_other hmem, hline (hother hmem).1 (hother hmem).2]
  | symbol hstart =>
      have hmem := notMem_leading_of_isSymbolStart hstart
      rw [placeAfter_other hmem, hline (hother hmem).1 (hother hmem).2]

/-! ### Scanning by one rule -/

/-- The tokens of a text of which the first `skip` characters are already taken; `place` is the
position of its first character, and every character moves it on. -/
def walkFrom : List Char → Nat → Position → Except Cause (List Placed)
  | [], _, _ => .ok []
  | c :: cs, skip + 1, place => walkFrom cs skip (place.next c)
  | c :: cs, 0, place =>
    match lexeme c cs with
    | .error fault => .error (.read fault place)
    | .ok (none, n) => walkFrom cs n (place.next c)
    | .ok (some token, n) =>
      (walkFrom cs n (place.next c)).map fun tokens => ⟨token, place⟩ :: tokens

theorem scanFrom_drop (cs : List Char) (skip : Nat) (place : Position) :
    scanFrom cs skip place = scanFrom (cs.drop skip) 0 place := by
  induction cs generalizing skip with
  | nil => rw [List.drop_nil, scanFrom, scanFrom]
  | cons c cs ih =>
      cases skip with
      | zero => rfl
      | succ skip => exact ih skip

theorem walkFrom_drop (cs : List Char) (skip : Nat) (place : Position) :
    walkFrom cs skip place =
      walkFrom (cs.drop skip) 0 ((cs.take skip).foldl Position.next place) := by
  induction cs generalizing skip place with
  | nil => rw [List.drop_nil, walkFrom, walkFrom]
  | cons c cs ih =>
      cases skip with
      | zero => rfl
      | succ skip => exact ih skip (place.next c)

/-- A comment runs to the end of its line. -/
theorem drop_comment (cs : List Char) :
    let rest := cs.drop (cs.takeWhile (· != '\n')).length
    rest = [] ∨ ∃ more, rest = '\n' :: more := by
  induction cs with
  | nil => exact .inl rfl
  | cons c cs ih =>
      by_cases hc : c = '\n'
      · subst hc
        exact .inr ⟨cs, rfl⟩
      · simpa [hc] using ih

section

variable {c : Char} {cs : List Char}

/-- After a lexeme the two scans go on alike, if they do so on every text that is not longer than what
follows. -/
theorem scanFrom_of_lexeme {t : Option Token} {n : Nat} (h : lexeme c cs = .ok (t, n))
    (place : Position)
    (hrest : ∀ rest : List Char, rest.length ≤ cs.length → ∀ place,
      scanFrom rest 0 place = walkFrom rest 0 place) :
    scanFrom cs n (placeAfter c cs n place) = walkFrom cs n (place.next c) := by
  have hstarts := starts_of_lexeme h
  rw [scanFrom_drop, walkFrom_drop]
  by_cases hc : c = ';'
  · -- The column is left behind, but a line break or the end of the text follows.
    subst hc
    cases h
    rw [Position.foldl_next_of_notMem (hstarts.notMem_take (by decide))]
    rcases drop_comment cs with hend | ⟨more, hmore⟩
    · rw [hend]
      rfl
    · have hshorter : more.length ≤ cs.length := by
        have hlength := congrArg List.length hmore
        rw [List.length_drop, List.length_cons] at hlength
        omega
      rw [hmore]
      exact hrest more hshorter ⟨place.line + 1, 1⟩
  · rw [hstarts.placeAfter_eq hc]
    exact hrest _ (by rw [List.length_drop]; omega) _

end

/-- The two ways to keep the place give the same tokens and the same faults. -/
theorem scanFrom_eq_walkFrom (cs : List Char) (place : Position) :
    scanFrom cs 0 place = walkFrom cs 0 place := by
  -- A lexeme can take any number of characters, so the induction is on the length of the text.
  induction hlength : cs.length using Nat.strong_induction_on generalizing cs place with
  | _ length ih =>
    cases cs with
    | nil => rfl
    | cons c cs =>
        have hrest : ∀ rest : List Char, rest.length ≤ cs.length → ∀ place,
            scanFrom rest 0 place = walkFrom rest 0 place := by
          intro rest hle place
          exact ih rest.length (by rw [← hlength, List.length_cons]; omega) rest place rfl
        cases hlexeme : lexeme c cs with
        | error fault => simp only [scanFrom, walkFrom, hlexeme]
        | ok found =>
            obtain ⟨t, n⟩ := found
            have hnext := scanFrom_of_lexeme hlexeme place hrest
            cases t with
            | none => simp only [scanFrom, walkFrom, hlexeme, hnext]
            | some t => simp only [scanFrom, walkFrom, hlexeme, hnext]

theorem scan_eq_walkFrom (text : String) : scan text = walkFrom text.toList 0 .start :=
  scanFrom_eq_walkFrom text.toList .start

end Token

end DispatchLisp
