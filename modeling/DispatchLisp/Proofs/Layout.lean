import DispatchLisp.Proofs.Lines

/-! # The layout of a text

A text that can be scanned is divided into gaps and lexemes, one after the other, and nothing of it
is lost (`Token.Divides`).

* A gap (`Token.Gap`) is made of blanks, line breaks and comments, which run to the end of their
  line.
* A lexeme, scanned by itself, is one token (`Token.StandsFor`).  What a scan finds at a place is
  found again if the text ends with it (`Token.lexeme_take`).
* A token is placed by counting the line breaks before its lexeme and the characters after the last
  of them (`Position.after`), which is the same as moving on character by character
  (`Position.after_concat`) and as the places that the scanner keeps (`Token.scan_eq_walkFrom`).

A text that cannot be scanned is divided in the same way up to the lexeme that is at fault, and the
fault is placed there.  `Token.scan_lossless` puts this together. -/

namespace DispatchLisp

/-! ### Places -/

/-- The place of the character that follows a text: on the line after as many line breaks, and in
the column after as many characters since the last one. -/
def Position.after (before : List Char) : Position :=
  ⟨1 + before.count '\n', 1 + (before.reverse.takeWhile (· != '\n')).length⟩

/-- Counting agrees with moving on. -/
theorem Position.after_concat (before : List Char) (c : Char) :
    Position.after (before ++ [c]) = (Position.after before).next c := by
  unfold Position.after Position.next
  by_cases hc : c = '\n'
  · subst hc
    have hcount : (before ++ ['\n']).count '\n' = before.count '\n' + 1 := by simp
    have hlast : ((before ++ ['\n']).reverse.takeWhile (· != '\n')).length = 0 := by simp
    rw [hcount, hlast, if_pos rfl, ← Nat.add_assoc]
  · have hcount : (before ++ [c]).count '\n' = before.count '\n' := by simp [hc]
    have hlast : ((before ++ [c]).reverse.takeWhile (· != '\n')).length =
        (before.reverse.takeWhile (· != '\n')).length + 1 := by simp [hc]
    rw [hcount, hlast, if_neg hc]
    rfl

namespace Token

/-! ### Gaps and lexemes -/

/-- What stands between lexemes, with the text that follows it: blanks, line breaks and comments.
After a comment comes a line break or the end of the text. -/
inductive Gap : List Char → List Char → Prop
  | none (rest : List Char) : Gap [] rest
  | blank {c : Char} {gap rest : List Char} : c ∈ [' ', '\t', '\r', '\n'] → Gap gap rest →
      Gap (c :: gap) rest
  | comment {words gap rest : List Char} : '\n' ∉ words →
      (∀ c, (gap ++ rest).head? = some c → c = '\n') → Gap gap rest →
      Gap (';' :: words ++ gap) rest

/-- Scanned by itself, the lexeme is this token. -/
def StandsFor (word : List Char) (t : Token) : Prop :=
  scan (String.ofList word) = .ok [⟨t, .start⟩]

/-- The text that stands between `before` and `rest` is a gap, a lexeme, a gap and so on up to a last
gap; the tokens are those of the lexemes, each placed at the first character of its lexeme. -/
inductive Divides (rest : List Char) : List Char → List Char → List Placed → Prop
  | last {before gap : List Char} : Gap gap rest → Divides rest before gap []
  | next {before gap word text : List Char} {t : Token} {ts : List Placed} :
      Gap gap (word ++ text ++ rest) → StandsFor word t →
      Divides rest (before ++ gap ++ word) text ts →
      Divides rest before (gap ++ word ++ text) (⟨t, .after (before ++ gap)⟩ :: ts)

theorem Gap.append {gap more rest : List Char} (hgap : Gap gap (more ++ rest))
    (hmore : Gap more rest) : Gap (gap ++ more) rest := by
  generalize hfollows : more ++ rest = follows at hgap
  induction hgap with
  | none => exact hmore
  | blank hc _ ih => exact .blank hc (ih hfollows)
  | @comment words gap follows hwords hend _ ih =>
      subst hfollows
      rw [List.append_assoc]
      refine .comment hwords ?_ (ih rfl)
      rw [List.append_assoc]
      exact hend

/-- A gap before a divided text belongs to its first gap. -/
theorem Divides.gap {rest before gap text : List Char} {ts : List Placed}
    (h : Divides rest (before ++ gap) text ts) (hgap : Gap gap (text ++ rest)) :
    Divides rest before (gap ++ text) ts := by
  cases h with
  | last hlast => exact .last (hgap.append hlast)
  | @next _ first word text t ts hfirst hword htext =>
      rw [List.append_assoc before] at htext
      have hjoined : Gap (gap ++ first) (word ++ text ++ rest) := by
        refine Gap.append ?_ hfirst
        simpa only [List.append_assoc] using hgap
      have hdivides := Divides.next hjoined hword htext
      simpa only [List.append_assoc] using hdivides

/-! ### Lexemes by themselves -/

theorem take_length_takeWhile (p : Char → Bool) (cs : List Char) :
    cs.take (cs.takeWhile p).length = cs.takeWhile p :=
  (List.prefix_iff_eq_take.mp (List.takeWhile_prefix p)).symm

theorem drop_length_takeWhile (p : Char → Bool) (cs : List Char) :
    cs.drop (cs.takeWhile p).length = cs.dropWhile p := by
  have hsplit : cs.takeWhile p ++ cs.dropWhile p = cs := List.takeWhile_append_dropWhile
  calc cs.drop (cs.takeWhile p).length
      = (cs.takeWhile p ++ cs.dropWhile p).drop (cs.takeWhile p).length := by rw [hsplit]
    _ = cs.dropWhile p := List.drop_left

theorem stringBody_take {cs text : List Char} {n : Nat} (h : stringBody cs = .ok (text, n)) :
    stringBody (cs.take n) = .ok (text, n) := by
  fun_induction stringBody cs generalizing text n with
  | case1 => cases h
  | case2 rest =>
      cases h
      rfl
  | case3 => cases h
  | case4 c rest plain hplain ih =>
      obtain ⟨⟨inner, k⟩, hinner, heq⟩ := eq_ok_of_map h
      cases heq
      simp only [List.take_succ_cons, stringBody, hplain, ih hinner]
      rfl
  | case5 c rest hquote hescape ih =>
      obtain ⟨⟨inner, k⟩, hinner, heq⟩ := eq_ok_of_map h
      cases heq
      rw [List.take_succ_cons, stringBody_plain hquote (fun hc => ?_), ih hinner]
      · rfl
      · -- A backslash is followed by the same character as in the whole text.
        cases rest with
        | nil => exact List.take_nil
        | cons x more => exact absurd rfl (hescape x more hc)

theorem StartsHash.take {cs : List Char} {v : Value} {n : Nat} (h : StartsHash cs v n) :
    StartsHash (cs.take n) v n := by
  cases h with
  | yes => exact .yes
  | no => exact .no
  | @byte cs digits hdigits hne hlt =>
      have htake : cs.take digits.length = digits := by rw [← hdigits, take_length_takeWhile]
      rw [Nat.add_comm 1, List.take_succ_cons, htake, Nat.add_comm _ 1]
      refine .byte ?_ hne hlt
      rw [← hdigits, List.takeWhile_idem]

/-! ### Numbers -/

/-- The digits of a number, with a point among them if it is a real. -/
inductive IsNumeral : List Char → Bool → Prop
  | whole {whole : List Char} : Digits.Proper whole → IsNumeral whole false
  | point {whole fraction : List Char} : Digits.Proper whole → Digits.Proper fraction →
      IsNumeral (whole ++ '.' :: fraction) true

theorem IsNumeral.exists_cons {body : List Char} {isReal : Bool} (h : IsNumeral body isReal) :
    ∃ d ds, body = d :: ds ∧ d.isDigit = true := by
  cases h with
  | whole hwhole => exact hwhole.exists_cons
  | point hwhole _ =>
      obtain ⟨d, ds, rfl, hd⟩ := hwhole.exists_cons
      exact ⟨d, _, List.cons_append, hd⟩

theorem IsNumeral.numberBody {body : List Char} {isReal : Bool} (h : IsNumeral body isReal) :
    numberBody body = (body, isReal) := by
  cases h with
  | whole hwhole =>
      have hfound := numberBody_digits hwhole ended_nil
      rwa [List.append_nil] at hfound
  | point hwhole hfraction =>
      have hfound := numberBody_point hwhole hfraction ended_nil
      rwa [List.append_nil] at hfound

/-- From a digit on, the digits of a number are found. -/
theorem exists_numeral {d : Char} (hd : d.isDigit = true) (cs : List Char) :
    ∃ body rest isReal, IsNumeral body isReal ∧ d :: cs = body ++ rest ∧
      Token.numberBody (d :: cs) = (body, isReal) := by
  have hwhole : Digits.Proper ((d :: cs).takeWhile Char.isDigit) :=
    ⟨by simp [hd], List.all_eq_true.mp List.all_takeWhile⟩
  have hsplit : d :: cs =
      (d :: cs).takeWhile Char.isDigit ++ (d :: cs).dropWhile Char.isDigit :=
    List.takeWhile_append_dropWhile.symm
  unfold Token.numberBody
  split
  case h_1 e more hdrop =>
    split
    case isTrue he =>
      have hfraction : Digits.Proper (e :: more.takeWhile Char.isDigit) := by
        refine ⟨List.cons_ne_nil _ _, List.forall_mem_cons.mpr ⟨he, ?_⟩⟩
        exact List.all_eq_true.mp List.all_takeWhile
      refine ⟨_, more.dropWhile Char.isDigit, true, .point hwhole hfraction, ?_, rfl⟩
      rw [List.append_assoc, List.cons_append, List.cons_append, List.takeWhile_append_dropWhile,
        ← hdrop]
      exact hsplit
    case isFalse => exact ⟨_, _, false, .whole hwhole, hsplit, rfl⟩
  case h_2 => exact ⟨_, _, false, .whole hwhole, hsplit, rfl⟩

/-- A number starts at the character `c`: its sign, its digits and what follows them. -/
structure NumberAt (c : Char) (cs sign body rest : List Char) (isReal : Bool) : Prop where
  signed : sign = [] ∨ sign = ['-'] ∨ sign = ['+']
  numeral : IsNumeral body isReal
  found : Token.numberBody (body ++ rest) = (body, isReal)
  text : c :: cs = sign ++ body ++ rest

theorem exists_numberAt {c : Char} {cs : List Char} (h : startsNumber c cs = true) :
    ∃ sign body rest isReal, NumberAt c cs sign body rest isReal := by
  unfold startsNumber at h
  rcases Bool.or_eq_true_iff.mp h with hc | hsigned
  · obtain ⟨body, rest, isReal, hnumeral, htext, hfound⟩ := exists_numeral hc cs
    exact ⟨[], body, rest, isReal, .inl rfl, hnumeral, htext ▸ hfound, htext⟩
  · obtain ⟨hsign, hhead⟩ := Bool.and_eq_true_iff.mp hsigned
    cases cs with
    | nil => cases hhead
    | cons d ds =>
        obtain ⟨body, rest, isReal, hnumeral, htext, hfound⟩ := exists_numeral hhead ds
        have hc : c = '-' ∨ c = '+' := by simpa using hsign
        refine ⟨[c], body, rest, isReal, ?_, hnumeral, htext ▸ hfound, by simp [htext]⟩
        rcases hc with rfl | rfl
        · exact .inr (.inl rfl)
        · exact .inr (.inr rfl)

/-- What a number gives: its value and the number of characters beyond the first, or a fault. -/
def numberResult (sign body : List Char) (isReal : Bool) : Except ReadFault (Value × Nat) :=
  match numberValue? isReal (if sign = ['+'] then body else sign ++ body) with
  | some v => .ok (v, (sign ++ body).length - 1)
  | none =>
    .error (if isReal then .badDecimal (String.ofList (sign ++ body))
      else .badInteger (String.ofList (sign ++ body)))

theorem numberResult_eq (sign body : List Char) (isReal : Bool) :
    numberResult sign body isReal =
      if isReal then
        match Numeral.toDecimal? (if sign = ['+'] then body else sign ++ body) with
        | some d => .ok (.real d, (sign ++ body).length - 1)
        | none => .error (.badDecimal (String.ofList (sign ++ body)))
      else
        match Numeral.toInt? (if sign = ['+'] then body else sign ++ body) with
        | some n => .ok (.int n, (sign ++ body).length - 1)
        | none => .error (.badInteger (String.ofList (sign ++ body))) := by
  unfold numberResult numberValue?
  cases isReal with
  | false =>
      simp only [Bool.false_eq_true, if_false]
      cases Numeral.toInt? (if sign = ['+'] then body else sign ++ body) <;> rfl
  | true =>
      simp only [if_true]
      cases Numeral.toDecimal? (if sign = ['+'] then body else sign ++ body) <;> rfl

/-- What a number gives together with what follows it: some characters cannot follow a number. -/
def numberOutcome (sign body : List Char) (isReal : Bool) :
    List Char → Except ReadFault (Value × Nat)
  | x :: _ =>
    if isSymbolChar x && x != '.' then .error (.badNumber (String.ofList (sign ++ body ++ [x])))
    else numberResult sign body isReal
  | [] => numberResult sign body isReal

namespace NumberAt

variable {c : Char} {cs sign body rest : List Char} {isReal : Bool}

/-- The number starts with a digit, or it is signed and a digit follows the sign. -/
theorem first (h : NumberAt c cs sign body rest isReal) :
    (sign = [] ∧ c.isDigit = true ∧ ∃ ds, body = c :: ds ∧ cs = ds ++ rest) ∨
      (c = '-' ∨ c = '+') ∧ sign = [c] ∧ cs = body ++ rest ∧ body.head?.any Char.isDigit := by
  obtain ⟨d, ds, rfl, hd⟩ := h.numeral.exists_cons
  have htext := h.text
  rcases h.signed with rfl | rfl | rfl
  · simp only [List.nil_append, List.cons_append, List.cons.injEq] at htext
    obtain ⟨rfl, rfl⟩ := htext
    exact .inl ⟨rfl, hd, ds, rfl, rfl⟩
  · simp only [List.cons_append, List.nil_append, List.cons.injEq] at htext
    obtain ⟨rfl, rfl⟩ := htext
    exact .inr ⟨.inl rfl, rfl, rfl, hd⟩
  · simp only [List.cons_append, List.nil_append, List.cons.injEq] at htext
    obtain ⟨rfl, rfl⟩ := htext
    exact .inr ⟨.inr rfl, rfl, rfl, hd⟩

theorem startsNumber (h : NumberAt c cs sign body rest isReal) : startsNumber c cs = true := by
  unfold Token.startsNumber
  rcases h.first with ⟨-, hc, -⟩ | ⟨hc, -, rfl, hhead⟩
  · rw [hc, Bool.true_or]
  · have hsign : (c == '-' || c == '+') = true := by simpa using hc
    have hfirst : (body ++ rest).head?.any Char.isDigit = true := by
      cases body with
      | nil => cases hhead
      | cons d ds => exact hhead
    rw [hsign, hfirst, Bool.and_self, Bool.or_true]

/-- The sign, the digits and what follows them decide what a number gives. -/
theorem numberLexeme_eq (h : NumberAt c cs sign body rest isReal) :
    numberLexeme c cs = numberOutcome sign body isReal rest := by
  have hfound := h.found
  unfold numberLexeme
  rcases h.first with ⟨rfl, hc, ds, rfl, rfl⟩ | ⟨hc, rfl, rfl, -⟩
  · have hsigned : ∀ x, x.isDigit = false → (c == x) = false := by
      intro x hx
      rw [beq_eq_false_iff_ne]
      rintro rfl
      rw [hc] at hx
      cases hx
    rw [List.cons_append] at hfound
    simp only [hsigned '-' (by decide), hsigned '+' (by decide), Bool.or_self, Bool.false_eq_true,
      if_false, hfound, List.length_cons, Nat.add_sub_cancel, List.drop_left]
    cases rest <;> simp only [numberOutcome, numberResult_eq] <;> rfl
  · have hsign : (c == '-' || c == '+') = true := by simpa using hc
    simp only [hsign, if_true, hfound, List.drop_left]
    rcases hc with rfl | rfl
    · cases rest <;> simp only [numberOutcome, numberResult_eq] <;> rfl
    · cases rest <;> simp only [numberOutcome, numberResult_eq] <;> rfl

/-- If the text ends with the number, the number is still there. -/
theorem take (h : NumberAt c cs sign body rest isReal) :
    NumberAt c (cs.take ((sign ++ body).length - 1)) sign body [] isReal where
  signed := h.signed
  numeral := h.numeral
  found := by rw [List.append_nil, h.numeral.numberBody]
  text := by
    have hpositive : 0 < (sign ++ body).length := by
      obtain ⟨d, ds, rfl, -⟩ := h.numeral.exists_cons
      simp only [List.length_append, List.length_cons]
      omega
    have htake : (c :: cs).take ((sign ++ body).length - 1 + 1) = sign ++ body := by
      rw [Nat.sub_add_cancel hpositive, h.text, List.take_left]
    rw [List.take_succ_cons] at htake
    rw [htake, List.append_nil]

end NumberAt

theorem length_of_numberResult {sign body : List Char} {isReal : Bool} {v : Value} {n : Nat}
    (h : numberResult sign body isReal = .ok (v, n)) : n = (sign ++ body).length - 1 := by
  unfold numberResult at h
  split at h
  · cases h
    rfl
  · cases h

theorem numberResult_of_numberOutcome {sign body rest : List Char} {isReal : Bool}
    {r : Value × Nat} (h : numberOutcome sign body isReal rest = .ok r) :
    numberResult sign body isReal = .ok r := by
  unfold numberOutcome at h
  split at h
  · split at h
    · cases h
    · exact h
  · exact h

theorem numberLexeme_take {c : Char} {cs : List Char} {v : Value} {n : Nat}
    (hstart : startsNumber c cs = true) (h : numberLexeme c cs = .ok (v, n)) :
    startsNumber c (cs.take n) = true ∧ numberLexeme c (cs.take n) = .ok (v, n) := by
  obtain ⟨sign, body, rest, isReal, hat⟩ := exists_numberAt hstart
  rw [hat.numberLexeme_eq] at h
  have hresult := numberResult_of_numberOutcome h
  have htake := hat.take
  rw [← length_of_numberResult hresult] at htake
  exact ⟨htake.startsNumber, htake.numberLexeme_eq.trans hresult⟩

/-! ### All lexemes -/

/-- **What stands at a place is found again if the text ends with it.** -/
theorem lexeme_take {c : Char} {cs : List Char} {t : Option Token} {n : Nat}
    (h : lexeme c cs = .ok (t, n)) : lexeme c (cs.take n) = .ok (t, n) := by
  cases starts_of_lexeme h with
  | blank hblank => exact (Starts.blank hblank).lexeme_eq
  | comment => simp only [lexeme, take_length_takeWhile, List.takeWhile_idem]
  | opening => rfl
  | closing => rfl
  | quote => rfl
  | string hbody => exact (Starts.string (stringBody_take hbody)).lexeme_eq
  | hash hhash => exact (Starts.hash hhash.take).lexeme_eq
  | number hstart hnumber =>
      obtain ⟨hstart', htake⟩ := numberLexeme_take hstart hnumber
      exact (Starts.number hstart' htake).lexeme_eq
  | symbol hstart hnumber =>
      have hnot := startsNumber_takeWhile isSymbolChar hnumber
      rw [take_length_takeWhile, lexeme_symbol hstart hnot, List.takeWhile_idem]

/-- A lexeme stands for its token. -/
theorem standsFor_of_lexeme {c : Char} {cs : List Char} {t : Token} {n : Nat}
    (h : lexeme c cs = .ok (some t, n)) : StandsFor (c :: cs.take n) t := by
  have hrest : ∀ (cs : List Char) (skip : Nat) (place : Position), cs.length ≤ skip →
      scanFrom cs skip place = .ok [] := by
    intro cs
    induction cs with
    | nil => exact fun _ _ _ => rfl
    | cons x xs ih =>
        intro skip place hskip
        cases skip with
        | zero => cases hskip
        | succ skip => exact ih skip _ (Nat.le_of_succ_le_succ hskip)
  unfold StandsFor scan
  rw [String.toList_ofList]
  simp only [scanFrom, lexeme_take h, hrest _ n _ (List.length_take_le n cs)]
  rfl

theorem gap_comment (cs : List Char) :
    Gap (';' :: cs.takeWhile (· != '\n')) (cs.dropWhile (· != '\n')) := by
  have hwords : '\n' ∉ cs.takeWhile (· != '\n') := by
    intro hmem
    have hbreak := List.all_eq_true.mp List.all_takeWhile '\n' hmem
    exact absurd hbreak (by decide)
  have hend : ∀ c, ([] ++ cs.dropWhile (· != '\n')).head? = some c → c = '\n' := by
    intro c hc
    have hstop := List.head?_dropWhile_not (· != '\n') cs
    rw [List.nil_append] at hc
    rw [hc] at hstop
    simpa using hstop
  have hgap := Gap.comment hwords hend (.none _)
  rwa [List.append_nil] at hgap

theorem gap_of_lexeme {c : Char} {cs : List Char} {n : Nat} (h : lexeme c cs = .ok (none, n)) :
    Gap (c :: cs.take n) (cs.drop n) := by
  cases starts_of_lexeme h with
  | blank hblank => exact .blank hblank (.none cs)
  | comment =>
      rw [take_length_takeWhile, drop_length_takeWhile]
      exact gap_comment cs

/-! ### Faults -/

/-- The faults that scanning a text of the given length can report.  The digits of a number always
make an integer; they make a decimal unless there are more of them than a word can count. -/
def Reports (length : Nat) : ReadFault → Prop
  | .unknownEscape _ | .unterminatedString | .badByte _ | .unexpectedAfterHash _ | .endAfterHash
  | .badNumber _ | .unexpectedCharacter _ => True
  | .badDecimal _ => 2 ^ 63 ≤ length
  | _ => False

theorem reports_of_stringBody {cs : List Char} {fault : ReadFault}
    (h : stringBody cs = .error fault) (length : Nat) : Reports length fault := by
  fun_induction stringBody cs with
  | case1 =>
      cases h
      trivial
  | case2 => cases h
  | case3 =>
      cases h
      trivial
  | case4 c rest plain hplain ih => exact ih (eq_error_of_map h)
  | case5 c rest hquote hescape ih => exact ih (eq_error_of_map h)

theorem reports_of_hashLexeme {cs : List Char} {fault : ReadFault}
    (h : hashLexeme cs = .error fault) (length : Nat) : Reports length fault := by
  unfold hashLexeme at h
  split at h
  · cases h
  · cases h
  · simp only at h
    split at h
    · cases h
      trivial
    · cases h
  · cases h
    trivial
  · cases h
    trivial

/-- The digits of a number make a number. -/
theorem exists_numberValue {sign body : List Char} {isReal : Bool}
    (hsign : sign = [] ∨ sign = ['-'] ∨ sign = ['+']) (h : IsNumeral body isReal)
    (hlength : isReal = true → body.length < 2 ^ 63) :
    ∃ v, numberValue? isReal (if sign = ['+'] then body else sign ++ body) = some v := by
  -- A plus sign is dropped, so the digits come after a minus sign or nothing.
  obtain ⟨n, hn⟩ : ∃ n : Int, (if sign = ['+'] then body else sign ++ body) =
      Numeral.sign n ++ body := by
    rcases hsign with rfl | rfl | rfl
    · exact ⟨0, rfl⟩
    · exact ⟨-1, rfl⟩
    · exact ⟨0, rfl⟩
  rw [hn]
  cases h with
  | whole hwhole => exact ⟨_, congrArg (Option.map Value.int) (Numeral.toInt?_eq hwhole n)⟩
  | @point whole fraction hwhole hfraction =>
      have hfits : Word.fitsSigned 64 fraction.length = true := by
        have hbound := hlength rfl
        have hpower : (2 : Nat).pow (64 - 1) = 2 ^ 63 := by decide
        rw [List.length_append, List.length_cons] at hbound
        unfold Word.fitsSigned
        rw [hpower]
        simp only [Bool.and_eq_true, decide_eq_true_eq]
        omega
      rw [← List.append_assoc]
      exact ⟨_, congrArg (Option.map Value.real) (Numeral.toDecimal?_eq hwhole hfraction hfits n)⟩

theorem reports_of_numberLexeme {c : Char} {cs : List Char} {fault : ReadFault}
    (hstart : startsNumber c cs = true) (h : numberLexeme c cs = .error fault) :
    Reports (c :: cs).length fault := by
  obtain ⟨sign, body, rest, isReal, hat⟩ := exists_numberAt hstart
  have hbody : body.length ≤ (c :: cs).length := by
    rw [hat.text, List.length_append, List.length_append]
    omega
  have hresult : numberResult sign body isReal = .error fault →
      Reports (c :: cs).length fault := by
    intro hfault
    by_contra hnot
    have hlength : isReal = true → body.length < 2 ^ 63 := by
      rintro rfl
      by_contra hlong
      apply hnot
      unfold numberResult at hfault
      split at hfault
      · cases hfault
      · cases hfault
        exact le_trans (not_lt.mp hlong) hbody
    obtain ⟨v, hv⟩ := exists_numberValue hat.signed hat.numeral hlength
    unfold numberResult at hfault
    rw [hv] at hfault
    cases hfault
  rw [hat.numberLexeme_eq] at h
  unfold numberOutcome at h
  split at h
  · split at h
    · cases h
      trivial
    · exact hresult h
  · exact hresult h

theorem reports_of_lexeme {c : Char} {cs : List Char} {fault : ReadFault}
    (h : lexeme c cs = .error fault) : Reports (c :: cs).length fault := by
  rcases lexeme_error_cases h with hstring | hhash | ⟨hstart, hnumber⟩ | rfl
  · exact reports_of_stringBody hstring _
  · exact reports_of_hashLexeme hhash _
  · exact reports_of_numberLexeme hstart hnumber
  · trivial

theorem Reports.mono {m n : Nat} {fault : ReadFault} (h : Reports m fault) (hmn : m ≤ n) :
    Reports n fault := by
  cases fault with
  | badDecimal => exact le_trans h hmn
  | _ => exact h

/-- The message of a fault tells of a bad number of the given sort. -/
def Tells (sort : String) (fault : ReadFault) : Prop :=
  ("invalid " ++ sort).toList <+: fault.message.toList

/-- A message that differs from these words in the ninth character does not tell of a bad number. -/
theorem not_tells {sort start more : String} {fault : ReadFault}
    (hmessage : fault.message = start ++ more) {c d : Char}
    (hsort : ("invalid " ++ sort).toList[8]? = some c) (hstart : start.toList[8]? = some d)
    (hne : c ≠ d) : ¬ Tells sort fault := by
  rintro ⟨rest, hrest⟩
  have hcut : ("invalid " ++ sort).toList ++ rest = start.toList ++ more.toList := by
    rw [hrest, hmessage, String.toList_append]
  have hninth : (("invalid " ++ sort).toList ++ rest)[8]? = (start.toList ++ more.toList)[8]? := by
    rw [hcut]
  rw [List.getElem?_append_left (List.getElem?_eq_some_iff.mp hsort).1, hsort,
    List.getElem?_append_left (List.getElem?_eq_some_iff.mp hstart).1, hstart] at hninth
  exact hne (Option.some.inj hninth)

theorem not_tells_number {start more : String} {fault : ReadFault}
    (hmessage : fault.message = start ++ more) {d : Char} (hstart : start.toList[8]? = some d)
    (hinteger : 'i' ≠ d) (hdecimal : 'd' ≠ d) : ¬ Tells "integer" fault ∧ ¬ Tells "decimal" fault :=
  ⟨not_tells hmessage (by decide) hstart hinteger, not_tells hmessage (by decide) hstart hdecimal⟩

/-- No message tells of a bad integer, and a message tells of a bad decimal only in a text that is
too long for its digits to be counted. -/
theorem Reports.not_tells {n : Nat} {fault : ReadFault} (h : Reports n fault) :
    ¬ Tells "integer" fault ∧ (n < 2 ^ 63 → ¬ Tells "decimal" fault) := by
  by_cases hdecimal : ∃ text, fault = .badDecimal text
  · obtain ⟨text, rfl⟩ := hdecimal
    have hmessage : (ReadFault.badDecimal text).message = "invalid decimal: " ++ text := rfl
    refine ⟨Token.not_tells hmessage (by decide) (by decide) (by decide : 'i' ≠ 'd'), fun hn => ?_⟩
    exact absurd h (not_le.mpr hn)
  · suffices hnot : ¬ Tells "integer" fault ∧ ¬ Tells "decimal" fault from ⟨hnot.1, fun _ => hnot.2⟩
    cases fault with
    | unknownEscape c =>
        exact not_tells_number (d := 's') String.append_assoc (by decide) (by decide) (by decide)
    | unterminatedString =>
        exact not_tells_number (d := 'a') String.append_empty.symm (by decide) (by decide)
          (by decide)
    | badByte digits => exact not_tells_number (d := 'b') rfl (by decide) (by decide) (by decide)
    | unexpectedAfterHash c =>
        exact not_tells_number (d := 'e') String.append_assoc (by decide) (by decide) (by decide)
    | endAfterHash =>
        exact not_tells_number (d := 'e') String.append_empty.symm (by decide) (by decide)
          (by decide)
    | badNumber text => exact not_tells_number (d := 'n') rfl (by decide) (by decide) (by decide)
    | unexpectedCharacter c =>
        exact not_tells_number (d := 'e') String.append_assoc (by decide) (by decide) (by decide)
    | badDecimal text => exact absurd ⟨text, rfl⟩ hdecimal
    | badInteger => exact h.elim
    | unexpectedEnd => exact h.elim
    | unexpectedClose => exact h.elim
    | unterminatedList => exact h.elim
    | inputAfterExpression => exact h.elim
    | other => exact h.elim

/-! ### Texts -/

/-- What scanning a text gives, which stands after `before`: the tokens into which it is divided, or
the fault at which the division stops. -/
inductive Laid (before text : List Char) : Except Cause (List Placed) → Prop
  | tokens {ts : List Placed} : Divides [] before text ts → Laid before text (.ok ts)
  | fault {start rest : List Char} {c : Char} {ts : List Placed} {fault : ReadFault} :
      text = start ++ c :: rest → Divides (c :: rest) before start ts →
      lexeme c rest = .error fault →
      Laid before text (.error (.read fault (.after (before ++ start))))

theorem Laid.gap {before gap text : List Char} {r : Except Cause (List Placed)}
    (h : Laid (before ++ gap) text r) (hgap : Gap gap text) : Laid before (gap ++ text) r := by
  cases h with
  | tokens hdivides =>
      rw [← List.append_nil text] at hgap
      exact .tokens (hdivides.gap hgap)
  | @fault start rest c ts fault htext hdivides hfault =>
      subst htext
      rw [List.append_assoc]
      exact .fault (List.append_assoc gap start (c :: rest)).symm (hdivides.gap hgap) hfault

theorem Laid.token {before word text : List Char} {t : Token} {r : Except Cause (List Placed)}
    (h : Laid (before ++ word) text r) (hword : StandsFor word t) :
    Laid before (word ++ text) (r.map (⟨t, .after before⟩ :: ·)) := by
  have hnext : ∀ {rest start : List Char} {ts : List Placed},
      Divides rest (before ++ word) start ts →
      Divides rest before (word ++ start) (⟨t, .after before⟩ :: ts) := by
    intro rest start ts hdivides
    have hstep := @Divides.next rest before [] word start t ts (.none _) hword
      (by rwa [List.append_nil])
    rwa [List.nil_append, List.append_nil] at hstep
  cases h with
  | tokens hdivides => exact .tokens (hnext hdivides)
  | @fault start rest c ts fault htext hdivides hfault =>
      subst htext
      rw [List.append_assoc]
      exact .fault (List.append_assoc word start (c :: rest)).symm (hnext hdivides) hfault

/-- **A scan lays out its text.**  The induction follows the scan; the first `skip` characters belong
to what was found before. -/
theorem laid_walkFrom (cs : List Char) (skip : Nat) (before : List Char) :
    Laid (before ++ cs.take skip) (cs.drop skip) (walkFrom cs skip (.after before)) := by
  generalize hplace : Position.after before = place
  fun_induction walkFrom cs skip place generalizing before with
  | case1 skip place =>
      rw [List.drop_nil]
      exact .tokens (.last (.none _))
  | case2 c cs skip place ih =>
      have hlaid := ih (before ++ [c]) (by rw [Position.after_concat, hplace])
      rwa [List.append_assoc, List.singleton_append] at hlaid
  | case3 c cs place fault hlexeme =>
      rw [List.take_zero, List.append_nil, List.drop_zero, ← hplace]
      have hdivides : Divides (c :: cs) before [] [] := .last (.none _)
      have hlaid := Laid.fault rfl hdivides hlexeme
      rwa [List.append_nil] at hlaid
  | case4 c cs place n hlexeme ih =>
      have hlaid := ih (before ++ [c]) (by rw [Position.after_concat, hplace])
      rw [List.append_assoc, List.singleton_append] at hlaid
      have hall := hlaid.gap (gap_of_lexeme hlexeme)
      rw [List.cons_append, List.take_append_drop] at hall
      rwa [List.take_zero, List.append_nil, List.drop_zero]
  | case5 c cs place t n hlexeme ih =>
      have hlaid := ih (before ++ [c]) (by rw [Position.after_concat, hplace])
      rw [List.append_assoc, List.singleton_append] at hlaid
      have hall := hlaid.token (standsFor_of_lexeme hlexeme)
      rw [List.cons_append, List.take_append_drop, hplace] at hall
      rwa [List.take_zero, List.append_nil, List.drop_zero]

/-- **Scanning loses nothing, and places are exact.**  A text that can be scanned is divided into
gaps and lexemes, and the tokens are those of the lexemes, placed at their first characters.  A fault
is placed at the first character of the lexeme that is at fault: the text before it is divided, and
what begins with it fails at its first character when it is scanned by itself.  The digits of a
number make the number in every text whose length fits a word. -/
theorem scan_lossless (text : String) :
    (∀ ts, scan text = .ok ts → Divides [] [] text.toList ts) ∧
    ∀ cause, scan text = .error cause → ∃ fault before rest ts,
      cause = .read fault (.after before) ∧ text.toList = before ++ rest ∧
      Divides rest [] before ts ∧ scan (String.ofList rest) = .error (.read fault .start) ∧
      ¬ Tells "integer" fault ∧ (text.length < 2 ^ 63 → ¬ Tells "decimal" fault) := by
  have hlaid : Laid [] text.toList (scan text) := by
    rw [scan_eq_walkFrom]
    exact laid_walkFrom text.toList 0 []
  refine ⟨fun ts hts => ?_, fun cause hcause => ?_⟩
  · rw [hts] at hlaid
    cases hlaid with
    | tokens hdivides => exact hdivides
  · rw [hcause] at hlaid
    cases hlaid with
    | @fault start rest c ts fault htext hdivides hlexeme =>
        have hlength : (c :: rest).length ≤ text.length := by
          rw [← String.length_toList, htext, List.length_append]
          omega
        have halone : scan (String.ofList (c :: rest)) = .error (.read fault .start) := by
          unfold scan
          rw [String.toList_ofList]
          simp only [scanFrom, hlexeme]
        obtain ⟨hinteger, hdecimal⟩ := ((reports_of_lexeme hlexeme).mono hlength).not_tells
        exact ⟨fault, start, c :: rest, ts, rfl, htext, hdivides, halone, hinteger, hdecimal⟩

/-- A string over two lines, a number before a point, a comment and a truth value that a symbol
follows directly; and a bad escape in a string on the second line. -/
theorem scan_lossless_lines :
    (scan "\"p\nq\"1. ;r\n#tfoo" = .ok [⟨.atom (.str "p\nq"), ⟨1, 1⟩⟩, ⟨.atom (.int 1), ⟨2, 3⟩⟩,
        ⟨.atom (.ident "."), ⟨2, 4⟩⟩, ⟨.atom (.bool true), ⟨3, 1⟩⟩,
        ⟨.atom (.ident "foo"), ⟨3, 3⟩⟩] ∧
      Divides [] [] "\"p\nq\"1. ;r\n#tfoo".toList [⟨.atom (.str "p\nq"), ⟨1, 1⟩⟩,
        ⟨.atom (.int 1), ⟨2, 3⟩⟩, ⟨.atom (.ident "."), ⟨2, 4⟩⟩, ⟨.atom (.bool true), ⟨3, 1⟩⟩,
        ⟨.atom (.ident "foo"), ⟨3, 3⟩⟩]) ∧
    ∃ fault before rest ts, scan "a ;b\n \"c\\d\"" = .error (.read fault ⟨2, 2⟩) ∧
      Position.after before = ⟨2, 2⟩ ∧ "a ;b\n \"c\\d\"".toList = before ++ rest ∧
      Divides rest [] before ts ∧ scan (String.ofList rest) = .error (.read fault .start) ∧
      ¬ Tells "integer" fault ∧ ¬ Tells "decimal" fault := by
  refine ⟨⟨rfl, (scan_lossless _).1 _ rfl⟩, ?_⟩
  have hscan : scan "a ;b\n \"c\\d\"" = .error (.read (.unknownEscape 'd') ⟨2, 2⟩) := rfl
  obtain ⟨fault, before, rest, ts, hplace, htext, hdivides, halone, hinteger, hdecimal⟩ :=
    (scan_lossless _).2 _ hscan
  obtain ⟨rfl, hafter⟩ := Cause.read.inj hplace
  exact ⟨_, before, rest, ts, hscan, hafter.symm, htext, hdivides, halone, hinteger,
    hdecimal (by decide)⟩

end Token

end DispatchLisp
