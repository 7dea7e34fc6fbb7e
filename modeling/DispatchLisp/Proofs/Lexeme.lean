import DispatchLisp.Heap.Printer
import DispatchLisp.Proofs.Numeral
import DispatchLisp.Token.Scan

/-! # Printed values as lexemes

What can start at a character is listed once, sort by sort (`Token.Starts`), and all that is said of
lexemes goes by these sorts.

A value that can stand in a source text (`Value.Readable`) is printed as a single lexeme: scanning
its text gives one token and stops exactly at its end, provided that the text is followed by a
space, a closing parenthesis or nothing (`Token.Ended`).  The token has the value itself, except
that a real is written with as many places as its text has (`Value.reread`).

Conversely every token of a text that can be scanned has such a value
(`Value.readable_of_lexeme`). -/

namespace DispatchLisp

theorem eq_ok_of_map {ε α β : Type} {f : α → β} {x : Except ε α} {b : β} (h : x.map f = .ok b) :
    ∃ a, x = .ok a ∧ f a = b := by
  cases x with
  | error e => cases h
  | ok a => exact ⟨a, rfl, Except.ok.inj h⟩

theorem eq_error_of_map {ε α β : Type} {f : α → β} {x : Except ε α} {e : ε}
    (h : x.map f = .error e) : x = .error e := by
  cases x with
  | error e' => exact congrArg _ (Except.error.inj h)
  | ok a => cases h

namespace Token

/-- What follows a printed value: nothing, or a space, or a closing parenthesis. -/
def Ended (rest : List Char) : Prop := ∀ c, rest.head? = some c → c = ' ' ∨ c = ')'

theorem ended_nil : Ended [] := by
  intro c h
  cases h

theorem ended_space (rest : List Char) : Ended (' ' :: rest) := by
  intro c h
  exact .inl (Option.some.inj h).symm

theorem ended_closing (rest : List Char) : Ended (')' :: rest) := by
  intro c h
  exact .inr (Option.some.inj h).symm

theorem Ended.stop {rest : List Char} (h : Ended rest) {p : Char → Bool} (hspace : p ' ' = false)
    (hclosing : p ')' = false) {c : Char} (hc : rest.head? = some c) : p c = false := by
  rcases h c hc with rfl | rfl
  · exact hspace
  · exact hclosing

/-- No class of characters that a lexeme is made of goes on into what follows it. -/
theorem Ended.takeWhile_append {rest : List Char} (h : Ended rest) {p : Char → Bool}
    (hspace : p ' ' = false) (hclosing : p ')' = false) {cs : List Char}
    (hcs : ∀ c ∈ cs, p c = true) : (cs ++ rest).takeWhile p = cs := by
  rw [List.takeWhile_append_of_pos hcs]
  cases rest with
  | nil => simp
  | cons c rest => simp [h.stop hspace hclosing rfl]

theorem Ended.dropWhile_append {rest : List Char} (h : Ended rest) {p : Char → Bool}
    (hspace : p ' ' = false) (hclosing : p ')' = false) {cs : List Char}
    (hcs : ∀ c ∈ cs, p c = true) : (cs ++ rest).dropWhile p = rest := by
  rw [List.dropWhile_append_of_pos hcs]
  cases rest with
  | nil => rfl
  | cons c rest => simp [h.stop hspace hclosing rfl]

/-! ### What starts at a character -/

/-- The characters that tell by themselves what starts there. -/
def leading : List Char := [' ', '\t', '\r', '\n', ';', '(', ')', '\'', '"', '#']

section

variable {c : Char} {cs : List Char}

theorem notMem_leading_of_startsNumber (h : startsNumber c cs = true) : c ∉ leading := by
  intro hmem
  have hnone : ∀ c ∈ leading, startsNumber c cs = false := by simp [leading, startsNumber]
  rw [hnone c hmem] at h
  cases h

theorem notMem_leading_of_isSymbolStart (h : isSymbolStart c = true) : c ∉ leading := by
  intro hmem
  have hnone : leading.any isSymbolStart = false := by decide
  exact List.any_eq_false.mp hnone c hmem h

/-- All other characters start a number or a symbol, or nothing. -/
theorem lexeme_other (h : c ∉ leading) :
    lexeme c cs =
      if startsNumber c cs then (numberLexeme c cs).map fun (v, n) => (some (.atom v), n)
      else if isSymbolStart c then
        .ok (some (.atom (ofSymbol (c :: cs.takeWhile isSymbolChar))),
          (cs.takeWhile isSymbolChar).length)
      else .error (.unexpectedCharacter c) := by
  unfold lexeme
  split
  all_goals try exact absurd (by decide) h
  rfl

theorem lexeme_number (h : startsNumber c cs = true) :
    lexeme c cs = (numberLexeme c cs).map fun (v, n) => (some (.atom v), n) := by
  rw [lexeme_other (notMem_leading_of_startsNumber h), if_pos h]

theorem lexeme_symbol (hc : isSymbolStart c = true) (hn : startsNumber c cs = false) :
    lexeme c cs = .ok (some (.atom (ofSymbol (c :: cs.takeWhile isSymbolChar))),
      (cs.takeWhile isSymbolChar).length) := by
  rw [lexeme_other (notMem_leading_of_isSymbolStart hc), if_neg (Bool.eq_false_iff.mp hn), if_pos hc]

/-- What a hash sign starts: a truth value, or a byte with its digits. -/
inductive StartsHash : List Char → Value → Nat → Prop
  | yes {cs : List Char} : StartsHash ('t' :: cs) (.bool true) 1
  | no {cs : List Char} : StartsHash ('f' :: cs) (.bool false) 1
  | byte {cs digits : List Char} : cs.takeWhile isHexDigit = digits → digits ≠ [] →
      digits.foldl (fun n c => n * 16 + hexValue c) 0 < 256 →
      StartsHash ('x' :: cs)
        (.byte (UInt8.ofNat (digits.foldl (fun n c => n * 16 + hexValue c) 0))) (1 + digits.length)

theorem hashLexeme_eq_ok_iff {v : Value} {n : Nat} :
    hashLexeme cs = .ok (v, n) ↔ StartsHash cs v n := by
  constructor
  · intro h
    unfold hashLexeme at h
    split at h
    · cases h
      exact .yes
    · cases h
      exact .no
    · simp only at h
      split at h
      · cases h
      · next hdigits =>
        simp only [Bool.or_eq_true, List.isEmpty_iff, decide_eq_true_eq, not_or, not_le] at hdigits
        cases h
        exact .byte rfl hdigits.1 hdigits.2
    · cases h
    · cases h
  · intro h
    cases h with
    | yes => rfl
    | no => rfl
    | byte hdigits hne hlt =>
        simp only [hashLexeme, hdigits]
        rw [if_neg (by simp [hne, hlt])]

/-- What starts at a character, sort by sort: a token or a gap, and the number of the characters that
it takes beyond the first. -/
inductive Starts : Char → List Char → Option Token → Nat → Prop
  | blank {c : Char} {cs : List Char} : c ∈ [' ', '\t', '\r', '\n'] → Starts c cs none 0
  | comment {cs : List Char} : Starts ';' cs none (cs.takeWhile (· != '\n')).length
  | opening {cs : List Char} : Starts '(' cs (some .opening) 0
  | closing {cs : List Char} : Starts ')' cs (some .closing) 0
  | quote {cs : List Char} : Starts '\'' cs (some .quote) 0
  | string {cs text : List Char} {n : Nat} : stringBody cs = .ok (text, n) →
      Starts '"' cs (some (.atom (.str (String.ofList text)))) n
  | hash {cs : List Char} {v : Value} {n : Nat} : StartsHash cs v n →
      Starts '#' cs (some (.atom v)) n
  | number {c : Char} {cs : List Char} {v : Value} {n : Nat} : startsNumber c cs = true →
      numberLexeme c cs = .ok (v, n) → Starts c cs (some (.atom v)) n
  | symbol {c : Char} {cs : List Char} : isSymbolStart c = true → startsNumber c cs = false →
      Starts c cs (some (.atom (ofSymbol (c :: cs.takeWhile isSymbolChar))))
        (cs.takeWhile isSymbolChar).length

theorem Starts.lexeme_eq {t : Option Token} {n : Nat} (h : Starts c cs t n) :
    lexeme c cs = .ok (t, n) := by
  cases h with
  | blank hblank =>
      simp only [List.mem_cons, List.not_mem_nil, or_false] at hblank
      rcases hblank with rfl | rfl | rfl | rfl <;> rfl
  | comment => rfl
  | opening => rfl
  | closing => rfl
  | quote => rfl
  | string hbody =>
      simp only [lexeme, hbody]
      rfl
  | hash hhash =>
      simp only [lexeme, hashLexeme_eq_ok_iff.mpr hhash]
      rfl
  | number hstart hnumber =>
      rw [lexeme_number hstart, hnumber]
      rfl
  | symbol hstart hnumber => exact lexeme_symbol hstart hnumber

/-- The sorts are all that can be found. -/
theorem starts_of_lexeme {t : Option Token} {n : Nat} (h : lexeme c cs = .ok (t, n)) :
    Starts c cs t n := by
  by_cases hleading : c ∈ leading
  · simp only [leading, List.mem_cons, List.not_mem_nil, or_false] at hleading
    rcases hleading with rfl | rfl | rfl | rfl | rfl | rfl | rfl | rfl | rfl | rfl
    · cases h
      exact .blank (by decide)
    · cases h
      exact .blank (by decide)
    · cases h
      exact .blank (by decide)
    · cases h
      exact .blank (by decide)
    · cases h
      exact .comment
    · cases h
      exact .opening
    · cases h
      exact .closing
    · cases h
      exact .quote
    · obtain ⟨⟨text, k⟩, hbody, heq⟩ := eq_ok_of_map h
      cases heq
      exact .string hbody
    · obtain ⟨⟨v, k⟩, hhash, heq⟩ := eq_ok_of_map h
      cases heq
      exact .hash (hashLexeme_eq_ok_iff.mp hhash)
  · rw [lexeme_other hleading] at h
    split at h
    case isTrue hstart =>
      obtain ⟨⟨v, k⟩, hnumber, heq⟩ := eq_ok_of_map h
      cases heq
      exact .number hstart hnumber
    case isFalse hnumber =>
      split at h
      case isTrue hstart =>
        cases h
        exact .symbol hstart (Bool.eq_false_iff.mpr hnumber)
      case isFalse => cases h

/-- What can be wrong at a character. -/
theorem lexeme_error_cases {fault : ReadFault} (h : lexeme c cs = .error fault) :
    stringBody cs = .error fault ∨ hashLexeme cs = .error fault ∨
      startsNumber c cs = true ∧ numberLexeme c cs = .error fault ∨
      fault = .unexpectedCharacter c := by
  by_cases hleading : c ∈ leading
  · simp only [leading, List.mem_cons, List.not_mem_nil, or_false] at hleading
    rcases hleading with rfl | rfl | rfl | rfl | rfl | rfl | rfl | rfl | rfl | rfl
    iterate 8 cases h
    · exact .inl (eq_error_of_map h)
    · exact .inr (.inl (eq_error_of_map h))
  · rw [lexeme_other hleading] at h
    split at h
    case isTrue hstart => exact .inr (.inr (.inl ⟨hstart, eq_error_of_map h⟩))
    case isFalse =>
      split at h
      · cases h
      · exact .inr (.inr (.inr (Except.error.inj h).symm))

end

/-! ### Symbols -/

/-- The text of a symbol: it starts as a symbol and not as a number, and goes on as a symbol. -/
structure IsWord (c : Char) (cs : List Char) : Prop where
  start : isSymbolStart c = true
  notNumber : startsNumber c cs = false
  tail : ∀ x ∈ cs, isSymbolChar x = true

theorem IsWord.of_all {c : Char} {cs : List Char} (hstart : isSymbolStart c = true)
    (hnumber : startsNumber c cs = false) (htail : cs.all isSymbolChar = true) : IsWord c cs :=
  ⟨hstart, hnumber, List.all_eq_true.mp htail⟩

theorem startsNumber_append {c : Char} {cs rest : List Char} (hrest : Ended rest)
    (h : startsNumber c cs = false) : startsNumber c (cs ++ rest) = false := by
  cases cs with
  | cons x cs => exact h
  | nil =>
      cases rest with
      | nil => exact h
      | cons x rest =>
          have hx : x.isDigit = false := hrest.stop (p := Char.isDigit) (by decide) (by decide) rfl
          unfold startsNumber at h ⊢
          simp_all

theorem startsNumber_takeWhile {c : Char} {cs : List Char} (p : Char → Bool)
    (h : startsNumber c cs = false) : startsNumber c (cs.takeWhile p) = false := by
  cases cs with
  | nil => exact h
  | cons x cs =>
      cases hx : p x <;> simp_all [startsNumber]

theorem IsWord.lexeme {c : Char} {cs rest : List Char} (h : IsWord c cs) (hrest : Ended rest) :
    lexeme c (cs ++ rest) = .ok (some (.atom (ofSymbol (c :: cs))), cs.length) := by
  rw [lexeme_symbol h.start (startsNumber_append hrest h.notNumber),
    hrest.takeWhile_append (by decide) (by decide) h.tail]

/-! ### Numbers -/

theorem numberBody_digits {ds rest : List Char} (hds : Digits.Proper ds) (hrest : Ended rest) :
    numberBody (ds ++ rest) = (ds, false) := by
  unfold numberBody
  rw [hrest.takeWhile_append (by decide) (by decide) hds.isDigit,
    hrest.dropWhile_append (by decide) (by decide) hds.isDigit]
  cases rest with
  | nil => rfl
  | cons c rest => rcases hrest c rfl with rfl | rfl <;> rfl

theorem numberBody_point {w f rest : List Char} (hw : Digits.Proper w) (hf : Digits.Proper f)
    (hrest : Ended rest) : numberBody (w ++ '.' :: f ++ rest) = (w ++ '.' :: f, true) := by
  obtain ⟨d, ds, rfl⟩ := List.exists_cons_of_ne_nil hf.ne_nil
  have hd : d.isDigit = true := hf.isDigit d List.mem_cons_self
  have hds : ∀ c ∈ ds, c.isDigit = true := fun c hc => hf.isDigit c (List.mem_cons_of_mem _ hc)
  unfold numberBody
  rw [List.append_assoc, List.takeWhile_append_of_pos hw.isDigit,
    List.dropWhile_append_of_pos hw.isDigit]
  simp [hd, hrest.takeWhile_append (by decide) (by decide) hds]

/-- What follows a number does not make it a bad one. -/
theorem Ended.not_bad {α : Type} {rest : List Char} (bad : Char → α) (good : α) :
    Ended rest →
      (match rest with
        | c :: _ => if isSymbolChar c && c != '.' then bad c else good
        | [] => good) = good := by
  intro h
  cases rest with
  | nil => rfl
  | cons c rest =>
      have hc : isSymbolChar c = false := h.stop (by decide) (by decide) rfl
      simp [hc]

/-- The number that a text stands for, if it is the text of one. -/
def numberValue? (isReal : Bool) (text : List Char) : Option Value :=
  if isReal then (Numeral.toDecimal? text).map .real else (Numeral.toInt? text).map .int

theorem numberLexeme_minus {body rest : List Char} {isReal : Bool} {v : Value}
    (hbody : numberBody (body ++ rest) = (body, isReal)) (hrest : Ended rest)
    (hv : numberValue? isReal ('-' :: body) = some v) :
    numberLexeme '-' (body ++ rest) = .ok (v, body.length) := by
  unfold numberLexeme
  simp only [beq_self_eq_true, Bool.true_or, if_true, hbody, List.drop_left]
  refine (Ended.not_bad _ _ hrest).trans ?_
  cases isReal with
  | false =>
      obtain ⟨n, hn, rfl⟩ := Option.map_eq_some_iff.mp hv
      simp [hn]
  | true =>
      obtain ⟨d, hd, rfl⟩ := Option.map_eq_some_iff.mp hv
      simp [hd]

theorem numberLexeme_digit {d : Char} {ds rest : List Char} {isReal : Bool} {v : Value}
    (hd : d.isDigit = true) (hbody : numberBody (d :: ds ++ rest) = (d :: ds, isReal))
    (hrest : Ended rest) (hv : numberValue? isReal (d :: ds) = some v) :
    numberLexeme d (ds ++ rest) = .ok (v, ds.length) := by
  have hminus : d ≠ '-' := by
    rintro rfl
    exact absurd hd (by decide)
  have hplus : d ≠ '+' := by
    rintro rfl
    exact absurd hd (by decide)
  rw [List.cons_append] at hbody
  unfold numberLexeme
  simp only [beq_eq_false_iff_ne.mpr hminus, beq_eq_false_iff_ne.mpr hplus, Bool.or_self,
    Bool.false_eq_true, if_false, hbody, List.length_cons, Nat.add_sub_cancel, List.drop_left]
  refine (Ended.not_bad _ _ hrest).trans ?_
  cases isReal with
  | false =>
      obtain ⟨n, hn, rfl⟩ := Option.map_eq_some_iff.mp hv
      simp [hn]
  | true =>
      obtain ⟨d, hd, rfl⟩ := Option.map_eq_some_iff.mp hv
      simp [hd]

/-- The text of a number, of which scanning finds the whole body, is one lexeme. -/
theorem lexeme_signed {n : Int} {body rest : List Char} {isReal : Bool} {v : Value}
    (hdigit : ∃ d ds, body = d :: ds ∧ d.isDigit = true)
    (hbody : numberBody (body ++ rest) = (body, isReal)) (hrest : Ended rest)
    (hv : numberValue? isReal (Numeral.sign n ++ body) = some v) :
    ∃ c cs, Numeral.sign n ++ body = c :: cs ∧
      lexeme c (cs ++ rest) = .ok (some (.atom v), cs.length) := by
  obtain ⟨d, ds, rfl, hd⟩ := hdigit
  unfold Numeral.sign at hv ⊢
  by_cases hn : n < 0
  · rw [if_pos hn] at hv ⊢
    refine ⟨'-', d :: ds, rfl, ?_⟩
    rw [lexeme_number (by simp [startsNumber, hd]), numberLexeme_minus hbody hrest hv]
    rfl
  · rw [if_neg hn] at hv ⊢
    refine ⟨d, ds, rfl, ?_⟩
    rw [lexeme_number (by simp [startsNumber, hd]), numberLexeme_digit hd hbody hrest hv]
    rfl

theorem lexeme_int (n : Int) {rest : List Char} (hrest : Ended rest) :
    ∃ c cs, Numeral.ofInt n = c :: cs ∧
      lexeme c (cs ++ rest) = .ok (some (.atom (.int n)), cs.length) := by
  have hds : Digits.Proper (Digits.ofNat n.natAbs) := Digits.proper_ofNat _
  have hv : numberValue? false (Numeral.ofInt n) = some (.int n) := by
    simp [numberValue?, Numeral.toInt?_ofInt]
  exact lexeme_signed hds.exists_cons (numberBody_digits hds hrest) hrest hv

theorem lexeme_real {d : Decimal} (hd : Word.fitsSigned 64 d.scale = true) {rest : List Char}
    (hrest : Ended rest) :
    ∃ c cs, Numeral.ofDecimal d = c :: cs ∧
      lexeme c (cs ++ rest) = .ok (some (.atom (.real (Numeral.reread d))), cs.length) := by
  have hw := Numeral.proper_whole d
  have hv : numberValue? true (Numeral.ofDecimal d) = some (.real (Numeral.reread d)) := by
    simp [numberValue?, Numeral.toDecimal?_ofDecimal hd]
  rw [Numeral.ofDecimal_eq, List.append_assoc] at hv ⊢
  refine lexeme_signed ?_ (numberBody_point hw (Numeral.proper_fraction d) hrest) hrest hv
  obtain ⟨x, xs, hx, hdigit⟩ := hw.exists_cons
  exact ⟨x, xs ++ '.' :: Numeral.fraction d, by rw [hx, List.cons_append], hdigit⟩

/-! ### Strings -/

/-- A character that is not a quote and does not start an escape stands for itself. -/
theorem stringBody_plain {c : Char} {cs : List Char} (hquote : c ≠ '"')
    (hescape : c = '\\' → cs = []) :
    stringBody (c :: cs) = (stringBody cs).map fun (text, n) => (c :: text, n + 1) := by
  rw [stringBody]
  · exact hquote
  · intro x xs hc hcs
    rw [hescape hc] at hcs
    cases hcs

theorem stringBody_escapeChar (c : Char) (cs : List Char) :
    stringBody (escapeChar c ++ cs) =
      (stringBody cs).map fun (text, n) => (c :: text, n + (escapeChar c).length) := by
  unfold escapeChar
  split
  all_goals try rfl
  next hquote hescape _ _ _ =>
    rw [List.singleton_append, stringBody_plain hquote fun hc => absurd hc hescape]
    rfl

theorem stringBody_escaped (text rest : List Char) :
    stringBody (text.flatMap escapeChar ++ '"' :: rest) =
      .ok (text, (text.flatMap escapeChar).length + 1) := by
  induction text with
  | nil => rfl
  | cons c text ih =>
      rw [List.flatMap_cons, List.append_assoc, stringBody_escapeChar, ih]
      simp only [Except.map, List.length_append]
      congr 2
      omega

theorem lexeme_string (text rest : List Char) :
    lexeme '"' (text.flatMap escapeChar ++ '"' :: rest) =
      .ok (some (.atom (.str (String.ofList text))), (text.flatMap escapeChar).length + 1) := by
  simp only [lexeme, stringBody_escaped]
  rfl

/-! ### Bytes -/

theorem hexValue_digitChar {n : Nat} (h : n < 16) :
    isHexDigit (Nat.digitChar n) = true ∧ hexValue (Nat.digitChar n) = n := by
  have hall : ∀ k : Fin 16,
      isHexDigit (Nat.digitChar k) = true ∧ hexValue (Nat.digitChar k) = k := by
    decide
  exact hall ⟨n, h⟩

theorem lexeme_byte (b : UInt8) {rest : List Char} (hrest : Ended rest) :
    lexeme '#' ('x' :: byteDigits b ++ rest) =
      .ok (some (.atom (.byte b)), ('x' :: byteDigits b).length) := by
  have hb : b.toNat < 256 := b.toNat_lt
  obtain ⟨hhigh, vhigh⟩ := hexValue_digitChar (n := b.toNat / 16) (by omega)
  obtain ⟨hlow, vlow⟩ := hexValue_digitChar (n := b.toNat % 16) (by omega)
  have hdigits : ∀ c ∈ byteDigits b, isHexDigit c = true := by
    intro c hc
    simp only [byteDigits, List.mem_cons, List.not_mem_nil, or_false] at hc
    rcases hc with rfl | rfl
    · exact hhigh
    · exact hlow
  have hvalue : (byteDigits b).foldl (fun n c => n * 16 + hexValue c) 0 = b.toNat := by
    simp only [byteDigits, List.foldl_cons, List.foldl_nil, vhigh, vlow]
    omega
  have htake := hrest.takeWhile_append (by decide) (by decide) hdigits
  simp only [lexeme, List.cons_append, hashLexeme, htake, hvalue]
  rw [if_neg (by simp [byteDigits, hb])]
  simp [Except.map, Nat.add_comm]

end Token

/-! ### Values that a text can hold -/

namespace Value

open Token

/-- The value can stand in a source text. -/
def Readable : Value → Prop
  | .nil | .bool _ | .int _ | .byte _ | .str _ => True
  | .real d => Word.fitsSigned 64 d.scale = true
  | .ident name => ∃ c cs, name.toList = c :: cs ∧ IsWord c cs ∧ ofSymbol (c :: cs) = .ident name
  | _ => False

/-- The value that its text stands for: a real has the places that its text has. -/
def reread : Value → Value
  | .real d => .real (Numeral.reread d)
  | v => v

/-- The same value; reals are compared as numbers. -/
def same : Value → Value → Bool
  | .real a, .real b => a.same b
  | v, w => v == w

theorem same_reread (v : Value) : v.same v.reread = true := by
  cases v with
  | real d => exact Numeral.same_reread d
  | _ => simp [same, reread]

theorem readable_apply : Readable (.ident "apply") :=
  ⟨'a', "pply".toList, by decide, .of_all (by decide) (by decide) (by decide), by decide⟩

theorem readable_quote : Readable (.ident "quote") :=
  ⟨'q', "uote".toList, by decide, .of_all (by decide) (by decide) (by decide), by decide⟩

/-- A word's value is printed as the word. -/
theorem lexeme_word {text : String} {v : Value} {c : Char} {cs rest : List Char}
    (htext : text.toList = c :: cs) (hword : IsWord c cs) (hv : ofSymbol (c :: cs) = v)
    (hrest : Ended rest) :
    ∃ c cs, text.toList = c :: cs ∧ lexeme c (cs ++ rest) = .ok (some (.atom v), cs.length) :=
  ⟨c, cs, htext, by rw [hword.lexeme hrest, hv]⟩

/-- **A value that a text can hold is printed as one lexeme**, which stands for the same value. -/
theorem Readable.lexeme {v : Value} (hv : v.Readable) (h : Heap) {rest : List Char}
    (hrest : Ended rest) :
    ∃ c cs, (h.print v).toList = c :: cs ∧
      lexeme c (cs ++ rest) = .ok (some (.atom v.reread), cs.length) := by
  obtain ⟨depth, hdepth⟩ : ∃ depth, h.nesting = depth + 1 := ⟨_, rfl⟩
  rw [Heap.print, hdepth]
  cases v with
  | nil =>
      have hword : IsWord 'n' ['i', 'l'] :=
        .of_all (by decide) (by decide) (by decide)
      exact lexeme_word (by simp only [Heap.printWithin]; decide) hword (by decide) hrest
  | bool b =>
      cases b with
      | false =>
          have hword : IsWord 'f' ['a', 'l', 's', 'e'] :=
            .of_all (by decide) (by decide) (by decide)
          exact lexeme_word (by simp only [Heap.printWithin]; decide) hword (by decide) hrest
      | true =>
          have hword : IsWord 't' ['r', 'u', 'e'] :=
            .of_all (by decide) (by decide) (by decide)
          exact lexeme_word (by simp only [Heap.printWithin]; decide) hword (by decide) hrest
  | int n =>
      simp only [Heap.printWithin, String.toList_ofList]
      exact lexeme_int n hrest
  | real d =>
      simp only [Heap.printWithin, String.toList_ofList]
      exact lexeme_real hv hrest
  | byte b =>
      simp only [Heap.printWithin, String.toList_ofList]
      exact ⟨'#', 'x' :: byteDigits b, rfl, lexeme_byte b hrest⟩
  | str text =>
      simp only [Heap.printWithin, escaped, String.toList_ofList]
      refine ⟨'"', text.toList.flatMap escapeChar ++ ['"'], rfl, ?_⟩
      rw [List.append_assoc, List.singleton_append, lexeme_string]
      simp [reread]
  | ident name =>
      obtain ⟨c, cs, hname, hword, hsymbol⟩ := hv
      simp only [Heap.printWithin]
      exact lexeme_word hname hword hsymbol hrest
  | list _ => exact hv.elim
  | table _ => exact hv.elim
  | emptyStream => exact hv.elim
  | function _ => exact hv.elim
  | lock _ => exact hv.elim
  | thread _ => exact hv.elim

/-! ### Tokens hold readable values -/

theorem readable_ofSymbol {c : Char} {cs : List Char} (h : IsWord c cs) :
    Readable (ofSymbol (c :: cs)) := by
  unfold ofSymbol
  split
  · trivial
  · split
    · trivial
    · split
      · trivial
      · refine ⟨c, cs, String.toList_ofList, h, ?_⟩
        unfold ofSymbol
        simp_all only [if_false]

/-- A number is read as the decimal or as the integer of its digits. -/
theorem value_of_numberLexeme {c : Char} {cs : List Char} {v : Value} {n : Nat}
    (h : numberLexeme c cs = .ok (v, n)) :
    (∃ digits d, Numeral.toDecimal? digits = some d ∧ v = .real d) ∨ ∃ i, v = .int i := by
  unfold numberLexeme at h
  simp only at h
  -- The value is computed in the same way at the end of the text and before another character.
  repeat' split at h
  all_goals cases h
  all_goals first
    | exact .inl ⟨_, _, by assumption, rfl⟩
    | exact .inr ⟨_, rfl⟩

theorem readable_of_numberLexeme {c : Char} {cs : List Char} {v : Value} {n : Nat}
    (h : numberLexeme c cs = .ok (v, n)) : v.Readable := by
  obtain ⟨digits, d, hd, rfl⟩ | ⟨i, rfl⟩ := value_of_numberLexeme h
  · exact Numeral.fits_of_toDecimal? hd
  · trivial

/-- Every token of a text holds a value that a text can hold. -/
theorem readable_of_lexeme {c : Char} {cs : List Char} {v : Value} {n : Nat}
    (h : Token.lexeme c cs = .ok (some (.atom v), n)) : v.Readable := by
  cases starts_of_lexeme h with
  | string => trivial
  | hash hhash => cases hhash <;> trivial
  | number _ hnumber => exact readable_of_numberLexeme hnumber
  | symbol hstart hnumber =>
      refine readable_ofSymbol ⟨hstart, startsNumber_takeWhile _ hnumber, ?_⟩
      exact List.all_eq_true.mp List.all_takeWhile

end Value

end DispatchLisp
