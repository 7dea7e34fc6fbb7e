import DispatchLisp.Proofs.Places
import DispatchLisp.Proofs.RoundTrip

/-! # Texts line by line

A text that can be read by itself is read in the same way in front of a line break, whatever follows
the break, and what follows is read as if it stood alone, only further down.

* A text that can be scanned is complete where a line break follows it (`Token.lexeme_line`), so the
  tokens of two texts are put one after the other (`Token.walkFrom_line`).
* Where a text stands matters to the places of its tokens and of its faults, and to nothing else
  (`Token.walkFrom_below`, `Node.ofTokens_below`).

`Node.readAll_line` puts them together, and `Node.readAll_lines` says what this means for expressions
and for faults. -/

namespace DispatchLisp

namespace Token

/-- **The tokens before a line break and those after it.** -/
theorem walkFrom_line {cs : List Char} {skip : Nat} {place : Position} {ts : List Placed}
    (h : walkFrom cs skip place = .ok ts) (hskip : skip ≤ cs.length) (rest : List Char) :
    walkFrom (cs ++ '\n' :: rest) skip place =
      (walkFrom rest 0 ((cs.foldl Position.next place).next '\n')).map (ts ++ ·) := by
  fun_induction walkFrom cs skip place generalizing ts with
  | case1 skip place =>
      cases h
      obtain rfl := Nat.le_zero.mp hskip
      exact (congrFun Except.map_id _).symm
  | case2 c cs skip place ih => exact ih h (Nat.le_of_succ_le_succ hskip)
  | case3 => cases h
  | case4 c cs place n hlexeme ih =>
      obtain ⟨hline, hn⟩ := lexeme_line hlexeme rest
      simp only [List.cons_append, walkFrom, hline]
      exact ih h hn
  | case5 c cs place t n hlexeme ih =>
      obtain ⟨ts, hts, rfl⟩ := eq_ok_of_map h
      obtain ⟨hline, hn⟩ := lexeme_line hlexeme rest
      simp only [List.cons_append, walkFrom, hline, ih hts hn, List.foldl_cons]
      cases walkFrom rest 0 ((cs.foldl Position.next (place.next c)).next '\n') <;> rfl

end Token

/-! ### Further down -/

/-- The place `k` lines below. -/
def Position.below (k : Nat) (p : Position) : Position := ⟨p.line + k, p.column⟩

/-- The token `k` lines below. -/
def Placed.below (k : Nat) (t : Placed) : Placed := ⟨t.token, t.place.below k⟩

/-- A fault in a text that stands `k` lines below. -/
def Cause.below (k : Nat) : Cause → Cause
  | .read fault place => .read fault (place.below k)
  | c => c

theorem Position.below_next (k : Nat) (p : Position) (c : Char) :
    (p.below k).next c = (p.next c).below k := by
  unfold Position.next
  split
  · simp only [Position.below, Nat.add_right_comm]
  · rfl

/-- The place after a text and a line break: the first of a new line. -/
theorem Position.foldl_next_newline (cs : List Char) (p : Position) :
    (cs.foldl Position.next p).next '\n' = ⟨p.line + (cs.count '\n' + 1), 1⟩ := by
  induction cs generalizing p with
  | nil => rfl
  | cons c cs ih =>
      rw [List.foldl_cons, ih, List.count_cons, Position.next]
      by_cases hc : c = '\n'
      · simp [hc]
        omega
      · simp [hc]

theorem Token.walkFrom_below (k : Nat) (cs : List Char) (skip : Nat) (place : Position) :
    walkFrom cs skip (place.below k) =
      ((walkFrom cs skip place).map (List.map (Placed.below k))).mapError (Cause.below k) := by
  fun_induction walkFrom cs skip place with
  | case1 => rfl
  | case2 c cs skip place ih => rw [walkFrom, Position.below_next, ih]
  | case3 c cs place fault hlexeme =>
      simp only [walkFrom, hlexeme]
      rfl
  | case4 c cs place n hlexeme ih => simp only [walkFrom, hlexeme, Position.below_next, ih]
  | case5 c cs place t n hlexeme ih =>
      simp only [walkFrom, hlexeme, Position.below_next, ih]
      cases walkFrom cs n (place.next c) <;> rfl

namespace Node

/-- The open expression `k` lines below. -/
def Open.below (k : Nat) : Open → Open
  | .list place items => .list (place.below k) items
  | .quote place => .quote (place.below k)

variable (k : Nat)

theorem complete_below (n : Node) (stack : List Open) :
    complete n (stack.map (Open.below k)) =
      ((complete n stack).1.map (Open.below k), (complete n stack).2) := by
  fun_induction complete n stack with
  | case1 => rfl
  | case2 n place stack ih => exact ih
  | case3 => rfl

theorem feed_below (t : Placed) (stack : List Open) :
    feed (t.below k) (stack.map (Open.below k)) =
      ((feed t stack).map fun next => (next.1.map (Open.below k), next.2)).mapError
        (Cause.below k) := by
  obtain ⟨token, place⟩ := t
  cases token with
  | opening => rfl
  | quote => rfl
  | atom v => exact congrArg Except.ok (complete_below k (atom v) stack)
  | closing =>
      cases stack with
      | nil => rfl
      | cons first outer =>
          cases first with
          | quote => rfl
          | list _ items =>
              exact congrArg Except.ok (complete_below k (ofItems items.reverse) outer)

theorem endFault?_below (stack : List Open) :
    endFault? (stack.map (Open.below k)) = (endFault? stack).map (Cause.below k) := by
  cases stack with
  | nil => rfl
  | cons first outer => cases first <;> rfl

/-- **Expressions do not depend on where they stand**, and faults are reported further down. -/
theorem ofTokens_below (ts : List Placed) (stack : List Open) :
    ofTokens (ts.map (Placed.below k)) (stack.map (Open.below k)) =
      (ofTokens ts stack).mapError (Cause.below k) := by
  induction ts generalizing stack with
  | nil =>
      simp only [List.map_nil, ofTokens, endFault?_below]
      cases endFault? stack <;> rfl
  | cons t ts ih =>
      simp only [List.map_cons, ofTokens, feed_below]
      rcases feed t stack with c | ⟨outer, _ | n⟩
      · rfl
      · exact ih outer
      · simp only [Except.map, Except.mapError, ih outer]
        cases ofTokens ts outer <;> rfl

/-- No expression goes on over the end of tokens that can be read by themselves. -/
theorem ofTokens_append {ts : List Placed} {stack : List Open} {ns : List Node}
    (h : ofTokens ts stack = .ok ns) (us : List Placed) :
    ofTokens (ts ++ us) stack = (ofTokens us []).map (ns ++ ·) := by
  fun_induction ofTokens ts stack generalizing ns with
  | case1 stack hend =>
      cases h
      rw [endFault?_eq_none hend]
      exact (congrFun Except.map_id _).symm
  | case2 => cases h
  | case3 => cases h
  | case4 t ts stack outer hfeed ih =>
      simp only [List.cons_append, ofTokens, hfeed]
      exact ih h
  | case5 t ts stack outer n hfeed ih =>
      obtain ⟨ns, hns, rfl⟩ := eq_ok_of_map h
      simp only [List.cons_append, ofTokens, hfeed, ih hns]
      cases ofTokens us [] <;> rfl

/-- **Two texts with a line break between them** are read one after the other, and the faults of the
second are reported further down. -/
theorem readAll_line {a : String} {ns : List Node} (h : readAll a = .ok ns) (b : String) :
    readAll (a ++ "\n" ++ b) =
      ((readAll b).mapError (Cause.below (a.toList.count '\n' + 1))).map (ns ++ ·) := by
  have htext : (a ++ "\n" ++ b).toList = a.toList ++ '\n' :: b.toList := by
    simp only [String.toList_append, List.append_assoc]
    rfl
  unfold readAll at h ⊢
  rw [Token.scan_eq_walkFrom] at h ⊢
  cases hscan : Token.walkFrom a.toList 0 .start with
  | error c =>
      rw [hscan] at h
      cases h
  | ok ts =>
      rw [hscan] at h
      have hplace : (a.toList.foldl Position.next .start).next '\n' =
          Position.start.below (a.toList.count '\n' + 1) := by
        rw [Position.foldl_next_newline, Position.below]
        rfl
      rw [htext, Token.walkFrom_line hscan (Nat.zero_le _), hplace, Token.walkFrom_below]
      rw [Token.scan_eq_walkFrom b]
      cases Token.walkFrom b.toList 0 .start with
      | error c => rfl
      | ok us =>
          change ofTokens (ts ++ us.map (Placed.below _)) [] = _
          rw [ofTokens_append h]
          exact congrArg _ (ofTokens_below _ us [])

/-! ### Faults of the second text -/

theorem scanFrom_error {cs : List Char} {skip : Nat} {place : Position} {c : Cause}
    (h : Token.scanFrom cs skip place = .error c) : ∃ fault p, c = .read fault p := by
  fun_induction Token.scanFrom cs skip place with
  | case1 => cases h
  | case2 c cs skip place ih => exact ih h
  | case3 c cs place fault hlexeme => exact ⟨fault, place, (Except.error.inj h).symm⟩
  | case4 c cs place n hlexeme ih => exact ih h
  | case5 c cs place t n hlexeme ih => exact ih (eq_error_of_map h)

theorem feed_error {t : Placed} {stack : List Open} {c : Cause} (h : feed t stack = .error c) :
    c = .read .unexpectedClose t.place := by
  unfold feed at h
  split at h
  · cases h
  · cases h
  · split at h
    · cases h
    · exact (Except.error.inj h).symm
  · cases h

theorem endFault?_read {stack : List Open} {c : Cause} (h : endFault? stack = some c) :
    ∃ fault place, c = .read fault place := by
  cases stack with
  | nil => cases h
  | cons first outer =>
      cases first with
      | quote place => exact ⟨_, _, (Option.some.inj h).symm⟩
      | list place items => exact ⟨_, _, (Option.some.inj h).symm⟩

theorem ofTokens_error {ts : List Placed} {stack : List Open} {c : Cause}
    (h : ofTokens ts stack = .error c) : ∃ fault place, c = .read fault place := by
  fun_induction ofTokens ts stack with
  | case1 stack hend => cases h
  | case2 stack fault hend =>
      cases h
      exact endFault?_read hend
  | case3 t ts stack fault hfeed =>
      cases h
      exact ⟨_, _, feed_error hfeed⟩
  | case4 t ts stack outer hfeed ih => exact ih h
  | case5 t ts stack outer n hfeed ih => exact ih (eq_error_of_map h)

/-- A text that cannot be read has a fault at a place. -/
theorem readAll_error {text : String} {c : Cause} (h : readAll text = .error c) :
    ∃ fault place, c = .read fault place := by
  unfold readAll Token.scan at h
  cases hscan : Token.scanFrom text.toList 0 .start with
  | error c' =>
      rw [hscan] at h
      cases h
      exact scanFrom_error hscan
  | ok ts =>
      rw [hscan] at h
      exact ofTokens_error h

/-- **Reading goes line by line.**  After a text that can be read and a line break, the expressions of
the second text follow those of the first; a fault of the second text is the same fault, in the same
column and as many lines further down as the first text and the break have. -/
theorem readAll_lines {a : String} {ns : List Node} (ha : readAll a = .ok ns) (b : String) :
    (∀ ms, readAll b = .ok ms → readAll (a ++ "\n" ++ b) = .ok (ns ++ ms)) ∧
    ∀ c, readAll b = .error c → ∃ fault line column, c = .read fault ⟨line, column⟩ ∧
      readAll (a ++ "\n" ++ b) =
        .error (.read fault ⟨line + 1 + a.toList.count '\n', column⟩) := by
  have hline := readAll_line ha b
  refine ⟨fun ms hms => ?_, fun c hc => ?_⟩
  · rw [hline, hms]
    rfl
  · obtain ⟨fault, place, rfl⟩ := readAll_error hc
    refine ⟨fault, place.line, place.column, rfl, ?_⟩
    rw [hline, hc, Nat.add_assoc, Nat.add_comm 1]
    rfl

/-- The first text ends in a comment and has a string over two lines; the second one leaves a list
open on its second line. -/
theorem readAll_lines_comment :
    (∃ ns, readAll "(f \"p\nq\") ;r" = .ok ns ∧
      ∃ ms, readAll "1\n(2)" = .ok ms ∧
        readAll ("(f \"p\nq\") ;r" ++ "\n" ++ "1\n(2)") = .ok (ns ++ ms)) ∧
    readAll "1\n (2" = .error (.read .unterminatedList ⟨2, 2⟩) ∧
    readAll ("(f \"p\nq\") ;r" ++ "\n" ++ "1\n (2") =
      .error (.read .unterminatedList ⟨4, 2⟩) := by
  obtain ⟨ns, hns⟩ : ∃ ns, readAll "(f \"p\nq\") ;r" = .ok ns := ⟨_, rfl⟩
  obtain ⟨ms, hms⟩ : ∃ ms, readAll "1\n(2)" = .ok ms := ⟨_, rfl⟩
  have hopen : readAll "1\n (2" = .error (.read .unterminatedList ⟨2, 2⟩) := rfl
  obtain ⟨fault, line, column, hfault, hjoined⟩ := (readAll_lines hns _).2 _ hopen
  obtain ⟨rfl, hplace⟩ := Cause.read.inj hfault
  obtain ⟨rfl, rfl⟩ := Position.mk.inj hplace
  exact ⟨⟨ns, hns, ms, hms, (readAll_lines hns _).1 ms hms⟩, hopen, hjoined⟩

end Node

end DispatchLisp
