import DispatchLisp.Proofs.Lines
import Mathlib.Data.List.Forall2

/-! # Lists of texts

Expressions that can be read by themselves are read in the same way inside a list that is open
around them: what is open outside waits and is not touched (`Node.feed_inside`), and each expression
becomes an item of the list (`Node.ofTokens_inside`).  So parentheses around tokens make one form of
all that the tokens stand for (`Node.ofTokens_enclosed`).

`Node.enclose` writes texts as a list, each on a line of its own, and `Node.readOne_enclose` says
what is read: the form whose items are the expressions of the texts. -/

namespace DispatchLisp.Node

/-! ### Inside an open list -/

/-- What a token leads to with more open outside: an expression that it completes is handed to what
is open there. -/
def inside (outside : List Open) : List Open × Option Node → List Open × Option Node
  | (inner, none) => (inner ++ outside, none)
  | (_, some n) => complete n outside

theorem complete_inside (n : Node) (inner outside : List Open) :
    complete n (inner ++ outside) = inside outside (complete n inner) := by
  fun_induction complete n inner with
  | case1 => rfl
  | case2 n place inner ih => exact ih
  | case3 => rfl

/-- A token that is in its place inside is so with more open outside. -/
theorem feed_inside {t : Placed} {inner : List Open} {next : List Open × Option Node}
    (h : feed t inner = .ok next) (outside : List Open) :
    feed t (inner ++ outside) = .ok (inside outside next) := by
  unfold feed at h ⊢
  cases htoken : t.token with
  | opening =>
      rw [htoken] at h
      cases h
      rfl
  | quote =>
      rw [htoken] at h
      cases h
      rfl
  | closing =>
      rw [htoken] at h
      dsimp only at h
      split at h
      · next place items inner =>
        cases h
        exact congrArg Except.ok (complete_inside (ofItems items.reverse) inner outside)
      · cases h
  | atom v =>
      rw [htoken] at h
      cases h
      exact congrArg Except.ok (complete_inside (atom v) inner outside)

/-- **Expressions that are read inside a list become items of it.** -/
theorem ofTokens_inside {ts : List Placed} {inner : List Open} {ns : List Node}
    (h : ofTokens ts inner = .ok ns) (rest : List Placed) (place : Position) (items : List Node)
    (stack : List Open) :
    ofTokens (ts ++ rest) (inner ++ .list place items :: stack) =
      ofTokens rest (.list place (ns.reverse ++ items) :: stack) := by
  fun_induction ofTokens ts inner generalizing ns items with
  | case1 inner hend =>
      cases h
      rw [endFault?_eq_none hend]
      rfl
  | case2 => cases h
  | case3 => cases h
  | case4 t ts inner next hfeed ih =>
      rw [List.cons_append, ofTokens_cons (feed_inside hfeed _)]
      exact ih h items
  | case5 t ts inner next n hfeed ih =>
      obtain ⟨ns, hns, rfl⟩ := eq_ok_of_map h
      obtain rfl := feed_some hfeed
      rw [List.cons_append, ofTokens_cons (feed_inside hfeed _), List.reverse_cons,
        List.append_assoc, List.singleton_append]
      exact ih hns (n :: items)

/-- **Parentheses make one form of what stands between them.** -/
theorem ofTokens_enclosed {first last : Placed} {ts : List Placed} {ns : List Node}
    (hfirst : first.token = .opening) (hlast : last.token = .closing)
    (h : ofTokens ts [] = .ok ns) :
    ofTokens (first :: (ts ++ [last])) [] = .ok [ofItems ns] := by
  have hitems : ofTokens (ts ++ [last]) [.list first.place []] =
      ofTokens [last] [.list first.place (ns.reverse ++ [])] := ofTokens_inside h _ _ _ _
  rw [ofTokens_opening hfirst, hitems, ofTokens_closing hlast, List.append_nil,
    List.reverse_reverse]
  rfl

/-! ### Texts -/

theorem readAll_eq_ok_iff {text : String} {ns : List Node} :
    readAll text = .ok ns ↔ ∃ ts, Token.scan text = .ok ts ∧ ofTokens ts [] = .ok ns := by
  unfold readAll
  cases Token.scan text <;> simp [Except.bind]

/-- A text with parentheses on the lines above and below. -/
theorem readAll_enclosed {text : String} {ns : List Node} (h : readAll text = .ok ns) :
    readAll ("(\n" ++ text ++ "\n)") = .ok [ofItems ns] := by
  obtain ⟨ts, hscan, hread⟩ := readAll_eq_ok_iff.mp h
  -- The text stands one line below where it stands by itself.
  have hbelow : Token.walkFrom text.toList 0 (Position.start.below 1) =
      .ok (ts.map (Placed.below 1)) := by
    rw [Token.scan_eq_walkFrom] at hscan
    rw [Token.walkFrom_below, hscan]
    rfl
  have hinner : ofTokens (ts.map (Placed.below 1)) [] = .ok ns := by
    have hmoved := ofTokens_below 1 ts []
    rw [hread] at hmoved
    exact hmoved
  let last : Placed :=
    ⟨.closing, (text.toList.foldl Position.next (Position.start.below 1)).next '\n'⟩
  have hline : Token.walkFrom (text.toList ++ '\n' :: [')']) 0 (Position.start.below 1) =
      .ok (ts.map (Placed.below 1) ++ [last]) := by
    rw [Token.walkFrom_line hbelow (Nat.zero_le _)]
    rfl
  refine readAll_eq_ok_iff.mpr ⟨⟨.opening, .start⟩ :: (ts.map (Placed.below 1) ++ [last]), ?_,
    ofTokens_enclosed rfl rfl hinner⟩
  have htext : ("(\n" ++ text ++ "\n)").toList =
      '(' :: '\n' :: (text.toList ++ '\n' :: [')']) := by
    simp only [String.toList_append]
    rfl
  have hopen : ∀ cs, Token.walkFrom ('(' :: '\n' :: cs) 0 .start =
      (Token.walkFrom cs 0 (Position.start.below 1)).map (⟨.opening, .start⟩ :: ·) := fun _ => rfl
  rw [Token.scan_eq_walkFrom, htext, hopen, hline]
  rfl

/-- The text of a list of texts, each of them on lines of its own. -/
def enclose (texts : List String) : String := "(\n" ++ "\n".intercalate texts ++ "\n)"

/-- Texts with one expression each, one below the other. -/
theorem readAll_intercalate {texts : List String} {ns : List Node}
    (h : List.Forall₂ (fun text n => readOne text = .ok n) texts ns) :
    readAll ("\n".intercalate texts) = .ok ns := by
  induction h with
  | nil => rfl
  | @cons text n texts ns hread hreads ih =>
      have hfirst := readOne_eq_ok_iff.mp hread
      cases hreads with
      | nil => simpa using hfirst
      | cons =>
          rw [String.intercalate_cons_cons, readAll_line hfirst, ih]
          rfl

/-- **A list of texts is read as the form of their expressions.** -/
theorem readOne_enclose {texts : List String} {ns : List Node}
    (h : List.Forall₂ (fun text n => readOne text = .ok n) texts ns) :
    readOne (enclose texts) = .ok (ofItems ns) :=
  readOne_eq_ok_iff.mpr (readAll_enclosed (readAll_intercalate h))

end DispatchLisp.Node
