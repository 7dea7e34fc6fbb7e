import DispatchLisp.Form.Control
import DispatchLisp.Proofs.Datum
import DispatchLisp.Proofs.Enclosure
import DispatchLisp.Session

/-! # Quoting printed data

Data is printed as a text that can be read, and quoting what is read makes data again
(`quote_print`).  Three steps lead from the data that is printed to the data that is made:

* the text of data is scanned into its tokens, which are read as one node
  (`Heap.Holds.readOne_print`);
* quoting a node makes the data that it stands for (`Form.makes_quoted`);
* of the node that data is read as, this is the data itself unless something is lost
  (`Datum.alike_datum_node_iff`).

Two kinds of lists are lost.  The reader gives a list that begins with a list the head `apply`, and
it takes `(nil)` for the same node as `()`.  Data without them is regular (`Heap.Regular`).  A real
keeps its value but not its places, and the equality of reals can tell two numbers of places from
each other (`quote_print_loses_real`). -/

namespace DispatchLisp

/-! ### From data to text and back to a node -/

namespace Datum

mutual

/-- The tokens of the text of data. -/
def tokens : Datum → List Token
  | atom v => [.atom v.reread]
  | list ts => .opening :: (tokensAll ts ++ [.closing])

/-- The tokens of data that stand one after the other. -/
def tokensAll : List Datum → List Token
  | [] => []
  | t :: ts => tokens t ++ tokensAll ts

end

mutual

/-- The node that the text of data is read as. -/
def node : Datum → Node
  | atom v => .atom v.reread
  | list ts => .ofItems (nodes ts)

/-- The nodes that the texts of data are read as. -/
def nodes : List Datum → List Node
  | [] => []
  | t :: ts => node t :: nodes ts

end

theorem nodes_eq_map (ts : List Datum) : nodes ts = ts.map node := by
  induction ts with
  | nil => rfl
  | cons t ts ih => rw [nodes, ih, List.map_cons]

/-- Data that stands one after the other is read so. -/
theorem ofTokens_tokensAll {ts : List Datum}
    (hts : ∀ t ∈ ts, ∀ placed : List Placed, placed.map Placed.token = t.tokens →
      Node.ofTokens placed [] = .ok [t.node])
    {placed : List Placed} (h : placed.map Placed.token = tokensAll ts) :
    Node.ofTokens placed [] = .ok (nodes ts) := by
  induction ts generalizing placed with
  | nil =>
      obtain rfl := List.map_eq_nil_iff.mp h
      rfl
  | cons t ts ih =>
      obtain ⟨hfirst, hothers⟩ := List.forall_mem_cons.mp hts
      obtain ⟨before, after, rfl, hbefore, hafter⟩ := List.map_eq_append_iff.mp h
      rw [Node.ofTokens_append (hfirst before hbefore), ih hothers hafter]
      rfl

/-- **Reading the tokens of data gives its node.** -/
theorem ofTokens_tokens (t : Datum) (placed : List Placed)
    (h : placed.map Placed.token = t.tokens) : Node.ofTokens placed [] = .ok [t.node] := by
  induction t using induct generalizing placed with
  | atom v =>
      obtain ⟨p, ps, rfl, hp, hps⟩ := List.map_eq_cons_iff.mp h
      obtain rfl := List.map_eq_nil_iff.mp hps
      exact Node.ofTokens_atom hp [] []
  | list ts ih =>
      rw [tokens] at h
      obtain ⟨first, others, rfl, hfirst, hothers⟩ := List.map_eq_cons_iff.mp h
      obtain ⟨inner, rest, rfl, hinner, hrest⟩ := List.map_eq_append_iff.mp hothers
      obtain ⟨last, ps, rfl, hlast, hps⟩ := List.map_eq_cons_iff.mp hrest
      obtain rfl := List.map_eq_nil_iff.mp hps
      exact Node.ofTokens_enclosed hfirst hlast (ofTokens_tokensAll ih hinner)

end Datum

namespace Heap

open Token

variable {h : Heap}

theorem printWithin_of_readable {v : Value} (hv : v.Readable) (n : Nat) :
    h.printWithin (n + 1) v = h.print v := by
  cases v with
  | bool b => cases b <;> rfl
  | list => exact hv.elim
  | table => exact hv.elim
  | _ => rfl

/-- Texts with a space between two of them are scanned one after the other. -/
theorem scans_intercalate {n : Nat} {vs : List Value} {ts : List Datum}
    (hvs : List.Forall₂ (fun v t => ∀ rest after, Ended rest → Scans rest after →
      Scans ((h.printWithin n v).toList ++ rest) (Datum.tokens t ++ after)) vs ts)
    {rest : List Char} {after : List Token} (hrest : Ended rest) (hscans : Scans rest after) :
    Scans ((" ".intercalate (vs.map (h.printWithin n))).toList ++ rest)
      (Datum.tokensAll ts ++ after) := by
  induction hvs with
  | nil => exact hscans
  | @cons v t vs ts hv hvs ih =>
      cases hvs with
      | nil => simpa [Datum.tokensAll] using hv rest after hrest hscans
      | cons =>
          rw [List.map_cons, List.map_cons, String.intercalate_cons_cons, ← List.map_cons]
          simpa [Datum.tokensAll] using hv _ _ (ended_space _) ih.space

/-- **The text of data is scanned into its tokens.** -/
theorem Holds.scans_printWithin {v : Value} {t : Datum} (hv : h.Holds v t) {n : Nat}
    (hn : h.NestedWithin n v) {rest : List Char} {after : List Token} (hrest : Ended rest)
    (hscans : Scans rest after) :
    Scans ((h.printWithin n v).toList ++ rest) (t.tokens ++ after) := by
  induction t using Datum.induct generalizing v n rest after with
  | atom w =>
      obtain ⟨hreadable⟩ := hv
      cases n with
      | zero => exact hn.elim
      | succ n =>
          rw [printWithin_of_readable hreadable]
          exact Scans.value hreadable h hrest hscans
  | list ts ih =>
      obtain _ | ⟨hi, hitems⟩ := hv
      cases n with
      | zero => exact hn.elim
      | succ n =>
          have hparts : List.Forall₂ (fun v t => ∀ rest after, Ended rest → Scans rest after →
              Scans ((h.printWithin n v).toList ++ rest) (Datum.tokens t ++ after)) _ ts :=
            forall₂_of_mem hitems fun w hw t ht hwt _ _ => ih t ht hwt (hn w hw)
          have hinner := scans_intercalate hparts (ended_closing rest) hscans.closing
          simpa [printWithin, Datum.tokens] using hinner.opening

/-- **The text of data can be read**, as one expression. -/
theorem Holds.readOne_print {v : Value} {t : Datum} (hv : h.Holds v t) :
    Node.readOne (h.print v) = .ok t.node := by
  have hscans := hv.scans_printWithin hv.acyclic.nestedWithin ended_nil scans_nil
  rw [List.append_nil, List.append_nil] at hscans
  obtain ⟨placed, hplaced, htokens⟩ := hscans .start
  exact Node.readOne_eq_ok_iff.mpr
    (Node.readAll_eq_ok_iff.mpr ⟨placed, hplaced, t.ofTokens_tokens placed htokens⟩)

end Heap

/-! ### From a node to data -/

namespace Node

mutual

/-- The data that a node stands for when it is quoted. -/
def datum : Node → Datum
  | atom v => .atom v
  | form .nil [] => .list []
  | form v kids => .list (.atom v :: data kids)

/-- The data of each node of a list. -/
def data : List Node → List Datum
  | [] => []
  | n :: ns => datum n :: data ns

end

theorem data_eq_map (ns : List Node) : data ns = ns.map datum := by
  induction ns with
  | nil => rfl
  | cons n ns ih => rw [data, ih, List.map_cons]

theorem datum_form {v : Value} {kids : List Node} (h : ¬(v = .nil ∧ kids = [])) :
    datum (form v kids) = .list (.atom v :: kids.map datum) := by
  rw [datum.eq_3 v kids fun hv hkids => h ⟨hv, hkids⟩, data_eq_map]

end Node

namespace Form

theorem quoted_form {v : Value} {kids : List Node} (h : ¬(v = .nil ∧ kids = [])) :
    quoted (.form v kids) = (do
      let items ← quotedAll kids
      HeapM.newList (v :: items)) :=
  quoted.eq_3 v kids fun hv hkids => h ⟨hv, hkids⟩

/-- A computation on the heap ends with a value at which the heap then holds the tree, and has added
lists at most. -/
def Makes (m : HeapM Value) (t : Datum) : Prop :=
  ∀ h : Heap, ∃ w h', m h = (.ok w, h') ∧ h.Extends h' ∧ h'.Holds w t

theorem makes_newList {h : Heap} {items : List Value} {ts : List Datum}
    (hitems : List.Forall₂ h.Holds items ts) :
    ∃ w h', HeapM.newList items h = (.ok w, h') ∧ h.Extends h' ∧ h'.Holds w (.list ts) := by
  have hextends := h.extends_newList items
  have hsize : h.lists.size < (h.newList items).2.lists.size := by simp [Heap.newList]
  have hholds : List.Forall₂ (h.newList items).2.Holds
      ((h.newList items).2.items h.lists.size) ts := by
    rw [Heap.items_newList]
    exact hitems.imp fun _ _ hw => hw.mono hextends
  exact ⟨_, _, rfl, hextends, .list hsize hholds⟩

theorem quotedAll_makes {ns : List Node} (hns : ∀ n ∈ ns, Makes (quoted n) n.datum) (h : Heap) :
    ∃ ws h', quotedAll ns h = (.ok ws, h') ∧ h.Extends h' ∧
      List.Forall₂ h'.Holds ws (ns.map Node.datum) := by
  induction ns generalizing h with
  | nil => exact ⟨[], h, rfl, .refl h, .nil⟩
  | cons n ns ih =>
      obtain ⟨hfirst, hothers⟩ := List.forall_mem_cons.mp hns
      obtain ⟨w, h₁, hw, hh₁, hholds⟩ := hfirst h
      obtain ⟨ws, h₂, hws, hh₂, hall⟩ := ih hothers h₁
      refine ⟨w :: ws, h₂, ?_, hh₁.trans hh₂, .cons (hholds.mono hh₂) hall⟩
      rw [quotedAll, HeapM.bind_ok hw, HeapM.bind_ok hws]
      rfl

/-- **Quoting a node makes its data.** -/
theorem makes_quoted {n : Node} (hn : n.Readable) : Makes (quoted n) n.datum := by
  induction hn with
  | atom hv => exact fun h => ⟨_, h, rfl, .refl h, .atom hv⟩
  | @form v kids hv hkids ih =>
      intro h
      by_cases hempty : v = .nil ∧ kids = []
      · obtain ⟨rfl, rfl⟩ := hempty
        exact makes_newList .nil
      · obtain ⟨ws, h₁, hws, hh₁, hall⟩ := quotedAll_makes ih h
        obtain ⟨w, h₂, hw, hh₂, hholds⟩ := makes_newList (.cons (.atom hv) hall)
        rw [Node.datum_form hempty, quoted_form hempty, HeapM.bind_ok hws]
        exact ⟨w, h₂, hw, hh₁.trans hh₂, hholds⟩

end Form

/-! ### What is lost -/

namespace Datum

variable {r : Value → Value → Prop}

/-- Nothing is lost at this place of the tree: the atom is related to the one that its text stands
for, and the list is not `(nil)` and has no list in front. -/
def Kept (r : Value → Value → Prop) : Datum → Prop
  | atom v => r v.reread v
  | list ts => ts ≠ [atom .nil] ∧ ∀ us, ts.head? ≠ some (list us)

/-- A list is read as a form. -/
theorem node_list (ts : List Datum) : ∃ v kids, node (list ts) = .form v kids := by
  rw [node, nodes_eq_map]
  match ts with
  | [] => exact ⟨_, _, rfl⟩
  | atom v :: us => exact ⟨_, _, rfl⟩
  | list xs :: us =>
      obtain ⟨v, kids, hform⟩ := node_list xs
      rw [List.map_cons, hform]
      exact ⟨_, _, rfl⟩

/-- A list with an atom in front is kept, unless it is `(nil)`. -/
theorem alike_atom_cons_iff {v : Value} {us : List Datum} (h : ¬(v = .nil ∧ us = [])) :
    Alike r (node (list (atom v :: us))).datum (list (atom v :: us)) ↔
      r v.reread v ∧ ∀ u ∈ us, Alike r u.node.datum u := by
  have hform : ¬(v.reread = .nil ∧ us.map node = []) := by
    rwa [Node.reread_eq_nil_iff, List.map_eq_nil_iff]
  rw [node, nodes_eq_map, List.map_cons, node, Node.ofItems, Node.datum_form hform, alike_list_iff,
    List.forall₂_cons, alike_atom_iff, List.map_map, List.forall₂_map_left_iff, List.forall₂_same]
  rfl

/-- In front of a list with a list in front `apply` is added, so it is longer than before. -/
theorem not_alike_list_cons (ts us : List Datum) :
    ¬ Alike r (node (list (list ts :: us))).datum (list (list ts :: us)) := by
  obtain ⟨v, kids, hform⟩ := node_list ts
  have hdatum : (node (list (list ts :: us))).datum =
      .list (.atom (.ident "apply") :: (Node.form v kids :: us.map node).map Node.datum) := by
    rw [node, nodes_eq_map, List.map_cons, hform]
    exact Node.datum_form (by simp)
  rw [hdatum, alike_list_iff]
  intro hall
  have hlength := hall.length_eq
  simp only [List.length_cons, List.length_map] at hlength
  omega

/-- **What is read and quoted is the data, unless something is lost somewhere in it.** -/
theorem alike_datum_node_iff (t : Datum) : Alike r t.node.datum t ↔ t.Each (Kept r) := by
  induction t using induct with
  | atom v => rw [each_atom_iff, node, Node.datum, alike_atom_iff, Kept]
  | list ts ih =>
      rw [each_list_iff, Kept]
      match ts with
      | [] =>
          refine iff_of_true (alike_list_iff.mpr .nil) ⟨⟨by simp, by simp⟩, by simp⟩
      | atom v :: us =>
          by_cases hempty : v = .nil ∧ us = []
          · obtain ⟨rfl, rfl⟩ := hempty
            refine iff_of_false (fun halike => ?_) (fun hkept => hkept.1.1 rfl)
            cases alike_list_iff.mp halike
          · have hkept : atom v :: us ≠ [atom .nil] ∧
                ∀ xs, (atom v :: us).head? ≠ some (list xs) := by
              refine ⟨fun hnil => hempty ?_, by simp⟩
              simpa using hnil
            obtain ⟨-, hothers⟩ := List.forall_mem_cons.mp ih
            rw [alike_atom_cons_iff hempty, and_iff_right hkept, List.forall_mem_cons,
              each_atom_iff, Kept]
            exact and_congr_right fun _ => forall₂_congr hothers
      | list xs :: us =>
          exact iff_of_false (not_alike_list_cons xs us) (fun hkept => hkept.1.2 xs rfl)

end Datum

/-! ### Printed data -/

/-- Data other than lists: the values with a text of their own.  The name of an identifier is
scanned as this one identifier. -/
def Value.Simple : Value → Prop
  | .nil | .bool _ | .int _ | .byte _ | .str _ => True
  | .real d => Word.fitsSigned 64 d.scale = true
  | .ident name => ∃ place, Token.scan name = .ok [⟨.atom (.ident name), place⟩]
  | _ => False

theorem Value.Simple.readable {v : Value} (h : v.Simple) : v.Readable := by
  cases v with
  | ident name =>
      obtain ⟨place, hscan⟩ := h
      exact Token.readable_of_scanFrom hscan _ List.mem_cons_self _ rfl
  | _ => exact h

namespace Heap

variable {h : Heap} {v w : Value} {t : Datum}

/-- The value is data: nothing that occurs in it contains itself, and everything that occurs in it
is a list of the heap or simple. -/
structure IsData (h : Heap) (v : Value) : Prop where
  acyclic : h.Acyclic v
  parts : ∀ w, h.Occurs v w → (∃ i, w = .list i ∧ i < h.lists.size) ∨ w.Simple

/-- A list with these items is not `(nil)` and has no list in front. -/
def RegularItems (items : List Value) : Prop :=
  items ≠ [.nil] ∧ ∀ i, items.head? ≠ some (.list i)

/-- No list in the value is `(nil)` or has a list in front. -/
def Regular (h : Heap) (v : Value) : Prop :=
  ∀ i, h.Occurs v (.list i) → RegularItems (h.items i)

/-- The two values are the same data, reals being compared as numbers. -/
def Same (h : Heap) (v w : Value) : Prop :=
  ∃ t u, h.Holds v t ∧ h.Holds w u ∧ t.Alike (fun a b => a.same b = true) u

theorem IsData.part (hv : h.IsData v) (hw : h.HasPart v w) : h.IsData w :=
  ⟨hv.acyclic.part hw, fun x hx => hv.parts x (hx.head hw)⟩

/-- **Data unfolds to a tree.** -/
theorem IsData.exists_holds (hv : h.IsData v) : ∃ t, h.Holds v t := by
  have hnested := hv.acyclic.nestedWithin
  generalize h.nesting = n at hnested
  induction n generalizing v with
  | zero => exact hnested.elim
  | succ n ih =>
      rcases hv.parts v .refl with ⟨i, rfl, hi⟩ | hsimple
      · have hitems : ∀ w ∈ h.items i, ∃ t, h.Holds w t :=
          fun w hw => ih (hv.part hw) (hnested w hw)
        obtain ⟨ts, hts⟩ := exists_forall₂ hitems
        exact ⟨.list ts, .list hi hts⟩
      · exact ⟨.atom v, .atom hsimple.readable⟩

theorem Holds.eq_nil_iff (hv : h.Holds v t) : v = .nil ↔ t = .atom .nil := by
  cases hv <;> simp

theorem Holds.exists_list_iff (hv : h.Holds v t) : (∃ i, v = .list i) ↔ ∃ ts, t = .list ts := by
  cases hv with
  | atom hreadable =>
      refine iff_of_false ?_ (by simp)
      rintro ⟨i, rfl⟩
      exact hreadable
  | list => simp

theorem regularItems_iff {items : List Value} {ts : List Datum}
    (hitems : List.Forall₂ h.Holds items ts) :
    RegularItems items ↔ ts ≠ [.atom .nil] ∧ ∀ us, ts.head? ≠ some (.list us) := by
  cases hitems with
  | nil => simp [RegularItems]
  | @cons v t vs ts hv hvs =>
      have hrest : vs = [] ↔ ts = [] := by
        rw [← List.length_eq_zero_iff, hvs.length_eq, List.length_eq_zero_iff]
      have hlist := not_congr hv.exists_list_iff
      rw [not_exists, not_exists] at hlist
      rw [RegularItems, List.head?_cons, List.head?_cons, Ne, Ne, List.cons_eq_cons,
        List.cons_eq_cons, hv.eq_nil_iff, hrest]
      simp only [ne_eq, Option.some.injEq, hlist]

/-- Nothing is lost at this value. -/
def KeptAt (h : Heap) (r : Value → Value → Prop) : Value → Prop
  | .list i => RegularItems (h.items i)
  | w => r w.reread w

theorem Holds.keptAt_iff {r : Value → Value → Prop} (hv : h.Holds v t) :
    h.KeptAt r v ↔ t.Kept r := by
  cases hv with
  | atom hreadable =>
      cases v with
      | list => exact hreadable.elim
      | _ => exact Iff.rfl
  | list _ hitems => exact regularItems_iff hitems

/-- Only lists and reals can be lost. -/
theorem forall_keptAt_iff {r : Value → Value → Prop} (hr : ∀ w, r w w) :
    (∀ w, h.Occurs v w → h.KeptAt r w) ↔
      h.Regular v ∧ ∀ d, h.Occurs v (.real d) → r (.real (Numeral.reread d)) (.real d) := by
  constructor
  · intro hkept
    exact ⟨fun i hi => hkept _ hi, fun d hd => hkept _ hd⟩
  · rintro ⟨hlists, hreals⟩ w hw
    cases w with
    | list i => exact hlists i hw
    | real d => exact hreals d hw
    | _ => exact hr _

end Heap

theorem Value.same_self (v : Value) : v.same v = true := by
  cases v with
  | real d => exact Decimal.same_iff.mpr rfl
  | _ => simp [Value.same]

/-- **Quoting printed data gives the data back, if it is regular.**  The text of data is read as one
expression, and quoting this expression makes a value of it.  Up to the digits of its reals this
value is the data that was printed if and only if no list in the data is `(nil)` or has a list in
front.  For the equality of the language, each real must moreover be equal to the real that its text
stands for, which it is if the text has lost nine places at most. -/
theorem quote_print {h : Heap} {v : Value} (hv : h.IsData v) :
    ∃ n w h', Node.readOne (h.print v) = .ok n ∧ Form.quoted n h = (.ok w, h') ∧ h.Extends h' ∧
      (h'.Same w v ↔ h.Regular v) ∧
      (h'.equal w v = true ↔ h.Regular v ∧
        ∀ d, h.Occurs v (.real d) → Decimal.equal (Numeral.reread d) d = true) ∧
      ((∀ d, h.Occurs v (.real d) → ((Numeral.reread d).scale - d.scale).natAbs ≤ 9) →
        (h'.equal w v = true ↔ h.Regular v)) := by
  obtain ⟨t, ht⟩ := hv.exists_holds
  have hread := ht.readOne_print
  have hreadable := Node.readable_of_readAll (Node.readOne_eq_ok_iff.mp hread) _ List.mem_cons_self
  obtain ⟨w, h', hquoted, hextends, hw⟩ := Form.makes_quoted hreadable h
  have hkept {r : Value → Value → Prop} (hr : ∀ w, r w w) : t.node.datum.Alike r t ↔
      h.Regular v ∧ ∀ d, h.Occurs v (.real d) → r (.real (Numeral.reread d)) (.real d) := by
    rw [Datum.alike_datum_node_iff, ← ht.forall_occurs_iff fun _ _ hx => hx.keptAt_iff,
      Heap.forall_keptAt_iff hr]
  have hsame (d : Decimal) : Decimal.same (Numeral.reread d) d = true := by
    rw [Decimal.same_comm]
    exact Numeral.same_reread d
  have hequal : h'.equal w v = true ↔ h.Regular v ∧
      ∀ d, h.Occurs v (.real d) → Decimal.equal (Numeral.reread d) d = true :=
    (hw.equal_iff (ht.mono hextends)).trans (hkept Value.equal_self)
  refine ⟨t.node, w, h', hread, hquoted, hextends, ?_, hequal, fun hnear => ?_⟩
  · have halike : h'.Same w v ↔ t.node.datum.Alike (fun a b => a.same b = true) t := by
      constructor
      · rintro ⟨t₁, t₂, ht₁, ht₂, halike⟩
        rwa [hw.unique ht₁, (ht.mono hextends).unique ht₂]
      · intro halike
        exact ⟨_, _, hw, ht.mono hextends, halike⟩
    rw [halike, hkept Value.same_self]
    exact and_iff_left fun d _ => hsame d
  · rw [hequal]
    refine and_iff_left fun d hd => ?_
    rw [Decimal.equal_eq_same (hnear d hd)]
    exact hsame d

/-- The list `(a 1.50 ())` comes back, and the list `(() "b")` does not. -/
theorem quote_print_two_lists :
    let h : Heap :=
      { lists := #[.ofList [.ident "a", .real ⟨150, 2⟩, .list 1], .ofList [],
          .ofList [.list 1, .str "b"]] }
    (h.IsData (.list 0) ∧ ∃ n w h', Node.readOne (h.print (.list 0)) = .ok n ∧
      Form.quoted n h = (.ok w, h') ∧ h'.Same w (.list 0) ∧ h'.equal w (.list 0) = true) ∧
    h.IsData (.list 2) ∧ ∃ n w h', Node.readOne (h.print (.list 2)) = .ok n ∧
      Form.quoted n h = (.ok w, h') ∧ ¬ h'.Same w (.list 2) ∧ h'.equal w (.list 2) = false := by
  intro h
  have hnested : ∀ v ∈ [Value.list 0, .list 2], h.NestedWithin h.nesting v := by decide
  have hfirst {w : Value} (hw : h.Occurs (.list 0) w) :
      w ∈ [Value.list 0, .list 1, .ident "a", .real ⟨150, 2⟩] :=
    hw.mem_of_closed (by decide) (by decide)
  have hsecond {w : Value} (hw : h.Occurs (.list 2) w) : w ∈ [Value.list 2, .list 1, .str "b"] :=
    hw.mem_of_closed (by decide) (by decide)
  have hdata : h.IsData (.list 0) := by
    refine ⟨(hnested _ (by decide)).acyclic, fun w hw => ?_⟩
    have hw : w = .list 0 ∨ w = .list 1 ∨ w = .ident "a" ∨ w = .real ⟨150, 2⟩ := by
      simpa using hfirst hw
    rcases hw with rfl | rfl | rfl | rfl
    · exact .inl ⟨0, rfl, by decide⟩
    · exact .inl ⟨1, rfl, by decide⟩
    · exact .inr ⟨.start, by decide +kernel⟩
    · exact .inr (by decide : Word.fitsSigned 64 2 = true)
  have hdata' : h.IsData (.list 2) := by
    refine ⟨(hnested _ (by decide)).acyclic, fun w hw => ?_⟩
    have hw : w = .list 2 ∨ w = .list 1 ∨ w = .str "b" := by simpa using hsecond hw
    rcases hw with rfl | rfl | rfl
    · exact .inl ⟨2, rfl, by decide⟩
    · exact .inl ⟨1, rfl, by decide⟩
    · exact .inr trivial
  have hregular : h.Regular (.list 0) := by
    intro i hi
    have hi : i = 0 ∨ i = 1 := by simpa using hfirst hi
    rcases hi with rfl | rfl
    · exact ⟨by decide, fun j hj => nomatch hj⟩
    · exact ⟨by decide, fun j hj => nomatch hj⟩
  have hirregular : ¬ h.Regular (.list 2) := fun hregular => (hregular 2 .refl).2 1 rfl
  obtain ⟨n, w, h₁, hread, hquoted, -, hsame, -, hequal⟩ := quote_print hdata
  obtain ⟨n', w', h₂, hread', hquoted', -, hsame', hequal', -⟩ := quote_print hdata'
  have hnear : ∀ d, h.Occurs (.list 0) (.real d) →
      ((Numeral.reread d).scale - d.scale).natAbs ≤ 9 := by
    intro d hd
    have hd : d = ⟨150, 2⟩ := by simpa using hfirst hd
    rw [hd]
    decide +kernel
  refine ⟨⟨hdata, n, w, h₁, hread, hquoted, hsame.mpr hregular, (hequal hnear).mpr hregular⟩,
    hdata', n', w', h₂, hread', hquoted', mt hsame'.mp hirregular, ?_⟩
  exact Bool.eq_false_iff.mpr fun htrue => hirregular (hequal'.mp htrue).1

/-- A real with ten zeros at its end.  Its text has none of them, and the real that the text stands
for is not equal to it, although the two are the same number. -/
theorem quote_print_loses_real :
    let d : Decimal := ⟨-79228162515106496340000000000, 19⟩
    let d' : Decimal := ⟨-7922816251510649634, 9⟩
    let session := ((World.new 10).newSession true).1
    let w := ((World.new 10).newSession true).2
    (∀ h : Heap, h.IsData (.real d) ∧ h.Regular (.real d) ∧
      Node.readOne (h.print (.real d)) = .ok (.atom (.real d')) ∧
      Form.quoted (.atom (.real d')) h = (.ok (.real d'), h) ∧
      h.Same (.real d') (.real d) ∧ h.equal (.real d') (.real d) = false) ∧
    (w.evalText 100 session
      "(def b -7922816251.5106496340000000000) (= (quote -7922816251.510649634) b)").map Prod.fst =
      some (.ok (.bool false)) := by
  intro d d' session w
  refine ⟨fun h => ?_, by decide +kernel⟩
  have hsimple (x : Decimal) (hx : Word.fitsSigned 64 x.scale = true) :
      h.Holds (.real x) (.atom (.real x)) := .atom hx
  have hd := hsimple d (by decide)
  have hd' := hsimple d' (by decide)
  have hreread : Numeral.reread d = d' := by decide +kernel
  have honly : ∀ w, h.Occurs (.real d) w → w = .real d :=
    Heap.forall_occurs_iff.mpr ⟨rfl, fun w hw => nomatch hw⟩
  refine ⟨⟨hd.acyclic, fun w hw => ?_⟩, fun i hi => (nomatch honly _ hi), ?_, rfl, ?_, ?_⟩
  · rw [honly w hw]
    exact .inr (by decide : Word.fitsSigned 64 19 = true)
  · rw [hd.readOne_print, Datum.node, Value.reread, hreread]
  · exact ⟨_, _, hd', hd, .atom (by decide +kernel)⟩
  · rw [← Bool.not_eq_true, hd'.equal_iff hd, Datum.alike_atom_iff]
    decide +kernel

end DispatchLisp
