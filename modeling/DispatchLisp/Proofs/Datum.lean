import DispatchLisp.Proofs.Collections
import DispatchLisp.Proofs.Lexeme
import DispatchLisp.Proofs.RealEquality

/-! # Data as trees

A value that consists of lists and of values that a text can hold, and in which nothing contains
itself, unfolds to a finite tree (`Datum`).  The heap holds the tree at this value (`Heap.Holds`);
where in the heap its lists are, and which of them are shared, is forgotten.

* There is one tree at a value (`Heap.Holds.unique`), and it stays there when lists are added to the
  heap (`Heap.Holds.mono`).
* Two values are equal if and only if their trees are alike (`Heap.Holds.equal_iff`).
* What is said of everything that occurs in a value can be said of the parts of its tree
  (`Heap.Holds.forall_occurs_iff`). -/

namespace DispatchLisp

/-! ### Lists that correspond item by item -/

section

variable {α β : Type} {r : α → β → Prop} {l l' : List α} {m m' : List β}

theorem forall₂_unique (h : List.Forall₂ r l m) (h' : List.Forall₂ r l m')
    (hr : ∀ b ∈ m, ∀ a c, r a b → r a c → b = c) : m = m' := by
  induction h generalizing m' with
  | nil =>
      cases h'
      rfl
  | cons hab _ ih =>
      cases h' with
      | cons hac hrest =>
          obtain ⟨hfirst, hothers⟩ := List.forall_mem_cons.mp hr
          rw [hfirst _ _ hab hac, ih hrest hothers]

theorem exists_forall₂ (h : ∀ a ∈ l, ∃ b, r a b) : ∃ m, List.Forall₂ r l m := by
  induction l with
  | nil => exact ⟨[], .nil⟩
  | cons a l ih =>
      obtain ⟨⟨b, hb⟩, hothers⟩ := List.forall_mem_cons.mp h
      obtain ⟨m, hm⟩ := ih hothers
      exact ⟨b :: m, .cons hb hm⟩

theorem forall_mem_iff_of_forall₂ {p : α → Prop} {q : β → Prop} (h : List.Forall₂ r l m)
    (hr : ∀ b ∈ m, ∀ a, r a b → (p a ↔ q b)) : (∀ a ∈ l, p a) ↔ ∀ b ∈ m, q b := by
  induction h with
  | nil => simp
  | cons hab _ ih =>
      obtain ⟨hfirst, hothers⟩ := List.forall_mem_cons.mp hr
      rw [List.forall_mem_cons, List.forall_mem_cons, hfirst _ hab, ih hothers]

/-- A relation between items can be carried over to what corresponds to them. -/
theorem forall₂_iff_of_forall₂ {s : α → α → Prop} {s' : β → β → Prop} (h : List.Forall₂ r l m)
    (h' : List.Forall₂ r l' m')
    (hr : ∀ b ∈ m, ∀ a a' b', r a b → r a' b' → (s a a' ↔ s' b b')) :
    List.Forall₂ s l l' ↔ List.Forall₂ s' m m' := by
  induction h generalizing l' m' with
  | nil =>
      cases h' with
      | nil => exact iff_of_true .nil .nil
      | cons => exact iff_of_false (fun h => nomatch h) (fun h => nomatch h)
  | cons hab _ ih =>
      cases h' with
      | nil => exact iff_of_false (fun h => nomatch h) (fun h => nomatch h)
      | cons hab' hrest =>
          obtain ⟨hfirst, hothers⟩ := List.forall_mem_cons.mp hr
          rw [List.forall₂_cons, List.forall₂_cons, hfirst _ _ _ hab hab', ih hrest hothers]

end

/-! ### Trees -/

/-- Data: an atom, or a list of data. -/
inductive Datum where
  | atom (v : Value)
  | list (items : List Datum)

namespace Datum

variable {r : Value → Value → Prop} {p : Datum → Prop}

theorem induct {motive : Datum → Prop} (atom : ∀ v, motive (atom v))
    (list : ∀ ts, (∀ t ∈ ts, motive t) → motive (list ts)) (t : Datum) : motive t := by
  match t with
  | .atom v => exact atom v
  | .list ts => exact list ts fun t _ => induct atom list t

/-- The same shape, with atoms that are related. -/
inductive Alike (r : Value → Value → Prop) : Datum → Datum → Prop
  | atom {v w : Value} : r v w → Alike r (atom v) (atom w)
  | list {ts us : List Datum} : List.Forall₂ (Alike r) ts us → Alike r (list ts) (list us)

theorem alike_atom_iff {v w : Value} : Alike r (atom v) (atom w) ↔ r v w := by
  constructor
  · rintro ⟨hr⟩
    exact hr
  · exact .atom

theorem alike_list_iff {ts us : List Datum} :
    Alike r (list ts) (list us) ↔ List.Forall₂ (Alike r) ts us := by
  constructor
  · rintro (_ | hall)
    exact hall
  · exact .list

/-- Every part of the tree, and the tree itself, has the property. -/
inductive Each (p : Datum → Prop) : Datum → Prop
  | atom {v : Value} : p (atom v) → Each p (atom v)
  | list {ts : List Datum} : p (list ts) → (∀ t ∈ ts, Each p t) → Each p (list ts)

theorem each_atom_iff {v : Value} : Each p (atom v) ↔ p (atom v) := by
  constructor
  · rintro ⟨hp⟩
    exact hp
  · exact .atom

theorem each_list_iff {ts : List Datum} :
    Each p (list ts) ↔ p (list ts) ∧ ∀ t ∈ ts, Each p t := by
  constructor
  · rintro (_ | ⟨hp, hall⟩)
    exact ⟨hp, hall⟩
  · rintro ⟨hp, hall⟩
    exact .list hp hall

end Datum

namespace Heap

/-! ### The tree at a value -/

/-- The value unfolds to the tree.  Its lists are lists of the heap, and everything else is a value
that a text can hold. -/
inductive Holds (h : Heap) : Value → Datum → Prop
  | atom {v : Value} : v.Readable → Holds h v (.atom v)
  | list {i : Nat} {ts : List Datum} :
      i < h.lists.size → List.Forall₂ (Holds h) (h.items i) ts → Holds h (.list i) (.list ts)

/-- All lists of `h` are lists of `h'` with the same items. -/
def Extends (h h' : Heap) : Prop := h.lists.toList <+: h'.lists.toList

theorem Extends.refl (h : Heap) : h.Extends h := List.prefix_rfl

theorem Extends.trans {h₁ h₂ h₃ : Heap} (h₁₂ : h₁.Extends h₂) (h₂₃ : h₂.Extends h₃) :
    h₁.Extends h₃ := List.IsPrefix.trans h₁₂ h₂₃

theorem extends_newList (h : Heap) (items : List Value) : h.Extends (h.newList items).2 := by
  rw [Extends, newList, Array.toList_push]
  exact List.prefix_append _ _

variable {h h' : Heap} {v w : Value} {t u : Datum}

theorem Extends.size_le (hh : h.Extends h') : h.lists.size ≤ h'.lists.size :=
  List.IsPrefix.length_le hh

theorem Extends.items_eq (hh : h.Extends h') {i : Nat} (hi : i < h.lists.size) :
    h'.items i = h.items i := by
  obtain ⟨more, hmore⟩ := hh
  have hget : h'.lists[i]? = h.lists[i]? := by
    rw [← Array.getElem?_toList, ← Array.getElem?_toList, ← hmore, List.getElem?_append_left hi]
  rw [items, items, Array.getD_eq_getD_getElem?, hget, Array.getD_eq_getD_getElem?]

namespace Holds

/-- **A value unfolds to one tree.** -/
theorem unique (ht : h.Holds v t) (hu : h.Holds v u) : t = u := by
  induction t using Datum.induct generalizing v u with
  | atom w =>
      cases ht with
      | atom hreadable =>
          cases hu with
          | atom => rfl
          | list => exact hreadable.elim
  | list ts ih =>
      cases ht with
      | list hi hitems =>
          cases hu with
          | atom hreadable => exact hreadable.elim
          | list _ hitems' =>
              exact congrArg Datum.list
                (forall₂_unique hitems hitems' fun t ht a c hat hac => ih t ht hat hac)

/-- **The tree stays when lists are added to the heap.** -/
theorem mono (hv : h.Holds v t) (hh : h.Extends h') : h'.Holds v t := by
  induction t using Datum.induct generalizing v with
  | atom w =>
      obtain ⟨hreadable⟩ := hv
      exact .atom hreadable
  | list ts ih =>
      obtain _ | ⟨hi, hitems⟩ := hv
      refine .list (hi.trans_le hh.size_le) ?_
      rw [hh.items_eq hi]
      exact forall₂_of_mem hitems fun a _ b hb hab => ih b hb hab

theorem parts_of_readable (hv : v.Readable) : h.parts v = [] := by
  cases v with
  | list => exact hv.elim
  | table => exact hv.elim
  | _ => rfl

theorem acyclic (hv : h.Holds v t) : h.Acyclic v := by
  have hnested : h.NestedWithin (sizeOf t) v := by
    induction t using Datum.induct generalizing v with
    | atom w =>
        obtain ⟨hreadable⟩ := hv
        rw [Datum.atom.sizeOf_spec, Nat.add_comm]
        intro w hw
        rw [parts_of_readable hreadable] at hw
        cases hw
    | list ts ih =>
        obtain _ | ⟨hi, hitems⟩ := hv
        rw [Datum.list.sizeOf_spec, Nat.add_comm]
        refine (forall_mem_iff_of_forall₂ hitems fun t ht w hw => iff_true_intro ?_).mpr
          fun _ _ => trivial
        exact (ih t ht hw).mono (List.sizeOf_lt_of_mem ht).le
  exact hnested.acyclic

/-- What is said of everything that occurs in a value, part by part of its tree. -/
theorem forall_occurs_iff {p : Value → Prop} {q : Datum → Prop}
    (hpq : ∀ w u, h.Holds w u → (p w ↔ q u)) (hv : h.Holds v t) :
    (∀ w, h.Occurs v w → p w) ↔ t.Each q := by
  induction t using Datum.induct generalizing v with
  | atom w =>
      rw [Heap.forall_occurs_iff, Datum.each_atom_iff, hpq _ _ hv]
      obtain ⟨hreadable⟩ := hv
      simp [parts_of_readable hreadable]
  | list ts ih =>
      rw [Heap.forall_occurs_iff, Datum.each_list_iff, hpq _ _ hv]
      obtain _ | ⟨hi, hitems⟩ := hv
      refine and_congr_right fun _ => ?_
      exact forall_mem_iff_of_forall₂ hitems fun b hb a hab => ih b hb hab

end Holds

end Heap

/-- Equality of values other than lists and tables. -/
def Value.equal : Value → Value → Bool
  | .real x, .real y => Decimal.equal x y
  | v, w => v == w

theorem Value.equal_self (v : Value) : v.equal v = true := by
  cases v with
  | real d => exact Decimal.equal_self d
  | _ => simp [Value.equal]

namespace Heap

variable {h : Heap} {v w : Value} {t u : Datum}

theorem compared_iff_of_readable {keys : KeyTest} (hv : v.Readable) (hw : w.Readable) :
    h.Compared keys v w ↔ v.equal w = true := by
  constructor
  · intro hcompared
    cases hcompared with
    | same => exact v.equal_self
    | real hxy => exact hxy
    | list => exact hv.elim
    | table => exact hv.elim
    | function => exact hv.elim
    | thread => exact hv.elim
  · intro hequal
    unfold Value.equal at hequal
    split at hequal
    · exact .real hequal
    · rw [eq_of_beq hequal]
      exact .same w

theorem compared_list_iff {i j : Nat} :
    h.Compared h.keys (.list i) (.list j) ↔
      List.Forall₂ (fun a b => h.equal a b = true) (h.items i) (h.items j) := by
  constructor
  · intro hcompared
    cases hcompared with
    | same => exact List.forall₂_same.mpr fun a _ => equalWithin_self _ a
    | list hitems => exact hitems
  · intro hitems
    exact .list hitems

/-- **Values are equal if and only if their trees are alike.** -/
theorem Holds.equal_iff (hv : h.Holds v t) (hw : h.Holds w u) :
    h.equal v w = true ↔ t.Alike (fun a b => a.equal b = true) u := by
  induction t using Datum.induct generalizing v w u with
  | atom a =>
      rw [equal_iff_compared hv.acyclic hw.acyclic]
      obtain ⟨ha⟩ := hv
      cases hw with
      | atom hb => rw [compared_iff_of_readable ha hb, Datum.alike_atom_iff]
      | list =>
          refine iff_of_false (fun hcompared => ?_) (fun halike => nomatch halike)
          cases hcompared <;> exact ha.elim
  | list ts ih =>
      rw [equal_iff_compared hv.acyclic hw.acyclic]
      obtain _ | ⟨hi, hitems⟩ := hv
      cases hw with
      | atom hb =>
          refine iff_of_false (fun hcompared => ?_) (fun halike => nomatch halike)
          cases hcompared <;> exact hb.elim
      | list hj hitems' =>
          rw [compared_list_iff, Datum.alike_list_iff]
          exact forall₂_iff_of_forall₂ hitems hitems' fun t ht a b u hat hbu => ih t ht hat hbu

end Heap

end DispatchLisp
