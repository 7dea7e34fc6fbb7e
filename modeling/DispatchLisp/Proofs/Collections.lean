import DispatchLisp.Heap.Equality
import DispatchLisp.Heap.Printer
import Mathlib.Data.List.Forall2
import Mathlib.Data.List.Perm.Subperm
import Mathlib.Logic.Relation

/-! # Collections inside collections

A list has its items as parts, a table its keys and values.  A value is *acyclic* if nothing that
occurs in it contains itself.

* **Depth.**  There are not enough collections in a heap for an acyclic value to be nested deeper
  than comparisons and digests descend (`Heap.Acyclic.nestedWithin`).
* **One level.**  What a comparison does at each level is said once, by `Heap.Compared`.  For acyclic
  values this is also what equality does, with equality itself one level down
  (`Heap.equal_iff_compared`): the bound on the depth has no part in it.
* **Reading.**  Comparisons, digests and texts of acyclic values are the same at any greater depth
  (`Heap.readsEnd_of_acyclic`), so reading such values would come to an end without a bound. -/

namespace DispatchLisp

namespace Heap

/-! ### Parts -/

/-- The values that a value consists of. -/
def parts (h : Heap) : Value → List Value
  | .list i => h.items i
  | .table i => (h.entries i).flatMap fun e => [e.1, e.2]
  | _ => []

/-- The second value is a part of the first. -/
def HasPart (h : Heap) (v w : Value) : Prop := w ∈ h.parts v

/-- The second value is the first one or occurs in it at some depth. -/
def Occurs (h : Heap) : Value → Value → Prop := Relation.ReflTransGen h.HasPart

/-- Nothing that occurs in the value contains itself. -/
def Acyclic (h : Heap) (v : Value) : Prop :=
  ∀ w, h.Occurs v w → ¬ Relation.TransGen h.HasPart w w

section

variable {h : Heap}

theorem hasPart_of_mem_items {i : Nat} {v : Value} (hv : v ∈ h.items i) : h.HasPart (.list i) v :=
  hv

theorem hasPart_of_mem_entries {i : Nat} {e : Value × Value} (he : e ∈ h.entries i) :
    h.HasPart (.table i) e.1 ∧ h.HasPart (.table i) e.2 := by
  constructor
  · exact List.mem_flatMap.mpr ⟨e, he, List.mem_cons_self⟩
  · exact List.mem_flatMap.mpr ⟨e, he, List.mem_cons_of_mem _ List.mem_cons_self⟩

/-- What is said of everything that occurs in a value can be checked part by part. -/
theorem forall_occurs_iff {v : Value} {p : Value → Prop} :
    (∀ w, h.Occurs v w → p w) ↔ p v ∧ ∀ w ∈ h.parts v, ∀ x, h.Occurs w x → p x := by
  constructor
  · intro hall
    exact ⟨hall v .refl, fun w hw x hx => hall x (hx.head hw)⟩
  · rintro ⟨hself, hparts⟩ w hw
    rcases hw.cases_head with rfl | ⟨x, hx, hw⟩
    · exact hself
    · exact hparts x hx w hw

/-- Values whose parts are among them are all that occurs in one of them. -/
theorem Occurs.mem_of_closed {l : List Value} (hclosed : ∀ v ∈ l, ∀ w ∈ h.parts v, w ∈ l)
    {v w : Value} (hv : v ∈ l) (hw : h.Occurs v w) : w ∈ l := by
  induction hw with
  | refl => exact hv
  | tail _ hpart ih => exact hclosed _ ih _ hpart

theorem Acyclic.occurs {v w : Value} (hv : h.Acyclic v) (hw : h.Occurs v w) : h.Acyclic w :=
  fun x hx => hv x (hw.trans hx)

theorem Acyclic.part {v w : Value} (hv : h.Acyclic v) (hw : h.HasPart v w) : h.Acyclic w :=
  hv.occurs (.single hw)

end

/-! ### Depth -/

/-- Collections are nested in the value to a depth of less than the given one. -/
def NestedWithin (h : Heap) : Nat → Value → Prop
  | 0, _ => False
  | depth + 1, v => ∀ w ∈ h.parts v, h.NestedWithin depth w

instance decidableNestedWithin (h : Heap) : (depth : Nat) → (v : Value) →
    Decidable (h.NestedWithin depth v)
  | 0, _ => inferInstanceAs (Decidable False)
  | depth + 1, v =>
    have := h.decidableNestedWithin depth
    inferInstanceAs (Decidable (∀ w ∈ h.parts v, h.NestedWithin depth w))

/-- The collections of the heap. -/
def collections (h : Heap) : List Value :=
  (List.range h.lists.size).map .list ++ (List.range h.tables.size).map .table

section

variable {h : Heap}

theorem mem_collections {v : Value} (hv : h.parts v ≠ []) : v ∈ h.collections := by
  unfold collections
  cases v with
  | list i =>
      have hi : i < h.lists.size := by
        by_contra hge
        exact hv (by simp [parts, items, Nat.le_of_not_lt hge, Queue.toList_eq])
      simpa using hi
  | table i =>
      have hi : i < h.tables.size := by
        by_contra hge
        exact hv (by simp [parts, entries, tableAt, Nat.le_of_not_lt hge, Table.entries])
      simpa using hi
  | _ => exact absurd rfl hv

/-- In a value that is nested deeply there is a long path of collections, one inside the other. -/
theorem exists_path {n : Nat} {v : Value} (hn : ¬ h.NestedWithin n v) :
    ∃ path : List Value, path.length = n ∧ path.Pairwise (Relation.TransGen h.HasPart) ∧
      ∀ w ∈ path, h.Occurs v w ∧ h.parts w ≠ [] := by
  induction n generalizing v with
  | zero => exact ⟨[], rfl, .nil, fun _ hw => nomatch hw⟩
  | succ n ih =>
      unfold NestedWithin at hn
      push Not at hn
      obtain ⟨w, hw, hdeep⟩ := hn
      obtain ⟨path, hlength, hpath, hmem⟩ := ih hdeep
      refine ⟨v :: path, by rw [List.length_cons, hlength], ?_, ?_⟩
      · exact hpath.cons fun x hx => Relation.TransGen.head' hw (hmem x hx).1
      · refine List.forall_mem_cons.mpr ⟨⟨.refl, List.ne_nil_of_mem hw⟩, fun x hx => ?_⟩
        exact ⟨(hmem x hx).1.head hw, (hmem x hx).2⟩

/-- No acyclic value is nested deeper than there are collections. -/
theorem Acyclic.nestedWithin {v : Value} (hv : h.Acyclic v) : h.NestedWithin h.nesting v := by
  by_contra hdeep
  obtain ⟨path, hlength, hpath, hmem⟩ := exists_path hdeep
  -- All collections on the path are different.
  have hnodup : path.Nodup := by
    refine hpath.imp_of_mem fun {a b} ha _ hab => ?_
    rintro rfl
    exact hv a (hmem a ha).1 hab
  have hsubset : path ⊆ h.collections := fun w hw => mem_collections (hmem w hw).2
  have hle := (List.subperm_of_subset hnodup hsubset).length_le
  simp only [collections, List.length_append, List.length_map, List.length_range] at hle
  rw [hlength, nesting] at hle
  omega

theorem NestedWithin.mono {m n : Nat} {v : Value} (hv : h.NestedWithin m v) (hmn : m ≤ n) :
    h.NestedWithin n v := by
  induction m generalizing n v with
  | zero => exact hv.elim
  | succ m ih =>
      obtain ⟨n, rfl⟩ := Nat.exists_eq_add_of_le' (Nat.le_trans (Nat.le_add_left 1 m) hmn)
      exact fun w hw => ih (hv w hw) (Nat.le_of_succ_le_succ hmn)

theorem NestedWithin.not_cyclic {n : Nat} {v : Value} (hv : h.NestedWithin n v) :
    ¬ Relation.TransGen h.HasPart v v := by
  induction n generalizing v with
  | zero => exact hv.elim
  | succ n ih =>
      -- A part on the cycle is on a cycle, too, and is nested less deep.
      intro hcycle
      obtain ⟨w, hw, hback⟩ := Relation.TransGen.head'_iff.mp hcycle
      exact ih (hv w hw) (Relation.TransGen.tail' hback hw)

theorem NestedWithin.acyclic {n : Nat} {v : Value} (hv : h.NestedWithin n v) : h.Acyclic v := by
  induction n generalizing v with
  | zero => exact hv.elim
  | succ n ih => exact forall_occurs_iff.mpr ⟨hv.not_cyclic, fun w hw => ih (hv w hw)⟩

/-! ### Digests and texts -/

/-- Beyond the depth of a value, its digest does not depend on how deep it descends. -/
theorem NestedWithin.marksWithin_succ {n : Nat} {v : Value} (hv : h.NestedWithin n v)
    (marks : Digest) : h.marksWithin (n + 1) v marks = h.marksWithin n v marks := by
  induction n generalizing v marks with
  | zero => exact hv.elim
  | succ n ih =>
      unfold marksWithin
      cases v with
      | list i =>
          have hitems : (h.items i).foldr (h.marksWithin (n + 1)) marks =
              (h.items i).foldr (h.marksWithin n) marks :=
            List.foldr_ext _ _ _ fun w hw rest => ih (hv w hw) rest
          simp only [hitems]
      | _ => rfl

/-- Beyond the depth of a value, its text does not depend on how deep it descends. -/
theorem NestedWithin.printWithin_succ {n : Nat} {v : Value} (hv : h.NestedWithin n v) :
    h.printWithin (n + 1) v = h.printWithin n v := by
  induction n generalizing v with
  | zero => exact hv.elim
  | succ n ih =>
      unfold printWithin
      cases v with
      | list i =>
          have hitems : (h.items i).map (h.printWithin (n + 1)) =
              (h.items i).map (h.printWithin n) :=
            List.map_congr_left fun w hw => ih (hv w hw)
          simp only [hitems]
      | table i =>
          have hentries : (h.entries i).map
                (fun e => h.printWithin (n + 1) e.1 ++ " " ++ h.printWithin (n + 1) e.2) =
              (h.entries i).map fun e => h.printWithin n e.1 ++ " " ++ h.printWithin n e.2 := by
            refine List.map_congr_left fun e he => ?_
            obtain ⟨hkey, hvalue⟩ := hasPart_of_mem_entries he
            rw [ih (hv e.1 hkey), ih (hv e.2 hvalue)]
          simp only [hentries]
      | bool b => cases b <;> rfl
      | _ => rfl

theorem NestedWithin.printWithin_eq {m n : Nat} {v : Value} (hv : h.NestedWithin m v)
    (hmn : m ≤ n) : h.printWithin n v = h.printWithin m v := by
  induction hmn with
  | refl => rfl
  | step hmn ih => rw [(hv.mono hmn).printWithin_succ, ih]

end

end Heap

/-! ### Searching in tables -/

/-- The two tests give the same answers about the values in question. -/
structure KeyTest.Agree (t t' : KeyTest) (p : Value → Prop) : Prop where
  equal : ∀ a b, p a → p b → t.equal a b = t'.equal a b
  digest : ∀ a, p a → t.digest a = t'.digest a

theorem KeyTest.Agree.symm {t t' : KeyTest} {p : Value → Prop} (h : t.Agree t' p) : t'.Agree t p :=
  ⟨fun a b ha hb => (h.equal a b ha hb).symm, fun a ha => (h.digest a ha).symm⟩

theorem Slot.first?_congr {test test' : Value → Bool} {slots : Array Slot}
    (h : ∀ s ∈ slots, test s.key = test' s.key) : first? test slots = first? test' slots := by
  unfold first?
  rw [← Array.foldl_toList, ← Array.foldl_toList]
  refine List.foldl_ext _ _ _ fun found s hs => ?_
  unfold nearest
  rw [h s (by simpa using hs)]

namespace Table

theorem mem_entries {table : Table} {s : Slot} (hs : s ∈ table.slots) : s.entry ∈ table.entries :=
  List.mem_map.mpr ⟨s, by simpa using hs, rfl⟩

theorem find?_congr {t t' : KeyTest} {p : Value → Prop} {key : Value} {table : Table}
    (h : t.Agree t' p) (hkey : p key) (htable : ∀ e ∈ table.entries, p e.1) :
    find? t key table = find? t' key table := by
  unfold find?
  congr 1
  refine Slot.first?_congr fun s hs => ?_
  have hslot : p s.key := htable _ (mem_entries hs)
  unfold lookupTest KeyTest.same KeyTest.alike
  split
  · exact h.equal key s.key hkey hslot
  · simp only [h.equal key s.key hkey hslot, h.digest key hkey, h.digest s.key hslot]

/-- What is found belongs to a key that is equal. -/
theorem exists_of_find? {t : KeyTest} {key value : Value} {table : Table}
    (h : find? t key table = some value) :
    ∃ e ∈ table.entries, t.equal key e.1 = true ∧ e.2 = value := by
  obtain ⟨s, hfirst, rfl⟩ := Option.map_eq_some_iff.mp h
  obtain ⟨hs, htest⟩ := Slot.mem_of_first? hfirst
  refine ⟨s.entry, mem_entries hs, ?_, rfl⟩
  unfold lookupTest at htest
  split at htest
  · exact htest
  · exact (Bool.and_eq_true_iff.mp htest).1

/-- An equal key with the same digest is found, unless another one is. -/
theorem find?_isSome {t : KeyTest} {key : Value} {table : Table} {e : Value × Value}
    (he : e ∈ table.entries) (hequal : t.equal key e.1 = true)
    (hdigest : t.digest key = t.digest e.1) : ∃ value, find? t key table = some value := by
  obtain ⟨s, hs, rfl⟩ := List.mem_map.mp he
  have htest : table.lookupTest t key s.key = true := by
    unfold lookupTest
    split
    · exact hequal
    · exact Bool.and_eq_true_iff.mpr ⟨hequal, beq_iff_eq.mpr hdigest⟩
  cases hfirst : Slot.first? (table.lookupTest t key) table.slots with
  | none =>
      have hnone := Slot.first?_eq_none_iff.mp hfirst s (by simpa using hs)
      rw [htest] at hnone
      cases hnone
  | some r => exact ⟨r.value, by rw [find?, hfirst]; rfl⟩

end Table

namespace Heap

/-! ### One level of a comparison -/

theorem isEqv_iff_forall₂ {r : Value → Value → Bool} {l l' : List Value} :
    l.isEqv l' r = true ↔ List.Forall₂ (fun a b => r a b = true) l l' := by
  induction l generalizing l' with
  | nil => cases l' <;> simp [List.isEqv]
  | cons a l ih => cases l' <;> simp [List.isEqv, ih]

/-- What a comparison finds to be equal, if the parts are compared by a test. -/
inductive Compared (h : Heap) (t : KeyTest) : Value → Value → Prop
  | same (v : Value) : Compared h t v v
  | real {x y : Decimal} : Decimal.equal x y = true → Compared h t (.real x) (.real y)
  | list {i j : Nat} : List.Forall₂ (fun a b => t.equal a b = true) (h.items i) (h.items j) →
      Compared h t (.list i) (.list j)
  | table {i j : Nat} : (h.entries i).length = (h.entries j).length →
      (∀ e ∈ h.entries i, ∃ value, (h.tableAt j).find? t e.1 = some value ∧
        t.equal e.2 value = true) → Compared h t (.table i) (.table j)
  | function {f g : FunctionRef} : f.id = g.id → Compared h t (.function f) (.function g)
  | thread {t₁ t₂ : ThreadRef} : t₁.id = t₂.id → Compared h t (.thread t₁) (.thread t₂)

section

variable {h : Heap}

theorem equalWithin_self (n : Nat) (v : Value) : h.equalWithin (n + 1) v v = true := by
  cases v <;> simp [equalWithin, Decimal.equal]

theorem equalWithin_succ_iff {n : Nat} {a b : Value} :
    h.equalWithin (n + 1) a b = true ↔
      h.Compared ⟨h.equalWithin n, h.digestWithin n⟩ a b := by
  constructor
  · intro hequal
    cases a with
    | nil =>
        cases b with
        | nil => exact .same _
        | _ => cases hequal
    | bool x =>
        cases b with
        | bool y =>
            obtain rfl : x = y := eq_of_beq hequal
            exact .same _
        | _ => cases hequal
    | int x =>
        cases b with
        | int y =>
            obtain rfl : x = y := eq_of_beq hequal
            exact .same _
        | _ => cases hequal
    | real x =>
        cases b with
        | real y => exact .real hequal
        | _ => cases hequal
    | byte x =>
        cases b with
        | byte y =>
            obtain rfl : x = y := eq_of_beq hequal
            exact .same _
        | _ => cases hequal
    | str x =>
        cases b with
        | str y =>
            obtain rfl : x = y := eq_of_beq hequal
            exact .same _
        | _ => cases hequal
    | ident x =>
        cases b with
        | ident y =>
            obtain rfl : x = y := eq_of_beq hequal
            exact .same _
        | _ => cases hequal
    | list i =>
        cases b with
        | list j =>
            rcases Bool.or_eq_true_iff.mp hequal with hsame | hitems
            · rw [eq_of_beq hsame]
              exact .same _
            · exact .list (isEqv_iff_forall₂.mp hitems)
        | _ => cases hequal
    | table i =>
        cases b with
        | table j =>
            rcases Bool.or_eq_true_iff.mp hequal with hsame | hentries
            · rw [eq_of_beq hsame]
              exact .same _
            · obtain ⟨hsize, hall⟩ := Bool.and_eq_true_iff.mp hentries
              refine .table ?_ fun e he => ?_
              · rw [entries, entries, Table.length_entries, Table.length_entries]
                exact eq_of_beq hsize
              · have hfound := List.all_eq_true.mp hall e he
                dsimp only at hfound
                split at hfound
                · next value hfind => exact ⟨value, hfind, hfound⟩
                · cases hfound
        | _ => cases hequal
    | emptyStream =>
        cases b with
        | emptyStream => exact .same _
        | _ => cases hequal
    | function f =>
        cases b with
        | function g => exact .function (eq_of_beq hequal)
        | _ => cases hequal
    | lock x =>
        cases b with
        | lock y =>
            obtain rfl : x = y := eq_of_beq hequal
            exact .same _
        | _ => cases hequal
    | thread x =>
        cases b with
        | thread y => exact .thread (eq_of_beq hequal)
        | _ => cases hequal
  · intro hcompared
    cases hcompared with
    | same => exact equalWithin_self n a
    | real hxy => exact hxy
    | list hitems => exact Bool.or_eq_true_iff.mpr (.inr (isEqv_iff_forall₂.mpr hitems))
    | table hlength hall =>
        rw [entries, entries, Table.length_entries, Table.length_entries] at hlength
        refine Bool.or_eq_true_iff.mpr (.inr (Bool.and_eq_true_iff.mpr ⟨?_, ?_⟩))
        · exact beq_iff_eq.mpr hlength
        · refine List.all_eq_true.mpr fun e he => ?_
          obtain ⟨value, hfind, hvalue⟩ := hall e he
          dsimp only
          rw [hfind]
          exact hvalue
    | function hid => simp [equalWithin, hid]
    | thread hid => simp [equalWithin, hid]

theorem forall₂_of_mem {α β : Type} {r r' : α → β → Prop} {l : List α} {l' : List β}
    (h : List.Forall₂ r l l') (hr : ∀ a ∈ l, ∀ b ∈ l', r a b → r' a b) :
    List.Forall₂ r' l l' := by
  induction h with
  | nil => exact .nil
  | cons hab _ ih =>
      refine .cons (hr _ List.mem_cons_self _ List.mem_cons_self hab) (ih fun a ha b hb => ?_)
      exact hr a (List.mem_cons_of_mem _ ha) b (List.mem_cons_of_mem _ hb)

/-- What is found at one level depends on what is found about the parts. -/
theorem Compared.congr {t t' : KeyTest} {p : Value → Prop} {a b : Value}
    (h₀ : h.Compared t a b) (hagree : t.Agree t' p) (ha : ∀ w ∈ h.parts a, p w)
    (hb : ∀ w ∈ h.parts b, p w) : h.Compared t' a b := by
  cases h₀ with
  | same => exact .same a
  | real hxy => exact .real hxy
  | list hitems =>
      refine .list (forall₂_of_mem hitems fun v hv w hw hequal => ?_)
      rwa [← hagree.equal v w (ha v hv) (hb w hw)]
  | table hlength hall =>
      refine .table hlength fun e he => ?_
      obtain ⟨value, hfind, hvalue⟩ := hall e he
      obtain ⟨e', he', -, rfl⟩ := Table.exists_of_find? hfind
      have hparts := hasPart_of_mem_entries he
      have hkeys : ∀ e ∈ h.entries _, p e.1 := fun e he => hb _ (hasPart_of_mem_entries he).1
      refine ⟨e'.2, ?_, ?_⟩
      · rw [← Table.find?_congr hagree (ha _ hparts.1) hkeys]
        exact hfind
      · rw [← hagree.equal _ _ (ha _ hparts.2) (hb _ (hasPart_of_mem_entries he').2)]
        exact hvalue
  | function hid => exact .function hid
  | thread hid => exact .thread hid

/-! ### Equality without a bound -/

theorem agree_succ {n : Nat}
    (hequal : ∀ a b, h.NestedWithin n a → h.NestedWithin n b →
      h.equalWithin (n + 1) a b = h.equalWithin n a b) :
    KeyTest.Agree ⟨h.equalWithin (n + 1), h.digestWithin (n + 1)⟩
      ⟨h.equalWithin n, h.digestWithin n⟩ (h.NestedWithin n) where
  equal := hequal
  digest _ ha := ha.marksWithin_succ []

/-- Beyond the depth of the values, a comparison does not depend on how deep it descends. -/
theorem equalWithin_succ {n : Nat} {a b : Value} (ha : h.NestedWithin n a)
    (hb : h.NestedWithin n b) : h.equalWithin (n + 1) a b = h.equalWithin n a b := by
  induction n generalizing a b with
  | zero => exact ha.elim
  | succ n ih =>
      have hagree := agree_succ fun a b ha hb => ih ha hb
      rw [Bool.eq_iff_iff, equalWithin_succ_iff, equalWithin_succ_iff]
      exact ⟨fun hc => hc.congr hagree ha hb, fun hc => hc.congr hagree.symm ha hb⟩

/-- Acyclic values are equal if they are at one level, their parts being compared by equality
itself. -/
theorem equal_iff_compared {a b : Value} (ha : h.Acyclic a) (hb : h.Acyclic b) :
    h.equal a b = true ↔ h.Compared h.keys a b := by
  have hagree : KeyTest.Agree h.keys _ _ := agree_succ fun a b => equalWithin_succ
  have hcompared : h.equal a b = true ↔ h.Compared _ a b := equalWithin_succ_iff
  rw [hcompared]
  exact ⟨fun hc => hc.congr hagree.symm ha.nestedWithin hb.nestedWithin,
    fun hc => hc.congr hagree ha.nestedWithin hb.nestedWithin⟩

/-- Beyond the depth of the values, the depth does not matter. -/
theorem agree_of_le {m n : Nat} (hmn : m ≤ n) :
    KeyTest.Agree ⟨h.equalWithin n, h.digestWithin n⟩ ⟨h.equalWithin m, h.digestWithin m⟩
      (h.NestedWithin m) := by
  induction hmn with
  | refl => exact ⟨fun _ _ _ _ => rfl, fun _ _ => rfl⟩
  | @step n hmn ih =>
      constructor
      · intro a b ha hb
        exact (equalWithin_succ (ha.mono hmn) (hb.mono hmn)).trans (ih.equal a b ha hb)
      · intro a ha
        exact ((ha.mono hmn).marksWithin_succ []).trans (ih.digest a ha)

/-- Reading the values comes to an end by itself: whatever occurs in them is compared, digested and
printed in the same way at every depth beyond the number of collections. -/
def ReadsEnd (h : Heap) (vs : List Value) : Prop :=
  ∀ depth, h.nesting ≤ depth →
    KeyTest.Agree ⟨h.equalWithin depth, h.digestWithin depth⟩ h.keys
      (fun v => ∃ a ∈ vs, h.Occurs a v) ∧
    ∀ a ∈ vs, ∀ v, h.Occurs a v → h.printWithin depth v = h.print v

theorem readsEnd_of_acyclic {vs : List Value} (hvs : ∀ v ∈ vs, h.Acyclic v) : h.ReadsEnd vs := by
  have hnested : ∀ v, (∃ a ∈ vs, h.Occurs a v) → h.NestedWithin h.nesting v := by
    rintro v ⟨a, ha, hv⟩
    exact ((hvs a ha).occurs hv).nestedWithin
  intro depth hdepth
  have hagree := agree_of_le (h := h) hdepth
  refine ⟨⟨fun a b ha hb => ?_, fun a ha => ?_⟩, fun a ha v hv => ?_⟩
  · exact hagree.equal a b (hnested a ha) (hnested b hb)
  · exact hagree.digest a (hnested a ha)
  · exact (hnested v ⟨a, ha, hv⟩).printWithin_eq hdepth

end

end Heap

end DispatchLisp
