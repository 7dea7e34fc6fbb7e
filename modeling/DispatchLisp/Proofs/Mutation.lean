import DispatchLisp.Proofs.Collections

/-! # What a change of the heap leaves alone

A heap can have one collection more and all others as before (`Heap.Allocates`), or the same
collections and all but one as before (`Heap.Alters`).

A value is *intact* if nothing that occurs in it is changed.  Then it is nested as deeply as before,
has the same digest and is equal to the same intact values (`Heap.agree_of_intact`), although
comparisons may descend deeper in a heap with more collections. -/

namespace DispatchLisp

namespace Heap

/-! ### What stays the same -/

/-- The collection is the same in both heaps.  No other value can be changed. -/
def Unchanged (h h' : Heap) : Value → Prop
  | .list i => h'.items i = h.items i
  | .table i => h'.tableAt i = h.tableAt i
  | _ => True

theorem Unchanged.refl (h : Heap) (v : Value) : h.Unchanged h v := by
  cases v with
  | list => rfl
  | table => rfl
  | _ => trivial

theorem Unchanged.symm {h h' : Heap} {v : Value} (hv : h.Unchanged h' v) : h'.Unchanged h v := by
  cases v with
  | list => exact Eq.symm hv
  | table => exact Eq.symm hv
  | _ => trivial

theorem Unchanged.trans {h₁ h₂ h₃ : Heap} {v : Value} (h₁₂ : h₁.Unchanged h₂ v)
    (h₂₃ : h₂.Unchanged h₃ v) : h₁.Unchanged h₃ v := by
  cases v with
  | list => exact Eq.trans h₂₃ h₁₂
  | table => exact Eq.trans h₂₃ h₁₂
  | _ => trivial

theorem Unchanged.parts_eq {h h' : Heap} {v : Value} (hv : h.Unchanged h' v) :
    h'.parts v = h.parts v := by
  cases v with
  | list i => exact hv
  | table i =>
      have htable : h'.tableAt i = h.tableAt i := hv
      rw [parts, parts, entries, entries, htable]
  | _ => rfl

@[simp] theorem list_mem_collections {h : Heap} {i : Nat} :
    .list i ∈ h.collections ↔ i < h.lists.size := by
  simp [collections]

@[simp] theorem table_mem_collections {h : Heap} {i : Nat} :
    .table i ∈ h.collections ↔ i < h.tables.size := by
  simp [collections]

theorem exists_of_mem_collections {h : Heap} {v : Value} (hv : v ∈ h.collections) :
    (∃ i, v = .list i ∧ i < h.lists.size) ∨ ∃ i, v = .table i ∧ i < h.tables.size := by
  rcases List.mem_append.mp hv with hlist | htable
  · obtain ⟨i, hi, rfl⟩ := List.mem_map.mp hlist
    exact .inl ⟨i, rfl, List.mem_range.mp hi⟩
  · obtain ⟨i, hi, rfl⟩ := List.mem_map.mp htable
    exact .inr ⟨i, rfl, List.mem_range.mp hi⟩

/-- The second heap has one collection more, and all others as before. -/
structure Allocates (h : Heap) (v : Value) (h' : Heap) : Prop where
  fresh : v ∉ h.collections
  collections : ∀ w, w ∈ h'.collections ↔ w ∈ h.collections ∨ w = v
  others : ∀ w ∈ h.collections, h.Unchanged h' w
  locks : h'.locks = h.locks

/-- The second heap has the same collections, and all but one as before. -/
structure Alters (h : Heap) (v : Value) (h' : Heap) : Prop where
  collections : h'.collections = h.collections
  others : ∀ w, w ≠ v → h.Unchanged h' w
  locks : h'.locks = h.locks

section

variable {h : Heap} {l t : Nat} {items : List Value} {table : Table}

theorem tableAt_newTable (h : Heap) (table : Table) :
    (h.newTable table).2.tableAt h.tables.size = table := by
  simp [tableAt, newTable]

theorem tableAt_setTable (ht : t < h.tables.size) : (h.setTable t table).tableAt t = table := by
  simp [tableAt, setTable, ht]

theorem allocates_newTable (h : Heap) (table : Table) :
    h.Allocates (.table h.tables.size) (h.newTable table).2 where
  fresh := by simp
  collections w := by simp [Heap.collections, newTable, List.range_succ, or_assoc, eq_comm]
  others w hw := by
    rcases exists_of_mem_collections hw with ⟨i, rfl, -⟩ | ⟨i, rfl, hi⟩
    · rfl
    · simp [Unchanged, tableAt, newTable, Array.getElem?_push, hi, Nat.ne_of_lt hi]
  locks := rfl

theorem alters_setTable (h : Heap) (t : Nat) (table : Table) :
    h.Alters (.table t) (h.setTable t table) where
  collections := by simp [Heap.collections, setTable]
  others w hw := by
    cases w with
    | list i => rfl
    | table i =>
        have hi : t ≠ i := fun heq => hw (by rw [heq])
        simp [Unchanged, tableAt, setTable, hi]
    | _ => trivial
  locks := rfl

end

/-! ### Intact values -/

/-- Nothing that occurs in the value is changed. -/
def Intact (h h' : Heap) (v : Value) : Prop := ∀ w, h.Occurs v w → h.Unchanged h' w

/-- A value is intact if it is one of some values that are unchanged and have no other parts. -/
theorem intact_of_closed {h h' : Heap} {l : List Value}
    (hclosed : ∀ v ∈ l, ∀ w ∈ h.parts v, w ∈ l) (hl : ∀ v ∈ l, h.Unchanged h' v) {v : Value}
    (hv : v ∈ l) : h.Intact h' v :=
  fun w hw => hl w (hw.mem_of_closed hclosed hv)

/-- An address without a collection has nothing that could change. -/
theorem unchanged_of_notMem {h h' : Heap} {v : Value} (hv : v ∉ h.collections)
    (hv' : v ∉ h'.collections) : h.Unchanged h' v := by
  cases v with
  | list i =>
      simp only [list_mem_collections, Nat.not_lt] at hv hv'
      simp [Unchanged, items, hv, hv']
  | table i =>
      simp only [table_mem_collections, Nat.not_lt] at hv hv'
      simp [Unchanged, tableAt, hv, hv']
  | _ => trivial

/-- A value that does not contain the new collection is intact. -/
theorem Allocates.intact {h h' : Heap} {v w : Value} (ha : h.Allocates w h')
    (hv : ¬ h.Occurs v w) : h.Intact h' v := by
  intro x hx
  by_cases hmem : x ∈ h.collections
  · exact ha.others x hmem
  · refine unchanged_of_notMem hmem fun hmem' => ?_
    rcases (ha.collections x).mp hmem' with hold | rfl
    · exact hmem hold
    · exact hv hx

/-- A value that does not contain the collection that is altered is intact. -/
theorem Alters.intact {h h' : Heap} {v w : Value} (ha : h.Alters w h') (hv : ¬ h.Occurs v w) :
    h.Intact h' v := by
  intro x hx
  apply ha.others x
  rintro rfl
  exact hv hx

namespace Intact

variable {h h' : Heap} {v w : Value}

theorem refl (h : Heap) (v : Value) : h.Intact h v := fun w _ => .refl h w

theorem unchanged (hv : h.Intact h' v) : h.Unchanged h' v := hv v .refl

theorem part (hv : h.Intact h' v) (hw : h.HasPart v w) : h.Intact h' w :=
  fun x hx => hv x (hx.head hw)

theorem occurs (hv : h.Intact h' v) (hw : h.Occurs v w) : h'.Occurs v w := by
  induction hw with
  | refl => exact .refl
  | @tail x y hx hpart ih =>
      refine ih.tail ?_
      rw [HasPart, (hv x hx).parts_eq]
      exact hpart

theorem occurs_iff (hv : h.Intact h' v) : h'.Occurs v w ↔ h.Occurs v w := by
  refine ⟨fun hw => ?_, hv.occurs⟩
  induction hw with
  | refl => exact .refl
  | @tail x y _ hpart ih =>
      rw [HasPart, (hv x ih).parts_eq] at hpart
      exact ih.tail hpart

theorem symm (hv : h.Intact h' v) : h'.Intact h v :=
  fun w hw => (hv w (hv.occurs_iff.mp hw)).symm

theorem trans {h₁ h₂ h₃ : Heap} (h₁₂ : h₁.Intact h₂ v) (h₂₃ : h₂.Intact h₃ v) :
    h₁.Intact h₃ v :=
  fun w hw => (h₁₂ w hw).trans (h₂₃ w (h₁₂.occurs hw))

theorem nestedWithin_iff (hv : h.Intact h' v) (n : Nat) :
    h'.NestedWithin n v ↔ h.NestedWithin n v := by
  induction n generalizing v with
  | zero => rfl
  | succ n ih =>
      unfold NestedWithin
      rw [hv.unchanged.parts_eq]
      exact forall₂_congr fun w hw => ih (hv.part hw)

theorem acyclic (hv : h.Intact h' v) (hacyclic : h'.Acyclic v) : h.Acyclic v :=
  ((hv.nestedWithin_iff _).mp hacyclic.nestedWithin).acyclic

theorem marksWithin_eq (hv : h.Intact h' v) (n : Nat) (marks : Digest) :
    h.marksWithin n v marks = h'.marksWithin n v marks := by
  induction n generalizing v marks with
  | zero => rfl
  | succ n ih =>
      unfold marksWithin
      cases v with
      | list i =>
          have hitems : h'.items i = h.items i := hv.unchanged
          have hmarks : (h.items i).foldr (h.marksWithin n) marks =
              (h.items i).foldr (h'.marksWithin n) marks :=
            List.foldr_ext _ _ _ fun w hw rest => ih (hv.part hw) rest
          simp only [hitems, hmarks]
      | table i =>
          have htable : h'.tableAt i = h.tableAt i := hv.unchanged
          simp only [htable]
      | _ => rfl

end Intact

/-! ### Equality in two heaps -/

section

variable {h h' : Heap}

theorem Compared.unchanged {t : KeyTest} {a b : Value} (hc : h.Compared t a b)
    (ha : h.Unchanged h' a) (hb : h.Unchanged h' b) : h'.Compared t a b := by
  cases hc with
  | same => exact .same a
  | real hxy => exact .real hxy
  | @list i j hitems =>
      have hi : h'.items i = h.items i := ha
      have hj : h'.items j = h.items j := hb
      exact .list (by rwa [hi, hj])
  | @table i j hlength hall =>
      have hi : h'.tableAt i = h.tableAt i := ha
      have hj : h'.tableAt j = h.tableAt j := hb
      exact .table (by rwa [entries, entries, hi, hj]) (by rwa [entries, hi, hj])
  | function hid => exact .function hid
  | thread hid => exact .thread hid

/-- Down to the same depth, intact values are compared alike. -/
theorem agree_within (h h' : Heap) (n : Nat) :
    KeyTest.Agree ⟨h.equalWithin n, h.digestWithin n⟩ ⟨h'.equalWithin n, h'.digestWithin n⟩
      (h.Intact h') := by
  refine ⟨?_, fun a ha => ha.marksWithin_eq n []⟩
  induction n with
  | zero => exact fun _ _ _ _ => rfl
  | succ n ih =>
      intro a b ha hb
      have hagree : KeyTest.Agree ⟨h.equalWithin n, h.digestWithin n⟩
          ⟨h'.equalWithin n, h'.digestWithin n⟩ (h.Intact h') :=
        ⟨ih, fun a ha => ha.marksWithin_eq n []⟩
      dsimp only
      rw [Bool.eq_iff_iff, equalWithin_succ_iff, equalWithin_succ_iff]
      constructor
      · intro hc
        have hc' := hc.congr hagree (fun w => ha.part) fun w => hb.part
        exact hc'.unchanged ha.unchanged hb.unchanged
      · intro hc
        exact (hc.unchanged ha.unchanged.symm hb.unchanged.symm).congr hagree.symm
          (fun w => ha.part) fun w => hb.part

/-- **Intact values are compared alike in both heaps.** -/
theorem agree_of_intact (h h' : Heap) :
    KeyTest.Agree h.keys h'.keys fun v => h.Intact h' v ∧ h'.Acyclic v := by
  -- Both comparisons descend deep enough, so that they may as well descend to the same depth.
  have hle : h.nesting ≤ h.nesting + h'.nesting := Nat.le_add_right _ _
  have hle' : h'.nesting ≤ h.nesting + h'.nesting := Nat.le_add_left _ _
  have hdeep := agree_of_le (h := h) hle
  have hdeep' := agree_of_le (h := h') hle'
  have hsame := agree_within h h' (h.nesting + h'.nesting)
  constructor
  · rintro a b ⟨ha, hacyclic⟩ ⟨hb, hbcyclic⟩
    have h₁ := hdeep.equal a b (ha.acyclic hacyclic).nestedWithin (hb.acyclic hbcyclic).nestedWithin
    have h₂ := hdeep'.equal a b hacyclic.nestedWithin hbcyclic.nestedWithin
    exact h₁.symm.trans ((hsame.equal a b ha hb).trans h₂)
  · rintro a ⟨ha, hacyclic⟩
    have h₁ := hdeep.digest a (ha.acyclic hacyclic).nestedWithin
    have h₂ := hdeep'.digest a hacyclic.nestedWithin
    exact h₁.symm.trans ((hsame.digest a ha).trans h₂)

end

end Heap

end DispatchLisp
