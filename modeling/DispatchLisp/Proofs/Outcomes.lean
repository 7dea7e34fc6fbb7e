import DispatchLisp.Proofs.Natives

/-! # Outcomes of calls

A function of the prelude that works on values and the heap has one of two outcomes.  It gives a
value and leaves a heap (`World.Performs`), or it fails and leaves everything as it was
(`World.Fails`).  Either way the rest of the state stays the same, wherever the call is made.  What
the outcome is can be seen from the overload that is selected (`World.performs_of_selected`,
`World.fails_of_selected`). -/

namespace DispatchLisp

namespace Overloads

variable {name : String} {e : Entry} {front back entries : List Entry} {args : List Value}

/-- The only overload whose kinds the arguments are of is selected. -/
theorem selected_only (hnamed : named name entries = ⟨name, front ++ e :: back⟩)
    (hargs : Entry.Matches e.variadic e.params args)
    (hothers : ∀ e' ∈ front ++ back, ¬ Entry.Matches e'.variadic e'.params args) :
    (named name entries).selected args = .ok e := by
  rw [hnamed]
  refine selected_of_matches (i := front.length) (by simp) hargs ?_
  intro j e' hj hne hargs'
  refine absurd hargs' (hothers e' ?_)
  have hmem : e' ∈ (front ++ e :: back).eraseIdx front.length :=
    List.mem_eraseIdx_iff_getElem?.mpr ⟨j, hne, hj⟩
  simpa [List.eraseIdx_append_of_length_le] using hmem

/-- The only overload of a name is selected if the arguments are of its kinds. -/
theorem selected_sole (hnamed : named name entries = ⟨name, [e]⟩)
    (hargs : Entry.Matches e.variadic e.params args) :
    (named name entries).selected args = .ok e := by
  have hnamed : named name entries = ⟨name, [] ++ e :: []⟩ := hnamed
  exact selected_only hnamed hargs (by simp)

end Overloads

namespace World

/-- Wherever it is called while the heap is `h`, the function of this name gives the value for the
arguments and leaves the heap `h'`; nothing else changes. -/
def Performs (w : World) (name : String) (args : List Value) (h : Heap) (v : Value) (h' : Heap) :
    Prop :=
  ∃ f, w.state.scopes.lookup w.prelude name = some (.function f) ∧
    ∀ scope s, s.heap = h →
      (w.state.overloads f).call args scope s = .done (.ok v) { s with heap := h' }

/-- Wherever it is called while the heap is `h`, the function of this name fails for the cause, with
the calls that are running as the trace, and changes nothing. -/
def Fails (w : World) (name : String) (args : List Value) (h : Heap) (c : Cause) : Prop :=
  ∃ f, w.state.scopes.lookup w.prelude name = some (.function f) ∧
    ∀ scope s, s.heap = h →
      (w.state.overloads f).call args scope s =
        .done (.error (.traced (.base c) (name :: s.calls))) s

section

variable {w : World} {name : String} {args : List Value} {h h' : Heap} {v : Value} {c : Cause}

theorem Gives.performs (hgives : w.Gives name args v) (h : Heap) : w.Performs name args h v h := by
  obtain ⟨f, hlookup, hcall⟩ := hgives
  refine ⟨f, hlookup, ?_⟩
  rintro scope s rfl
  exact hcall scope s

theorem Performs.unique {v' : Value} {h'' : Heap} (h₁ : w.Performs name args h v h')
    (h₂ : w.Performs name args h v' h'') : v' = v ∧ h'' = h' := by
  obtain ⟨f, hlookup, hcall⟩ := h₁
  obtain ⟨f', hlookup', hcall'⟩ := h₂
  obtain rfl : f = f' := by simpa [hlookup] using hlookup'
  have hsame := (hcall' w.prelude { w.state with heap := h } rfl).symm.trans (hcall _ _ rfl)
  simpa using hsame

theorem Performs.not_fails (h₁ : w.Performs name args h v h') : ¬ w.Fails name args h c := by
  rintro ⟨f', hlookup', hcall'⟩
  obtain ⟨f, hlookup, hcall⟩ := h₁
  obtain rfl : f = f' := by simpa [hlookup] using hlookup'
  -- Both would be so in a state with this heap, and there is one.
  have hsame := (hcall w.prelude { w.state with heap := h } rfl).symm.trans (hcall' _ _ rfl)
  simp at hsame

end

section

variable (limit : Nat) {name : String} {args : List Value} {e : Entry}
  {run : List Value → HeapM Value} {h h' : Heap} {v : Value} {c : Cause}

/-- What a function does can be seen from the overload that is selected. -/
theorem exists_call (hbody : e.body = .native run)
    (hselected : (Overloads.named name (Prelude.core ++ Prelude.entries)).selected args = .ok e) :
    ∃ f, (new limit).state.scopes.lookup (new limit).prelude name = some (.function f) ∧
      ∀ scope s, ((new limit).state.overloads f).call args scope s =
        .done (Eval.attachTrace (name :: s.calls) (run args s.heap).1)
          { s with heap := (run args s.heap).2 } := by
  obtain ⟨i, -, hi⟩ := (Overloads.selected_eq_ok_iff _ args).mp hselected
  obtain ⟨he, rfl⟩ := Overloads.mem_named.mp (List.mem_of_getElem? hi)
  obtain ⟨f, hlookup, -, hset⟩ := (registered_new limit).found e he
  refine ⟨f, hlookup, fun scope s => ?_⟩
  rw [hset, Overloads.call, hselected]
  simp only [Entry.call, Eval.framed, Eval.atEnd, Entry.run, hbody]
  rfl

theorem performs_of_selected (hbody : e.body = .native run)
    (hselected : (Overloads.named name (Prelude.core ++ Prelude.entries)).selected args = .ok e)
    (hrun : run args h = (.ok v, h')) : (new limit).Performs name args h v h' := by
  obtain ⟨f, hlookup, hcall⟩ := exists_call limit hbody hselected
  refine ⟨f, hlookup, ?_⟩
  rintro scope s rfl
  rw [hcall, hrun]
  rfl

theorem fails_of_selected (hbody : e.body = .native run)
    (hselected : (Overloads.named name (Prelude.core ++ Prelude.entries)).selected args = .ok e)
    (hrun : run args h = (.error (.base c), h)) : (new limit).Fails name args h c := by
  obtain ⟨f, hlookup, hcall⟩ := exists_call limit hbody hselected
  refine ⟨f, hlookup, ?_⟩
  rintro scope s rfl
  rw [hcall, hrun]
  rfl

end

end World

end DispatchLisp
