import DispatchLisp.Prelude
import DispatchLisp.Proofs.Selection

/-! # Errors without a trace

A trace is attached to an error where a call ends.  Errors begin without one: whatever is wrong with
a node or with the arguments of a function is reported as a bare cause, perhaps with a hint.

Functions that the host program adds could do otherwise.  `State.Untraced` says that no function of
a state does; it holds of the prelude (`Prelude.untraced_core` and `Prelude.untraced_entries`). -/

namespace DispatchLisp

namespace Error

theorem trace?_withTrace {e : Error} (h : e.trace? = none) {calls : List String}
    (hcalls : calls ≠ []) : (e.withTrace calls).trace? = some calls := by
  induction e with
  | base c => simp [withTrace, trace?, hcalls]
  | traced inner old => cases h
  | hinted inner hint ih => exact ih h

theorem cause_withTrace (calls : List String) (e : Error) :
    (e.withTrace calls).cause = e.cause := by
  induction e with
  | base c =>
      unfold withTrace
      split <;> rfl
  | traced inner old => rfl
  | hinted inner hint ih => exact ih

end Error

theorem trace?_nameError (c : Cause) (name : String) (visible : List String) :
    (nameError c name visible).trace? = none := by
  unfold nameError
  split
  · rfl
  · split <;> rfl

theorem State.trace?_notCallableError (s : State) (scope : Scope) (v : Value) :
    (s.notCallableError scope v).trace? = none := by
  unfold State.notCallableError
  split
  · exact trace?_nameError _ _ _
  · rfl

/-! ### Computations on the heap -/

namespace HeapM

variable {α β : Type}

/-- Every error that the computation fails with has the property. -/
def FailsOnly (p : Error → Prop) (m : HeapM α) : Prop := ∀ h e, (m h).1 = .error e → p e

namespace FailsOnly

variable {p : Error → Prop}

@[simp] theorem pure (a : α) : FailsOnly p (pure a : HeapM α) := by
  intro h e he
  cases he

theorem fail {c : Cause} (hc : p (.base c)) : FailsOnly p (HeapM.fail c : HeapM α) := by
  intro h e he
  cases he
  exact hc

@[simp] theorem reads (f : Heap → α) : FailsOnly p (HeapM.reads f) := by
  intro h e he
  cases he

@[simp] theorem modify (f : Heap → Heap) : FailsOnly p (HeapM.modify f) := by
  intro h e he
  cases he

@[simp] theorem update (f : Heap → α × Heap) : FailsOnly p (HeapM.update f) := by
  intro h e he
  cases he

theorem bind {m : HeapM α} {f : α → HeapM β} (hm : FailsOnly p m)
    (hf : ∀ a, FailsOnly p (f a)) : FailsOnly p (m >>= f) := by
  intro h e he
  change (ExceptT.bindCont f (m h).1 (m h).2).1 = .error e at he
  cases hr : (m h).1 with
  | ok a =>
      rw [hr] at he
      exact hf a (m h).2 e he
  | error e' =>
      rw [hr] at he
      cases he
      exact hm h e hr

end FailsOnly

/-- The computation fails only with errors that have no trace. -/
def Untraced (m : HeapM α) : Prop := ∀ h e, (m h).1 = .error e → e.trace? = none

namespace Untraced

@[simp] theorem pure (a : α) : Untraced (pure a : HeapM α) := FailsOnly.pure a

@[simp] theorem fail (c : Cause) : Untraced (HeapM.fail c : HeapM α) := FailsOnly.fail rfl

@[simp] theorem reads (f : Heap → α) : Untraced (HeapM.reads f) := FailsOnly.reads f

@[simp] theorem modify (f : Heap → Heap) : Untraced (HeapM.modify f) := FailsOnly.modify f

@[simp] theorem update (f : Heap → α × Heap) : Untraced (HeapM.update f) := FailsOnly.update f

@[simp] theorem bind {m : HeapM α} {f : α → HeapM β} (hm : m.Untraced)
    (hf : ∀ a, (f a).Untraced) : (m >>= f).Untraced := FailsOnly.bind hm hf

@[simp] theorem newList (items : List Value) : Untraced (HeapM.newList items) := update _

@[simp] theorem items (l : Nat) : Untraced (HeapM.items l) := reads _

@[simp] theorem refuse (args : List Value) : Untraced (Prelude.refuse args : HeapM α) := fail _

end Untraced

end HeapM

/-! ### Functions -/

/-- The form fails by itself only with errors that have no trace. -/
def SpecialForm.Untraced : SpecialForm → Prop
  | .host run => ∀ args, (run args).Untraced
  | _ => True

/-- What the overload does by itself fails only with errors that have no trace. -/
def Body.Untraced : Body → Prop
  | .native run => ∀ args, (run args).Untraced
  | .special form => form.Untraced
  | _ => True

/-- All overloads fail by themselves only with errors that have no trace. -/
def Overloads.Untraced (o : Overloads) : Prop := ∀ e ∈ o.entries, e.body.Untraced

/-- All functions fail by themselves only with errors that have no trace. -/
def State.Untraced (s : State) : Prop := ∀ o ∈ s.functions, o.Untraced

namespace Overloads

variable {o : Overloads}

theorem untraced_single {e : Entry} (h : e.body.Untraced) : (single e).Untraced := by
  simpa [Untraced, single] using h

theorem Untraced.extend (h : o.Untraced) {e : Entry} (he : e.body.Untraced) :
    (o.extend e).Untraced := by
  intro e' he'
  rcases List.mem_append.mp he' with he' | he'
  · exact h e' he'
  · rwa [List.mem_singleton.mp he']

theorem Untraced.special? (h : o.Untraced) {form : SpecialForm} (hform : o.special? = some form) :
    form.Untraced := by
  obtain ⟨e, he, hbody⟩ := List.exists_of_findSome?_eq_some hform
  have huntraced := h e he
  split at hbody
  case h_1 form' hspecial =>
    cases hbody
    rw [hspecial] at huntraced
    exact huntraced
  case h_2 => cases hbody

theorem Untraced.selected (h : o.Untraced) {args : List Value} {e : Entry}
    (he : o.selected args = .ok e) : e.body.Untraced := by
  obtain ⟨i, -, hi⟩ := (o.selected_eq_ok_iff args).mp he
  exact h e (List.mem_of_getElem? hi)

end Overloads

namespace State

variable {s : State}

theorem Untraced.overloads (h : s.Untraced) (f : FunctionRef) : (s.overloads f).Untraced := by
  unfold State.overloads
  rw [Array.getD_eq_getD_getElem?]
  cases hf : s.functions[f.id]? with
  | none => exact fun e he => by cases he
  | some o => exact h o (Array.mem_of_getElem? hf)

theorem Untraced.newFunction (h : s.Untraced) {o : Overloads} (ho : o.Untraced) :
    (s.newFunction o).2.Untraced := by
  intro o' ho'
  rcases Array.mem_push.mp ho' with ho' | rfl
  · exact h o' ho'
  · exact ho

theorem Untraced.register (h : s.Untraced) (scope : Scope) {e : Entry} (he : e.body.Untraced) :
    (s.register scope e).Untraced := by
  unfold State.register
  refine Untraced.newFunction h ?_
  split
  · exact (h.overloads _).extend he
  · exact Overloads.untraced_single he

theorem Untraced.install (h : s.Untraced) (scope : Scope) {entries : List Entry}
    (hentries : ∀ e ∈ entries, e.body.Untraced) : (Prelude.install scope entries s).Untraced := by
  induction entries generalizing s with
  | nil => exact h
  | cons e es ih =>
      obtain ⟨he, hes⟩ := List.forall_mem_cons.mp hentries
      exact ih (h.register scope he) hes

end State

/-! ### Quoted data and cells -/

mutual

theorem Form.untraced_quoted (n : Node) : (Form.quoted n).Untraced := by
  match n with
  | .atom v => exact .pure v
  | .form v kids =>
      by_cases hempty : v = .nil ∧ kids = []
      · obtain ⟨rfl, rfl⟩ := hempty
        exact .newList []
      · rw [Form.quoted.eq_3 v kids fun hv hkids => hempty ⟨hv, hkids⟩]
        exact .bind (Form.untraced_quotedAll kids) fun _ => .newList _

theorem Form.untraced_quotedAll (ns : List Node) : (Form.quotedAll ns).Untraced := by
  match ns with
  | [] => exact .pure []
  | n :: ns =>
      refine .bind (Form.untraced_quoted n) fun v => ?_
      exact .bind (Form.untraced_quotedAll ns) fun vs => .pure _

end

namespace Prelude

open HeapM

theorem untraced_cell (operation : String) (stream : Value) : (cell operation stream).Untraced := by
  unfold cell
  split
  · exact .fail _
  · refine .bind (.items _) fun items => ?_
    split <;> simp
  · exact .fail _

theorem untraced_cells (operation : String) (streams : List Value) :
    (cells operation streams).Untraced := by
  induction streams with
  | nil => exact .pure _
  | cons s ss ih =>
      refine .bind (untraced_cell operation s) fun (head, rest) => ?_
      exact .bind ih fun (heads, rests) => .pure _

/-! ### Arithmetic and comparison -/

variable (args : List Value)

@[simp] theorem untraced_onInts (f : List Int → Option Int) : (onInts f args).Untraced := by
  fun_cases onInts f args <;> simp

@[simp] theorem untraced_onDecimals (f : List Decimal → Option Decimal) :
    (onDecimals f args).Untraced := by
  fun_cases onDecimals f args <;> simp

@[simp] theorem untraced_divide : (divide args).Untraced := by
  fun_cases divide args <;> simp

@[simp] theorem untraced_modulo : (modulo args).Untraced := by
  fun_cases modulo args <;> simp

@[simp] theorem untraced_absolute : (absolute args).Untraced := by
  fun_cases absolute args <;> simp

@[simp] theorem untraced_toText : (toText args).Untraced := by
  fun_cases toText args <;> simp

@[simp] theorem untraced_toInt : (toInt args).Untraced := by
  fun_cases toInt args <;> simp

@[simp] theorem untraced_toReal : (toReal args).Untraced := by
  fun_cases toReal args <;> simp

@[simp] theorem untraced_equal : (equal args).Untraced := by
  fun_cases equal args <;> simp

@[simp] theorem untraced_different : (different args).Untraced := by
  fun_cases different args <;> simp

@[simp] theorem untraced_chain (operation : String) (wanted : Ordering → Bool) :
    (chain operation wanted args).Untraced := by
  fun_cases chain operation wanted args <;> simp

@[simp] theorem untraced_negation : (negation args).Untraced := by
  fun_cases negation args <;> simp

/-! ### Collections -/

@[simp] theorem untraced_cons : (cons args).Untraced := by
  fun_cases cons args <;> simp

@[simp] theorem untraced_first (operation : String) : (first operation args).Untraced := by
  fun_cases first operation args
  · refine .bind (.items _) fun items => ?_
    split <;> simp
  · exact .refuse _

@[simp] theorem untraced_rest : (rest args).Untraced := by
  fun_cases rest args
  · refine .bind (.items _) fun items => ?_
    split <;> simp
  · exact .refuse _

@[simp] theorem untraced_last : (last args).Untraced := by
  fun_cases last args
  · refine .bind (.items _) fun items => ?_
    split <;> simp
  · exact .refuse _

@[simp] theorem untraced_length : (length args).Untraced := by
  fun_cases length args <;> simp

theorem untraced_index (operation : String) (v : Value) (length : Nat) :
    (index operation v length).Untraced := by
  unfold index
  split
  · split
    · exact .pure _
    · exact .bind (.reads _) fun _ => .fail _
  · exact .bind (.reads _) fun _ => .fail _

@[simp] theorem untraced_listRef : (listRef args).Untraced := by
  fun_cases listRef args
  · exact .bind (.items _) fun _ => .bind (untraced_index _ _ _) fun _ => .pure _
  · exact .refuse _

@[simp] theorem untraced_listAdd : (listAdd args).Untraced := by
  fun_cases listAdd args <;> simp

@[simp] theorem untraced_listAddInPlace : (listAddInPlace args).Untraced := by
  fun_cases listAddInPlace args
  · exact .bind (.modify _) fun _ => .pure _
  · exact .refuse _

@[simp] theorem untraced_listSet : (listSet args).Untraced := by
  fun_cases listSet args
  · exact .bind (.items _) fun _ => .bind (untraced_index _ _ _) fun _ => .newList _
  · exact .refuse _

@[simp] theorem untraced_listSetInPlace : (listSetInPlace args).Untraced := by
  fun_cases listSetInPlace args
  · refine .bind (.items _) fun _ => .bind (untraced_index _ _ _) fun _ => ?_
    exact .bind (.modify _) fun _ => .pure _
  · exact .refuse _

@[simp] theorem untraced_listRemove : (listRemove args).Untraced := by
  fun_cases listRemove args
  · exact .bind (.items _) fun _ => .bind (untraced_index _ _ _) fun _ => .newList _
  · exact .refuse _

@[simp] theorem untraced_listRemoveInPlace : (listRemoveInPlace args).Untraced := by
  fun_cases listRemoveInPlace args
  · refine .bind (.items _) fun _ => .bind (untraced_index _ _ _) fun _ => ?_
    exact .bind (.modify _) fun _ => .pure _
  · exact .refuse _

@[simp] theorem untraced_listContains : (listContains args).Untraced := by
  fun_cases listContains args <;> simp

@[simp] theorem untraced_reverse : (reverse args).Untraced := by
  fun_cases reverse args <;> simp

@[simp] theorem untraced_range : (range args).Untraced := by
  fun_cases range args <;> simp

@[simp] theorem untraced_joinTexts : (joinTexts args).Untraced := by
  fun_cases joinTexts args <;> simp

@[simp] theorem untraced_joinLists : (joinLists args).Untraced := by
  fun_cases joinLists args <;> simp

@[simp] theorem untraced_table : (table args).Untraced := by
  fun_cases table args <;> simp

@[simp] theorem untraced_tablePut : (tablePut args).Untraced := by
  fun_cases tablePut args <;> simp

@[simp] theorem untraced_tablePutInPlace : (tablePutInPlace args).Untraced := by
  fun_cases tablePutInPlace args
  · exact .bind (.modify _) fun _ => .pure _
  · exact .refuse _

@[simp] theorem untraced_tableGet : (tableGet args).Untraced := by
  fun_cases tableGet args <;> simp

@[simp] theorem untraced_tableRemove : (tableRemove args).Untraced := by
  fun_cases tableRemove args <;> simp

@[simp] theorem untraced_tableRemoveInPlace : (tableRemoveInPlace args).Untraced := by
  fun_cases tableRemoveInPlace args
  · exact .bind (.modify _) fun _ => .pure _
  · exact .refuse _

@[simp] theorem untraced_tableKeys : (tableKeys args).Untraced := by
  fun_cases tableKeys args <;> simp

@[simp] theorem untraced_tableValues : (tableValues args).Untraced := by
  fun_cases tableValues args <;> simp

@[simp] theorem untraced_tableContains : (tableContains args).Untraced := by
  fun_cases tableContains args <;> simp

/-! ### The rest of the prelude -/

@[simp] theorem untraced_hasKind (kinds : List Kind) : (hasKind kinds args).Untraced := by
  fun_cases hasKind kinds args <;> simp

@[simp] theorem untraced_kindOf : (kindOf args).Untraced := by
  fun_cases kindOf args <;> simp

@[simp] theorem untraced_forced : (forced args).Untraced := by
  fun_cases forced args <;> simp

@[simp] theorem untraced_isEmptyStream : (isEmptyStream args).Untraced := by
  fun_cases isEmptyStream args <;> simp

@[simp] theorem untraced_streamFirst : (streamFirst args).Untraced := by
  fun_cases streamFirst args
  · exact .bind (untraced_cell _ _) fun (_, _) => .pure _
  · exact .refuse _

@[simp] theorem untraced_makeLock : (makeLock args).Untraced := by
  fun_cases makeLock args <;> simp

@[simp] theorem untraced_unlock : (unlock args).Untraced := by
  fun_cases unlock args
  · refine .bind (.update _) fun wasHeld => ?_
    split <;> simp
  · exact .refuse _

@[simp] theorem untraced_isLocked : (isLocked args).Untraced := by
  fun_cases isLocked args <;> simp

theorem untraced_core : ∀ e ∈ core, e.body.Untraced := by
  simp [core, SpecialForm.table, Entry.ofSpecial, routine, Body.Untraced, SpecialForm.Untraced]

/-- **No function of the prelude attaches a trace by itself.** -/
theorem untraced_entries : ∀ e ∈ entries, e.body.Untraced := by
  simp only [entries, arithmetic, comparison, lists, tables, streams, higherOrder, predicates,
    reflection, output, concurrency, List.forall_mem_append, List.forall_mem_cons, fixed, variadic,
    routine, Body.Untraced]
  simp [conjunction, disjunction, list]

end Prelude

end DispatchLisp
