import DispatchLisp.Proofs.Bindings
import DispatchLisp.Proofs.Effects
import DispatchLisp.Proofs.Moves
import Mathlib.Order.Interval.Set.Basic

/-! # What a run can change

`State.Evolves own t s` says how a state may change in a piece of a run that owns the frames of
`own`: scopes, functions and threads are never lost, names are bound and removed only in owned
frames and in frames made since `t`, and no function that attaches traces by itself is made.

* `Program.Stays` says that a program, from one stop to the next, changes the state only so; it is
  proved for every regular computation (`Eval.Regular.stays`).
* `Machine.Plan.Runs` is the invariant of the machine: each fiber owns what it was given and what
  was made since the run began.  `Machine.Plan.Runs.run` is the run lemma. -/

namespace DispatchLisp

namespace State

/-- The thread has not begun; it will call the function in the scope. -/
def Fresh (s : State) (thread : Nat) (f : Value) (scope : Scope) : Prop :=
  ∃ t, s.threads[thread]? = some t ∧ t.phase = .fresh f scope

/-- Someone has asked for the result of the thread. -/
def Joined (s : State) (thread : Nat) : Prop :=
  ∃ t, s.threads[thread]? = some t ∧ t.joined = true

/-- The frames that are in `s` and not yet in `t`. -/
def made (t s : State) : Set Nat := Set.Ico t.scopes.frames.size s.scopes.frames.size

/-- How the state may change in a piece of a run that owns the frames of `own`. -/
structure Evolves (own : Set Nat) (t s : State) : Prop where
  frames : t.scopes.frames.size ≤ s.scopes.frames.size
  names : ∀ i < t.scopes.frames.size, i ∉ own →
    ∀ x, (s.scopes.frame i).binds x = (t.scopes.frame i).binds x
  functions : t.functions.toList <+: s.functions.toList
  untraced : ∀ o ∈ s.functions, o ∈ t.functions ∨ o.Untraced
  threads : t.threads.size ≤ s.threads.size
  joined : ∀ i, t.Joined i → s.Joined i
  fresh : ∀ i f scope, s.Fresh i f scope →
    t.Fresh i f scope ∨ t.threads.size ≤ i ∧ scope.frame ∈ t.made s

namespace Evolves

variable {own own₁ own₂ : Set Nat} {t s u : State}

/-- The state may change in all that is not a scope, a function or a thread. -/
theorem of_eq (hscopes : s.scopes = t.scopes) (hfunctions : s.functions = t.functions)
    (hthreads : s.threads = t.threads) : t.Evolves own s where
  frames := by rw [hscopes]
  names i hi hown x := by rw [hscopes]
  functions := hfunctions ▸ List.prefix_rfl
  untraced o ho := by
    rw [hfunctions] at ho
    exact .inl ho
  threads := by rw [hthreads]
  joined i h := by
    unfold Joined at h ⊢
    rwa [hthreads]
  fresh i f scope h := by
    unfold Fresh at h ⊢
    rw [hthreads] at h
    exact .inl h

theorem refl (own : Set Nat) (s : State) : s.Evolves own s := of_eq rfl rfl rfl

/-- **Pieces of a run compose**: the second may own what the first owns or has made. -/
theorem after (first : t.Evolves own₁ s) (hown : own₂ ⊆ own₁ ∪ t.made s)
    (second : s.Evolves own₂ u) :
    t.Evolves own₁ u where
  frames := first.frames.trans second.frames
  names i hi hi' x := by
    have hi₂ : i ∉ own₂ := by
      intro h
      rcases hown h with h | h
      · exact hi' h
      · exact absurd hi (not_lt.mpr h.1)
    rw [second.names i (hi.trans_le first.frames) hi₂ x, first.names i hi hi' x]
  functions := first.functions.trans second.functions
  untraced o ho := (second.untraced o ho).elim (first.untraced o) .inr
  threads := first.threads.trans second.threads
  joined i h := second.joined i (first.joined i h)
  fresh i f scope h := by
    rcases second.fresh i f scope h with h | ⟨hi, hmade⟩
    · rcases first.fresh i f scope h with h | ⟨hi, hmade⟩
      · exact .inl h
      · exact .inr ⟨hi, hmade.1, hmade.2.trans_le second.frames⟩
    · exact .inr ⟨first.threads.trans hi, first.frames.trans hmade.1, hmade.2⟩

theorem mono (h : t.Evolves own₁ s) (hown : own₁ ⊆ own₂) : t.Evolves own₂ s :=
  (refl own₂ t).after (hown.trans Set.subset_union_left) h

theorem trans (first : t.Evolves own s) (second : s.Evolves own u) : t.Evolves own u :=
  first.after Set.subset_union_left second

end Evolves

theorem made_mono {t s u : State} {own : Set Nat} (h : s.Evolves own u) : t.made s ⊆ t.made u :=
  Set.Ico_subset_Ico_right h.frames

theorem made_after {t s u : State} {own : Set Nat} (h : t.Evolves own s) : s.made u ⊆ t.made u :=
  Set.Ico_subset_Ico_left h.frames

/-- What is owned grows by frames that are made. -/
theorem owned_after {own own' own₁ own₂ own₃ : Set Nat} {t s u : State} (first : t.Evolves own s)
    (hown : own₂ ⊆ own₁ ∪ t.made s) (second : s.Evolves own' u) (hown' : own₃ ⊆ own₂ ∪ s.made u) :
    own₃ ⊆ own₁ ∪ t.made u := by
  intro i hi
  rcases hown' hi with hi | hi
  · exact (hown hi).imp id fun hi => made_mono second hi
  · exact .inr (made_after first hi)

/-! ### Elementary changes -/

variable {own : Set Nat} (s : State)

/-- A change of one frame, which is owned or keeps its names. -/
theorem evolves_modifyFrame (i : Nat) (f : Frame → Frame)
    (h : i ∈ own ∨ ∀ x, (f (s.scopes.frame i)).binds x = (s.scopes.frame i).binds x) :
    s.Evolves own { s with scopes := s.scopes.modifyFrame i f } where
  frames := by simp [Scopes.modifyFrame]
  names j hj hown x := by
    rw [Scopes.frame_modifyFrame i f hj]
    split
    case isTrue hij =>
      subst hij
      rcases h with h | h
      · exact absurd h hown
      · exact h x
    case isFalse => rfl
  functions := List.prefix_rfl
  untraced _ ho := .inl ho
  threads := le_rfl
  joined _ h := h
  fresh _ _ _ h := .inl h

theorem evolves_define {scope : Scope} (name : String) (v : Value) (owned : scope.frame ∈ own) :
    s.Evolves own (s.define scope name v) :=
  s.evolves_modifyFrame scope.frame (Frame.put name v) (.inl owned)

/-- Changing a binding neither adds nor removes a name. -/
theorem evolves_assign (scope : Scope) (name : String) (v : Value) :
    s.Evolves own (s.assign scope name v).2 := by
  unfold State.assign
  split
  case h_1 i howner =>
    refine s.evolves_modifyFrame i (Frame.put name v) (.inr fun x => ?_)
    rw [Frame.binds_put]
    cases hx : name == x with
    | false => simp
    | true =>
        obtain rfl := eq_of_beq hx
        simp [Scopes.ownerIn?_binds howner]
  case h_2 => exact .refl own s

theorem evolves_remove {scope : Scope} (name : String) (owned : scope.frame ∈ own) :
    s.Evolves own (s.remove scope name).2 := by
  unfold State.remove Scopes.remove?
  cases (s.scopes.frame scope.frame).get? name with
  | none => exact .refl own s
  | some v => exact s.evolves_modifyFrame scope.frame (Frame.remove name) (.inl owned)

theorem evolves_newFunction {o : Overloads} (ho : o.Untraced) :
    s.Evolves own (s.newFunction o).2 where
  frames := le_rfl
  names _ _ _ _ := rfl
  functions := by simp [newFunction]
  untraced o' ho' := by
    rcases Array.mem_push.mp ho' with ho' | rfl
    · exact .inl ho'
    · exact .inr ho
  threads := le_rfl
  joined _ h := h
  fresh _ _ _ h := .inl h

theorem evolves_newChild (scope : Scope) : s.Evolves own (s.onScopes (·.newChild scope)).2 where
  frames := by simp [onScopes, Scopes.newChild]
  names i hi _ x := by
    simp only [onScopes]
    rw [Scopes.frame_newChild scope hi]
  functions := List.prefix_rfl
  untraced _ ho := .inl ho
  threads := le_rfl
  joined _ h := h
  fresh _ _ _ h := .inl h

/-- A change of a thread that does not make it fresh and does not forget that it was joined. -/
theorem evolves_modifyThread (i : Nat) (f : Thread → Thread)
    (h : ∀ t g scope, (f t).phase = .fresh g scope → t.phase = .fresh g scope)
    (hjoined : ∀ t, t.joined = true → (f t).joined = true) :
    s.Evolves own { s with threads := s.threads.modify i f } where
  frames := le_rfl
  names _ _ _ _ := rfl
  functions := List.prefix_rfl
  untraced _ ho := .inl ho
  threads := by simp
  joined j hj := by
    obtain ⟨t, ht, hjoin⟩ := hj
    unfold Joined
    rw [Array.getElem?_modify, ht]
    split
    · exact ⟨f t, rfl, hjoined t hjoin⟩
    · exact ⟨t, rfl, hjoin⟩
  fresh j g scope hfresh := by
    obtain ⟨t, ht, hphase⟩ := hfresh
    rw [Array.getElem?_modify] at ht
    split at ht
    case isTrue =>
      obtain ⟨t', ht', rfl⟩ := Option.map_eq_some_iff.mp ht
      exact .inl ⟨t', ht', h t' g scope hphase⟩
    case isFalse => exact .inl ⟨t, ht, hphase⟩

/-- A new thread works in a scope that was made for it. -/
theorem evolves_spawn (f : FunctionRef) (scope : Scope) :
    let (inner, made) := s.onScopes (·.newChild scope)
    s.Evolves own (made.spawn f inner).2 := by
  have hchild : s.Evolves own (s.onScopes (·.newChild scope)).2 := s.evolves_newChild scope
  refine { hchild with threads := by simp [spawn], joined := ?_, fresh := ?_ }
  · rintro i ⟨t, ht, hjoin⟩
    refine ⟨t, ?_, hjoin⟩
    have hi := (Array.getElem?_eq_some_iff.mp ht).1
    simp only [spawn, Array.getElem?_push]
    rw [if_neg hi.ne]
    exact ht
  · rintro i g place ⟨t, ht, hphase⟩
    simp only [spawn, Array.getElem?_push] at ht
    split at ht
    case isTrue hi =>
      cases ht
      cases hphase
      refine .inr ⟨hi.ge, ?_⟩
      simp [made, spawn]
    case isFalse => exact .inl ⟨t, ht, hphase⟩

theorem evolves_join (i : Nat) : s.Evolves own (s.join i) :=
  s.evolves_modifyThread i _ (fun _ _ _ h => h) fun _ _ => rfl

theorem evolves_begin (i : Nat) : s.Evolves own (s.begin i) :=
  s.evolves_modifyThread i _ (fun _ _ _ h => by cases h) fun _ h => h

theorem evolves_finish (i : Nat) (r : Result) : s.Evolves own (s.finish i r) :=
  s.evolves_modifyThread i _ (fun _ _ _ h => by cases h) fun _ h => h

end State

/-! ### Programs -/

namespace Program

variable {α β : Type}

/-- What the end of a program must satisfy: the frames that it owns by then, the state in which its
last piece began, and how it ends. -/
abbrev Goal (α : Type) := Set Nat → State → Except Error α → State → Prop

/-- The program ends as it runs: it changes only what it may. -/
def Ends (α : Type) : Goal α := fun own t _ s => t.Evolves own s

/-- From the state `t` on, and from each state in which it is resumed, the program changes only what
it may.  It owns the frames of `own` and, when it stops for a job or a wait, some frames that were
made since. -/
inductive Stays (goal : Goal α) : Set Nat → State → Program α → Prop
  | done {own : Set Nat} {t s : State} {r : Except Error α} (h : goal own t r s) :
      Stays goal own t (.done r s)
  | call {own own' : Set Nat} {t s : State} {job : Job} {next : Result → State → Program α}
      (piece : t.Evolves own s) (hown : own' ⊆ own ∪ t.made s) (owned : job.scope.frame ∈ own')
      (rest : ∀ r u, Stays goal own' u (next r u)) : Stays goal own t (.call job s next)
  | await {own own' : Set Nat} {t s : State} {c : Condition} {next : State → Program α}
      (piece : t.Evolves own s) (hown : own' ⊆ own ∪ t.made s)
      (rest : ∀ u, Stays goal own' u (next u)) : Stays goal own t (.await c s next)

/-- A goal that may be looked at from any earlier state. -/
def Goal.Closed (goal : Goal α) : Prop :=
  ∀ ⦃own₁ own₂ : Set Nat⦄ ⦃t s : State⦄, t.Evolves own₁ s → own₂ ⊆ own₁ ∪ t.made s →
    ∀ ⦃r u⦄, goal own₂ s r u → goal own₁ t r u

theorem closed_ends : (Ends α).Closed :=
  fun _ _ _ _ first hown _ _ second => first.after hown second

namespace Stays

variable {goal : Goal α} {own own₁ own₂ : Set Nat} {t s : State} {p : Program α}

/-- A program may be looked at from an earlier state. -/
theorem after (hgoal : goal.Closed) (first : t.Evolves own₁ s) (hown : own₂ ⊆ own₁ ∪ t.made s)
    (h : Stays goal own₂ s p) : Stays goal own₁ t p := by
  cases h with
  | done h => exact .done (hgoal first hown h)
  | call piece hown' owned rest =>
      exact .call (first.after hown piece) (State.owned_after first hown piece hown') owned rest
  | await piece hown' rest =>
      exact .await (first.after hown piece) (State.owned_after first hown piece hown') rest

theorem mono (hgoal : goal.Closed) (h : Stays goal own₁ t p) (hown : own₁ ⊆ own₂) :
    Stays goal own₂ t p :=
  h.after hgoal (.refl own₂ t) (hown.trans Set.subset_union_left)

/-- A program followed by another one: `base` is what the second one has to own. -/
theorem andThen_union {goal' : Goal β} {f : Except Error α → State → Program β} {base : Set Nat}
    (hgoal : goal.Closed) (h : Stays goal own t p)
    (hf : ∀ own' u r s, base ⊆ own' → goal own' u r s → Stays goal' own' u (f r s)) :
    Stays goal' (base ∪ own) t (p.andThen f) := by
  induction h with
  | @done own t s r h =>
      refine hf _ t r s Set.subset_union_left ?_
      exact hgoal (.refl _ t) (Set.subset_union_right.trans Set.subset_union_left) h
  | @call own own' t s job next piece hown owned rest ih =>
      have hgrown : base ∪ own' ⊆ base ∪ own ∪ t.made s := by
        rintro i (hi | hi)
        · exact .inl (.inl hi)
        · exact (hown hi).imp .inr id
      exact .call (piece.mono Set.subset_union_right) hgrown (.inr owned) ih
  | @await own own' t s c next piece hown rest ih =>
      have hgrown : base ∪ own' ⊆ base ∪ own ∪ t.made s := by
        rintro i (hi | hi)
        · exact .inl (.inl hi)
        · exact (hown hi).imp .inr id
      exact .await (piece.mono Set.subset_union_right) hgrown ih

theorem andThen {goal' : Goal β} {f : Except Error α → State → Program β} (hgoal : goal.Closed)
    (h : Stays goal own t p)
    (hf : ∀ own' u r s, own ⊆ own' → goal own' u r s → Stays goal' own' u (f r s)) :
    Stays goal' own t (p.andThen f) := by
  simpa using h.andThen_union hgoal hf

end Stays

end Program

/-! ### Regular computations -/

namespace Eval

open Program

variable {α β : Type}

/-- A computation followed by one that depends on its value. -/
theorem stays_bind {goal : Goal β} {own : Set Nat} {t : State} {m : Eval α} {f : α → Eval β}
    (hm : (m t).Stays (Ends α) own t)
    (hvalue : ∀ own' u a s, own ⊆ own' → u.Evolves own' s → (f a s).Stays goal own' u)
    (herror : ∀ own' u e s, own ⊆ own' → u.Evolves own' s → goal own' u (.error e) s) :
    ((m >>= f) t).Stays goal own t := by
  refine hm.andThen closed_ends fun own' u r s hown hevolves => ?_
  cases r with
  | ok a => exact hvalue own' u a s hown hevolves
  | error e => exact .done (herror own' u e s hown hevolves)

/-- A last step that keeps scopes, functions and threads. -/
theorem stays_atEnd {goal : Goal α} (hgoal : goal.Closed) {own : Set Nat} {t : State} {m : Eval α}
    (hm : (m t).Stays goal own t)
    {last : Except Error α → State → Except Error α × State}
    (hlast : ∀ own' u r s, goal own' u r s → goal own' u (last r s).1 (last r s).2) :
    (atEnd m last t).Stays goal own t :=
  hm.andThen hgoal fun own' u r s _ h => .done (hlast own' u r s h)

theorem stays_nested {goal : Goal α} (hgoal : goal.Closed) {own : Set Nat} {m : Eval α}
    (hm : ∀ t, (m t).Stays goal own t)
    (hrefused : ∀ t e, goal own t (.error e) t)
    (hdepth : ∀ own' u r s depth, goal own' u r s → goal own' u r { s with depth }) (t : State) :
    (nested m t).Stays goal own t := by
  unfold nested
  split
  · exact .done (hrefused t _)
  · have hdeeper : t.Evolves own { t with depth := t.depth + 1 } := .of_eq rfl rfl rfl
    refine Stays.after hgoal hdeeper Set.subset_union_left ?_
    exact stays_atEnd hgoal (hm _) fun own' u r s h => hdepth own' u r s _ h

/-- **A regular computation changes only what it may.** -/
theorem Regular.stays {own : Set Nat} {m : Eval α} (h : Regular False own m) (t : State) :
    (m t).Stays (Ends α) own t := by
  induction h generalizing t with
  | result r _ => exact .done (.refl _ t)
  | choose pick regular blind eq ih =>
      rw [eq t]
      exact ih t False.elim t
  | heap m _ => exact .done (.of_eq rfl rfl rfl)
  | define name value owned => exact .done (t.evolves_define name value owned)
  | assign scope name value => exact .done (t.evolves_assign scope name value)
  | remove name owned => exact .done (t.evolves_remove name owned)
  | makeFunction e untraced =>
      exact .done (t.evolves_newFunction (Overloads.untraced_single untraced))
  | print text => exact .done (.of_eq rfl rfl rfl)
  | spawn f scope => exact .done (t.evolves_spawn f scope)
  | join thread =>
      rw [Prelude.threadJoin_eq]
      split
      · exact .done (.refl _ t)
      · exact .await (t.evolves_join thread.id) Set.subset_union_left fun u => .done (.refl _ u)
  | perform owned =>
      exact .call (.refl _ t) Set.subset_union_left owned fun r u => .done (.refl _ u)
  | await c => exact .await (.refl _ t) Set.subset_union_left fun u => .done (.refl _ u)
  | bind first next ihm ihf =>
      refine stays_bind (ihm t) ?_ fun own' u e s _ hevolves => hevolves
      intro own' u a s hown hevolves
      exact (ihf a s).after closed_ends hevolves (hown.trans Set.subset_union_left)
  | @child own α f scope next ih =>
      have hchild : t.Evolves own (t.onScopes (·.newChild scope)).2 := t.evolves_newChild scope
      refine (ih _ (t.onScopes (·.newChild scope)).2).after closed_ends hchild ?_
      intro i hi
      rcases hi with rfl | hi
      · refine .inr ⟨le_rfl, ?_⟩
        simp [State.onScopes, Scopes.newChild]
      · exact .inl hi
  | nested inner ih =>
      refine stays_nested closed_ends ih (fun t e => .refl _ t) ?_ t
      exact fun own' u r s depth h => State.Evolves.trans h (.of_eq rfl rfl rfl)
  | @framed own α m name inner ih =>
      have hpushed : t.Evolves own (t.pushCall name) := .of_eq rfl rfl rfl
      refine Stays.after closed_ends hpushed Set.subset_union_left ?_
      refine stays_atEnd closed_ends (ih _) fun own' u r s h => ?_
      exact State.Evolves.trans h (.of_eq rfl rfl rfl)

end Eval

/-! ### Fibers as single programs -/

namespace Program

/-- What a fiber still has to do, as one program: its program, and then each of the programs that
wait for a result. -/
def plug (p : Program Value) : Stack → Program Value
  | [] => p
  | next :: stack => plug (p.andThen next) stack

theorem andThen_assoc {α β γ : Type} (p : Program α) (f : Except Error α → State → Program β)
    (g : Except Error β → State → Program γ) :
    (p.andThen f).andThen g = p.andThen fun r s => (f r s).andThen g := by
  induction p with
  | done r s => rfl
  | call job s next ih => simp only [andThen, ih]
  | await c s next ih => simp only [andThen, ih]

theorem andThen_done {α : Type} (p : Program α) : p.andThen .done = p := by
  induction p with
  | done r s => rfl
  | call job s next ih => simp only [andThen, ih]
  | await c s next ih => simp only [andThen, ih]

theorem plug_andThen (p : Program Value) (next : Result → State → Program Value) (stack : Stack) :
    (p.andThen next).plug stack = p.andThen fun r s => (next r s).plug stack := by
  induction stack generalizing next with
  | nil => rfl
  | cons next' stack ih =>
      rw [plug, andThen_assoc, ih]
      rfl

theorem plug_call (job : Job) (s : State) (next : Result → State → Program Value) (stack : Stack) :
    (Program.call job s next).plug stack = .call job s fun r s => (next r s).plug stack :=
  plug_andThen (.call job s .done) next stack

theorem plug_await (c : Condition) (s : State) (next : State → Program Value) (stack : Stack) :
    (Program.await c s next).plug stack = .await c s fun s => (next s).plug stack :=
  plug_andThen (.await c s (.done (.ok .nil))) (fun _ s => next s) stack

end Program

theorem Eval.bind_assoc {α β γ : Type} (m : Eval α) (f : α → Eval β) (g : β → Eval γ) :
    m >>= f >>= g = m >>= fun a => f a >>= g := by
  funext s
  refine (Program.andThen_assoc (m s) _ _).trans ?_
  refine congrArg (m s).andThen (funext fun r => funext fun t => ?_)
  cases r <;> rfl

/-! ### The machine -/

namespace Machine

open Program

/-- What the machine keeps to: what the main fiber and the other threads own at the beginning, and
how the main fiber may end. -/
structure Plan where
  main : Set Nat
  threads : Set Nat
  goal : Goal Value
  closed : goal.Closed
  /-- Whatever the goal says of names, the state evolves. -/
  evolves : ∀ ⦃own t r s⦄, goal own t r s → t.Evolves Set.univ s
  subset : threads ⊆ main

namespace Plan

variable (plan : Plan)

/-- What a fiber owns at the beginning. -/
def share : Option Nat → Set Nat
  | none => plan.main
  | some _ => plan.threads

/-- How a fiber may end. -/
def goalOf : Option Nat → Goal Value
  | none => plan.goal
  | some _ => Ends Value

theorem share_subset (thread : Option Nat) : plan.share thread ⊆ plan.main := by
  cases thread with
  | none => exact subset_rfl
  | some i => exact plan.subset

theorem goalOf_closed (thread : Option Nat) : (plan.goalOf thread).Closed := by
  cases thread with
  | none => exact plan.closed
  | some i => exact closed_ends

/-- The fiber keeps to the plan whenever it goes on; it owns its share and frames that were made
between `s₀` and `t`. -/
def Parked (s₀ t : State) (f : Fiber) : Prop :=
  ∃ own ⊆ plan.share f.thread ∪ s₀.made t,
    ∀ u, ((f.next u).plug f.stack).Stays (plan.goalOf f.thread) own u

/-- Between two turns: the state has evolved as planned, and all fibers keep to the plan. -/
structure Between (s₀ t : State) (waiting : List Fiber) : Prop where
  evolves : s₀.Evolves plan.main t
  parked : ∀ f ∈ waiting, plan.Parked s₀ t f
  fresh : ∀ i f scope, t.Fresh i f scope → scope.frame ∈ plan.threads ∪ s₀.made t

/-- The invariant of the machine: its fiber runs since the state `t`. -/
structure Runs (s₀ t : State) (m : Machine) : Prop extends plan.Between s₀ t m.waiting where
  running : ∃ own ⊆ plan.share m.thread ∪ s₀.made t,
    (m.program.plug m.stack).Stays (plan.goalOf m.thread) own t
  main : m.OneMain

variable {plan} {s₀ t s : State} {m m' : Machine} {waiting : List Fiber}

theorem Parked.later {f : Fiber} (h : plan.Parked s₀ t f) {own : Set Nat}
    (hevolves : t.Evolves own s) : plan.Parked s₀ s f := by
  obtain ⟨own', hown', hstays⟩ := h
  exact ⟨own', hown'.trans (Set.union_subset_union_right _ (State.made_mono hevolves)), hstays⟩

theorem Between.fresh_later (h : plan.Between s₀ t waiting) {own : Set Nat}
    (hevolves : t.Evolves own s) {i : Nat} {f : Value} {scope : Scope}
    (hfresh : s.Fresh i f scope) : scope.frame ∈ plan.threads ∪ s₀.made s := by
  rcases hevolves.fresh i f scope hfresh with hfresh | ⟨-, hmade⟩
  · exact (h.fresh i f scope hfresh).imp id fun hi => State.made_mono hevolves hi
  · exact .inr (State.made_after h.evolves hmade)

theorem Between.later (h : plan.Between s₀ t waiting) {own : Set Nat}
    (hown : own ⊆ plan.main ∪ s₀.made t) (hevolves : t.Evolves own s) :
    plan.Between s₀ s waiting where
  evolves := h.evolves.after hown hevolves
  parked f hf := (h.parked f hf).later hevolves
  fresh _ _ _ hfresh := h.fresh_later hevolves hfresh

/-- A change in all that is not a scope, a function or a thread. -/
theorem Between.of_eq (h : plan.Between s₀ t waiting) (hscopes : s.scopes = t.scopes)
    (hfunctions : s.functions = t.functions) (hthreads : s.threads = t.threads) :
    plan.Between s₀ s waiting :=
  h.later Set.subset_union_left (.of_eq hscopes hfunctions hthreads)

theorem fresh_of_freshThread? {i : Nat} {f : Value} {scope : Scope}
    (h : s.freshThread? = some (i, f, scope)) : s.Fresh i f scope := by
  unfold State.freshThread? at h
  obtain ⟨⟨t, j⟩, hmem, hphase⟩ := List.exists_of_findSome?_eq_some h
  have ht : s.threads[j]? = some t := by
    simpa using List.mem_zipIdx_iff_getElem?.mp hmem
  simp only at hphase
  split at hphase
  case h_1 g place hfresh =>
    cases hphase
    exact ⟨t, ht, hfresh⟩
  case h_2 => cases hphase

/-- Whatever fiber is chosen, it keeps to the plan. -/
theorem Between.chooses (h : plan.Between s₀ t waiting) (hchooses : Chooses waiting t m)
    (hmain : m.OneMain) : ∃ u, t.Evolves Set.univ u ∧ plan.Runs s₀ u m := by
  cases hchooses with
  | @fresh i f scope hfresh =>
      have hstart : t.Evolves ∅ { t.begin i with calls := [], depth := 0 } :=
        (t.evolves_begin i).trans (.of_eq rfl rfl rfl)
      have hbetween := h.later (Set.empty_subset _) hstart
      refine ⟨_, hstart.mono (Set.empty_subset _), hbetween, ⟨{scope.frame}, ?_, ?_⟩, hmain⟩
      · rw [Set.singleton_subset_iff]
        exact h.fresh i f scope (fresh_of_freshThread? hfresh)
      · exact (Job.regular (.apply f [] scope)).stays _
  | @ready time f rest hready =>
      have hparked : ∀ g ∈ f :: rest, plan.Parked s₀ t g := fun g hg =>
        h.parked g ((takeReady_perm hready).mem_iff.mpr hg)
      obtain ⟨own, hown, hstays⟩ := hparked f List.mem_cons_self
      have hrest : plan.Between s₀ t rest :=
        ⟨h.evolves, fun g hg => hparked g (List.mem_cons_of_mem _ hg), h.fresh⟩
      refine ⟨{ t with clock := time, calls := f.calls, depth := f.depth }, .of_eq rfl rfl rfl,
        hrest.of_eq rfl rfl rfl, ⟨own, hown, hstays _⟩, hmain⟩

/-- The fiber that runs stops, and may go on later. -/
theorem Between.park (h : plan.Between s₀ t waiting) {f : Fiber} (hf : plan.Parked s₀ t f) :
    plan.Between s₀ t (waiting ++ [f]) where
  evolves := h.evolves
  parked g hg := by
    rcases List.mem_append.mp hg with hg | hg
    · exact h.parked g hg
    · rwa [List.mem_singleton.mp hg]
  fresh := h.fresh

/-- A job is carried out in place: its body runs, and then what waits for its result. -/
theorem stays_body {goal : Goal Value} (hgoal : goal.Closed) {own : Set Nat} {job : Job}
    (owned : job.scope.frame ∈ own) {next : Result → State → Program Value}
    (hnext : ∀ r u, (next r u).Stays goal own u) (s : State) :
    ((job.body s).andThen next).Stays goal own s := by
  have hbody := (job.regular.stays s).mono closed_ends (Set.singleton_subset_iff.mpr owned)
  refine hbody.andThen closed_ends fun own' u r s' hown hevolves => ?_
  exact (hnext r s').after hgoal hevolves (hown.trans Set.subset_union_left)

theorem owned_main {own made : Set Nat} {thread : Option Nat}
    (hown : own ⊆ plan.share thread ∪ made) : own ⊆ plan.main ∪ made :=
  hown.trans (Set.union_subset_union_left _ (plan.share_subset thread))

/-- At a job the fiber keeps to the plan, and so does what waits for the result. -/
theorem Runs.call {thread : Option Nat} {job : Job} {next : Result → State → Program Value}
    {stack : Stack} {turn : Nat}
    (h : plan.Runs s₀ t ⟨thread, .call job s next, stack, waiting, turn⟩) :
    t.Evolves Set.univ s ∧ plan.Between s₀ s waiting ∧
      ∃ own ⊆ plan.share thread ∪ s₀.made s, job.scope.frame ∈ own ∧
        ∀ r u, ((next r u).plug stack).Stays (plan.goalOf thread) own u := by
  obtain ⟨own, hown, hstays⟩ := h.running
  have hshare := owned_main hown
  rw [plug_call] at hstays
  cases hstays with
  | @call _ own' _ _ _ _ piece hown' owned rest =>
      exact ⟨piece.mono (Set.subset_univ _), h.toBetween.later hshare piece, own',
        State.owned_after h.evolves hown piece hown', owned, rest⟩

/-- At a wait, likewise. -/
theorem Runs.await {thread : Option Nat} {c : Condition} {next : State → Program Value}
    {stack : Stack} {turn : Nat}
    (h : plan.Runs s₀ t ⟨thread, .await c s next, stack, waiting, turn⟩) :
    t.Evolves Set.univ s ∧ plan.Between s₀ s waiting ∧
      ∃ own ⊆ plan.share thread ∪ s₀.made s,
        ∀ u, ((next u).plug stack).Stays (plan.goalOf thread) own u := by
  obtain ⟨own, hown, hstays⟩ := h.running
  have hshare := owned_main hown
  rw [plug_await] at hstays
  cases hstays with
  | @await _ own' _ _ _ _ piece hown' rest =>
      exact ⟨piece.mono (Set.subset_univ _), h.toBetween.later hshare piece, own',
        State.owned_after h.evolves hown piece hown', rest⟩

/-- A fiber that gives way keeps to the plan. -/
theorem Runs.yields (h : plan.Runs s₀ t m) (hyields : Yields m waiting s) :
    t.Evolves Set.univ s ∧ (∀ s', m.StopsAt s' → s'.Evolves Set.univ s) ∧
      plan.Between s₀ s waiting := by
  cases hyields with
  | turn thread job s next stack waiting =>
      obtain ⟨hevolves, hbetween, own, hown, owned, hrest⟩ := h.call
      have hticked : s.Evolves Set.univ { s with clock := s.clock + 1 } := .of_eq rfl rfl rfl
      have hlater : plan.Between s₀ { s with clock := s.clock + 1 } waiting :=
        hbetween.of_eq rfl rfl rfl
      refine ⟨hevolves.trans hticked, ?_, hlater.park ⟨own, hown, fun u => ?_⟩⟩
      · rintro s' (⟨_, _, heq⟩ | ⟨_, _, heq⟩)
        · cases heq
          exact hticked
        · cases heq
      · rw [plug_call]
        exact .call (.refl _ u) Set.subset_union_left owned hrest
  | wait thread c s next stack waiting turn unmet =>
      obtain ⟨hevolves, hbetween, own, hown, hrest⟩ := h.await
      refine ⟨hevolves, ?_, hbetween.park ⟨own, hown, hrest⟩⟩
      rintro s' (⟨_, _, heq⟩ | ⟨_, _, heq⟩)
      · cases heq
      · cases heq
        exact .refl _ _
  | finish i r s waiting turn =>
      obtain ⟨own, hown, hstays⟩ := h.running
      have hshare := owned_main hown
      cases hstays with
      | done hevolves =>
          have hfinished : s.Evolves ∅ (s.finish i r) := s.evolves_finish i r
          have hall := (State.Evolves.mono hevolves (Set.subset_univ _)).trans
            (hfinished.mono (Set.empty_subset _))
          have hlater := h.toBetween.later hshare hevolves
          refine ⟨hall, ?_, hlater.later (Set.empty_subset _) hfinished⟩
          rintro s' (⟨_, _, heq⟩ | ⟨_, _, heq⟩) <;> cases heq

/-- **One step of the machine keeps to the plan.**  The state evolves, also from where the fiber
stood if it stood at a job or a wait. -/
theorem Runs.step (h : plan.Runs s₀ t m) (hstep : m.step = .next m') :
    ∃ u, t.Evolves Set.univ u ∧ (∀ s, m.StopsAt s → s.Evolves Set.univ u) ∧
      plan.Runs s₀ u m' := by
  have hmoves := moves_of_step hstep
  have hmain := hmoves.oneMain h.main
  cases hmoves with
  | opens thread job s next stack waiting turn =>
      obtain ⟨hevolves, hbetween, own, hown, owned, hrest⟩ := h.call
      refine ⟨s, hevolves, ?_, hbetween, ⟨own, hown, ?_⟩, hmain⟩
      · rintro s' (⟨_, _, heq⟩ | ⟨_, _, heq⟩) <;> cases heq
        exact .refl _ _
      · simp only [plug, plug_andThen]
        exact stays_body (plan.goalOf_closed thread) owned hrest s
  | goes thread c s next stack waiting turn met =>
      obtain ⟨hevolves, hbetween, own, hown, hrest⟩ := h.await
      refine ⟨s, hevolves, ?_, hbetween, ⟨own, hown, hrest s⟩, hmain⟩
      rintro s' (⟨_, _, heq⟩ | ⟨_, _, heq⟩) <;> cases heq
      exact .refl _ _
  | returns thread r s next stack waiting turn =>
      refine ⟨t, .refl _ t, ?_, h.toBetween, h.running, hmain⟩
      rintro s' (⟨_, _, heq⟩ | ⟨_, _, heq⟩) <;> cases heq
  | yields hyields hchooses =>
      obtain ⟨hevolves, hstop, hbetween⟩ := h.yields hyields
      obtain ⟨u, hlater, hruns⟩ := hbetween.chooses hchooses hmain
      exact ⟨u, hevolves.trans hlater, fun s' hs' => (hstop s' hs').trans hlater, hruns⟩

/-- What holds at the end of a run: the main fiber has reached its goal, and all the others keep to
the plan. -/
structure Ended (s₀ : State) (r : Result) (s : State) (waiting : List Fiber) : Prop where
  goal : plan.goal plan.main s₀ r s
  threads : ∀ f ∈ waiting, f.thread ≠ none ∧ plan.Parked s₀ s f
  fresh : ∀ i f scope, s.Fresh i f scope → scope.frame ∈ plan.threads ∪ s₀.made s

theorem Runs.ended {r : Result} {turn : Nat} (h : plan.Runs s₀ t m)
    (hstep : m.step = .ended r s waiting turn) : plan.Ended s₀ r s waiting := by
  obtain rfl := eq_of_step_ended hstep
  obtain ⟨own, hown, hstays⟩ := h.running
  cases hstays with
  | done hgoal =>
      have hevolves := plan.evolves hgoal
      refine ⟨plan.closed h.evolves hown hgoal, fun f hf => ?_, ?_⟩
      · exact ⟨(oneMain_iff rfl).mp h.main f hf, (h.parked f hf).later hevolves⟩
      · exact fun _ _ _ hfresh => h.fresh_later hevolves hfresh

/-- **A run keeps to the plan.** -/
theorem Runs.run {fuel : Nat} {r : Result} (h : plan.Runs s₀ t m)
    (hrun : Machine.run fuel m = some (r, s, waiting)) : plan.Ended s₀ r s waiting := by
  induction fuel generalizing m t with
  | zero => cases hrun
  | succ fuel ih =>
      rw [Machine.run_succ] at hrun
      split at hrun
      case h_1 m' hstep =>
        obtain ⟨u, -, -, hu⟩ := h.step hstep
        exact ih hu hrun
      case h_2 r s waiting turn hstep =>
        cases hrun
        exact h.ended hstep
      case h_3 => cases hrun

end Plan

end Machine

end DispatchLisp
