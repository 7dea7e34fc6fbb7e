import DispatchLisp.Proofs.LocalNames
import DispatchLisp.Proofs.Sequel

/-! # The call stack

A call is noted by name while it runs, and a level of nesting is counted while a form is evaluated.
Both are undone in the end, whether there is a value or an error, so that a computation that began
in the state `t` ends with the calls and the depth of `t` (`State.Returns`).

An error without a trace gets one where it leaves a call: the names of the calls that run then.  So
the trace of an error ends in the names of the calls that ran when the computation began, and names
more (`Error.Truthful`).  Only an error that a function of the host brings along or that comes from
another thread may have another trace.

* `Program.Level` says of a program that it returns so, whatever the jobs that it asks for do, as
  long as they return so themselves.  Every regular computation does (`Eval.Regular.level`).
* `Machine.Levels` is the invariant of the machine; it speaks of the main fiber only, which may be
  interrupted at any job. -/

namespace DispatchLisp

/-! ### Traces -/

/-- The error has no trace, or one that ends in `calls` and names more. -/
def Error.Truthful (calls : List String) (e : Error) : Prop :=
  e.trace? = none ∨ ∃ front, front ≠ [] ∧ e.trace? = some (front ++ calls)

/-- What leaves a call: the same error, which has a trace by then. -/
theorem Eval.attachTrace_error (α : Type) {calls : List String} (hcalls : calls ≠ []) (e : Error) :
    ∃ e', attachTrace calls (.error e : Except Error α) = .error e' ∧ e'.cause = e.cause ∧
      e'.trace? = some (e.trace?.getD calls) := by
  cases h : e.trace? with
  | none =>
      refine ⟨e.withTrace calls, ?_, e.cause_withTrace calls, Error.trace?_withTrace h hcalls⟩
      simp [attachTrace, h]
  | some trace => exact ⟨e, by simp [attachTrace, h], rfl, h⟩

/-- A trace that is right inside a call is right outside. -/
theorem Error.Truthful.leave {name : String} {calls : List String} {e e' : Error}
    (h : e.Truthful (name :: calls))
    (htrace : e'.trace? = some (e.trace?.getD (name :: calls))) : e'.Truthful calls := by
  rcases h with h | ⟨front, -, h⟩
  · refine .inr ⟨[name], List.cons_ne_nil _ _, ?_⟩
    rw [htrace, h]
    rfl
  · refine .inr ⟨front ++ [name], by simp, ?_⟩
    rw [htrace, h]
    simp

/-! ### States of one fiber -/

namespace State

/-- A later state of the same fiber, with the same calls and at the same depth. -/
structure Later (t s : State) : Prop where
  evolves : t.Evolves Set.univ s
  calls : s.calls = t.calls
  depth : s.depth = t.depth

theorem Later.refl (s : State) : s.Later s := ⟨.refl _ s, rfl, rfl⟩

theorem Later.trans {t s u : State} (first : t.Later s) (second : s.Later u) : t.Later u :=
  ⟨first.evolves.trans second.evolves, second.calls.trans first.calls,
    second.depth.trans first.depth⟩

/-- A change in all that is not a scope, a function or a thread, and not of the fiber. -/
theorem Later.of_eq {t s : State} (hscopes : s.scopes = t.scopes)
    (hfunctions : s.functions = t.functions) (hthreads : s.threads = t.threads)
    (hcalls : s.calls = t.calls) (hdepth : s.depth = t.depth) : t.Later s :=
  ⟨.of_eq hscopes hfunctions hthreads, hcalls, hdepth⟩

theorem Evolves.untraced_of {own : Set Nat} {t s : State} (h : t.Evolves own s)
    (ht : t.Untraced) : s.Untraced :=
  fun o ho => (h.untraced o ho).elim (ht o) id

/-- How a computation ends that began in the state `t`.  If `honest` holds, and unless the result of
a thread is asked for meanwhile, the traces of errors are right. -/
structure Returns (honest : Prop) {α : Type} (t : State) (r : Except Error α) (s : State) : Prop
    extends t.Later s where
  truthful : honest → (∀ i, s.Joined i → t.Joined i) → ∀ e, r = .error e → e.Truthful t.calls

namespace Returns

variable {honest : Prop} {α : Type} {t s u : State} {r : Except Error α}

/-- An error that has just been raised has no trace. -/
theorem of_untraced (hlater : t.Later s) (h : honest → ∀ e, r = .error e → e.trace? = none) :
    t.Returns honest r s :=
  ⟨hlater, fun hhonest _ e he => .inl (h hhonest e he)⟩

theorem ok (hlater : t.Later s) (a : α) : t.Returns honest (.ok a) s :=
  of_untraced hlater fun _ e he => by cases he

theorem after (hlater : t.Later s) (h : s.Returns honest r u) : t.Returns honest r u where
  toLater := hlater.trans h.toLater
  truthful hhonest hjoined e he := by
    rw [← hlater.calls]
    exact h.truthful hhonest (fun i hi => hlater.evolves.joined i (hjoined i hi)) e he

theorem assign (t : State) (scope : Scope) (name : String) (value : Value) :
    t.Returns honest (t.assign scope name value).1 (t.assign scope name value).2 := by
  have hevolves : t.Evolves Set.univ (t.assign scope name value).2 :=
    t.evolves_assign scope name value
  unfold State.assign at hevolves ⊢
  split at hevolves
  · exact .ok ⟨hevolves, rfl, rfl⟩ ()
  · refine .of_untraced (.refl t) fun _ e he => ?_
    cases he
    exact trace?_nameError _ _ _

theorem remove (t : State) (scope : Scope) (name : String) :
    t.Returns honest (t.remove scope name).1 (t.remove scope name).2 := by
  have hevolves : t.Evolves Set.univ (t.remove scope name).2 :=
    t.evolves_remove name (Set.mem_univ _)
  unfold State.remove at hevolves ⊢
  split at hevolves
  · exact .ok ⟨hevolves, rfl, rfl⟩ _
  · refine .of_untraced (.refl t) fun _ e he => ?_
    cases he
    exact trace?_nameError _ _ _

/-- A level of nesting is undone. -/
theorem nested (h : Returns honest { t with depth := t.depth + 1 } r s) :
    t.Returns honest r { s with depth := s.depth - 1 } where
  evolves := by
    have hdeeper : t.Evolves Set.univ { t with depth := t.depth + 1 } := .of_eq rfl rfl rfl
    exact (hdeeper.trans h.evolves).trans (.of_eq rfl rfl rfl)
  calls := h.calls
  depth := by
    change s.depth - 1 = t.depth
    rw [h.depth]
    rfl
  truthful := h.truthful

/-- A call is undone, and an error that leaves it has a trace. -/
theorem framed {name : String} (h : (t.pushCall name).Returns honest r s) :
    t.Returns honest (Eval.attachTrace s.calls r) s.popCall where
  evolves := by
    have hpushed : t.Evolves Set.univ (t.pushCall name) := .of_eq rfl rfl rfl
    exact (hpushed.trans h.evolves).trans (.of_eq rfl rfl rfl)
  calls := congrArg List.tail h.calls
  depth := h.depth
  truthful hhonest hjoined e' he' := by
    have hcalls : s.calls = name :: t.calls := h.calls
    cases r with
    | ok a => cases he'
    | error e =>
        have hne : s.calls ≠ [] := by simp [hcalls]
        obtain ⟨e'', heq, -, htrace⟩ := Eval.attachTrace_error α hne e
        rw [heq] at he'
        cases he'
        rw [hcalls] at htrace
        exact (h.truthful hhonest hjoined e rfl).leave htrace

end Returns

end State

/-! ### Programs -/

namespace Program

variable {α β : Type} {honest : Prop}

/-- The program reaches the goal if the jobs that it asks for return, and if the state evolves while
it waits.  It does not wait for what holds already. -/
inductive Level (honest : Prop) (goal : Except Error α → State → Prop) : Program α → Prop
  | done {r : Except Error α} {s : State} (h : goal r s) : Level honest goal (.done r s)
  | call {job : Job} {s : State} {next : Result → State → Program α}
      (untraced : honest → s.Untraced)
      (rest : ∀ r u, s.Returns honest r u → Level honest goal (next r u)) :
      Level honest goal (.call job s next)
  | await {c : Condition} {s : State} {next : State → Program α}
      (rest : ∀ u, s.Later u → (c.holds s = true → u = s) → Level honest goal (next u)) :
      Level honest goal (.await c s next)

namespace Level

variable {goal : Except Error α → State → Prop} {p : Program α}

theorem andThen {goal' : Except Error β → State → Prop} {f : Except Error α → State → Program β}
    (h : Level honest goal p) (hf : ∀ r s, goal r s → Level honest goal' (f r s)) :
    Level honest goal' (p.andThen f) := by
  induction h with
  | done h => exact hf _ _ h
  | call untraced rest ih => exact .call untraced ih
  | await rest ih => exact .await ih

theorem mono {goal' : Except Error α → State → Prop} (h : Level honest goal p)
    (hgoal : ∀ r s, goal r s → goal' r s) : Level honest goal' p := by
  induction h with
  | done h => exact .done (hgoal _ _ h)
  | call untraced rest ih => exact .call untraced ih
  | await rest ih => exact .await ih

end Level

end Program

/-! ### Regular computations -/

namespace Eval

variable {α : Type} {honest : Prop}

/-- Only a thread that was not joined before can give a result. -/
theorem level_join (thread : ThreadRef) (t : State) :
    (Prelude.threadJoin [.thread thread] t).Level honest (t.Returns honest) := by
  rw [Prelude.threadJoin_eq]
  split
  case isTrue => exact .done (.of_untraced (.refl t) fun _ e he => by
    cases he
    rfl)
  case isFalse hfree =>
    have hjoin : t.Later (t.join thread.id) := ⟨t.evolves_join thread.id, rfl, rfl⟩
    refine .await fun u hlater hmet => .done ⟨hjoin.trans hlater, fun _ hjoined e he => ?_⟩
    exfalso
    cases hthread : t.threads[thread.id]? with
    | none =>
        -- There is nothing to wait for, and no result.
        have hnone : (t.join thread.id).threads[thread.id]? = none := by
          simp only [State.join, Array.getElem?_modify, hthread, Option.map_none, ite_self]
        rw [hmet (by simp only [Condition.holds, hnone])] at he
        simp only [State.resultOf, hnone] at he
        cases he
    | some old =>
        have hnow : (t.join thread.id).Joined thread.id :=
          ⟨{ old with joined := true }, by simp [State.join, Array.getElem?_modify, hthread], rfl⟩
        obtain ⟨old', hold, hbefore⟩ := hjoined _ (hlater.evolves.joined _ hnow)
        rw [hthread] at hold hfree
        cases hold
        exact hfree hbefore

/-- **A regular computation returns.** -/
theorem Regular.level {own : Set Nat} {m : Eval α} (h : Regular honest own m) (t : State)
    (ht : honest → t.Untraced) : (m t).Level honest (t.Returns honest) := by
  induction h generalizing t with
  | result r untraced => exact .done (.of_untraced (.refl t) fun _ => untraced)
  | choose pick regular blind eq ih =>
      rw [eq t]
      exact ih t ht t ht
  | heap m untraced =>
      refine .done (.of_untraced (.of_eq rfl rfl rfl rfl rfl) fun hhonest e he => ?_)
      exact untraced hhonest t.heap e he
  | define name value owned =>
      exact .done (.ok ⟨t.evolves_define name value (Set.mem_univ _), rfl, rfl⟩ ())
  | assign scope name value => exact .done (.assign t scope name value)
  | @remove own scope name owned => exact .done (.remove t scope name)
  | makeFunction e untraced =>
      exact .done (.ok ⟨t.evolves_newFunction (Overloads.untraced_single untraced), rfl, rfl⟩ _)
  | print text =>
      have hlater : t.Later (t.print text) := .of_eq rfl rfl rfl rfl rfl
      exact .done (.ok hlater ())
  | spawn f scope => exact .done (.ok ⟨t.evolves_spawn f scope, rfl, rfl⟩ _)
  | join thread => exact level_join thread t
  | perform owned => exact .call ht fun r u hreturns => .done hreturns
  | await c => exact .await fun u hlater _ => .done (.ok hlater ())
  | bind first next ihm ihf =>
      refine (ihm t ht).andThen fun r s hreturns => ?_
      cases r with
      | ok a =>
          refine (ihf a s fun hhonest => hreturns.evolves.untraced_of (ht hhonest)).mono ?_
          exact fun _ _ hlast => hlast.after hreturns.toLater
      | error e => exact .done ⟨hreturns.toLater, fun hhonest hjoined e' he' => by
          cases he'
          exact hreturns.truthful hhonest hjoined e rfl⟩
  | @child own α f scope next ih =>
      have hchild : t.Later (t.onScopes (·.newChild scope)).2 :=
        ⟨t.evolves_newChild scope, rfl, rfl⟩
      refine (ih _ (t.onScopes (·.newChild scope)).2 ht).mono fun _ _ hreturns => ?_
      exact hreturns.after hchild
  | nested inner ih =>
      unfold Eval.nested
      split
      · exact .done (.of_untraced (.refl t) fun _ e he => by
          cases he
          rfl)
      · have hinner := ih { t with depth := t.depth + 1 } ht
        exact hinner.andThen fun r s hreturns => .done hreturns.nested
  | framed name inner ih =>
      have hinner := ih (t.pushCall name) ht
      exact hinner.andThen fun r s hreturns => .done hreturns.framed

end Eval

/-! ### The machine -/

variable {honest : Prop} {s₀ s t : State}

/-- Whenever the fiber goes on, it returns to what was there in the state `s₀`. -/
def Fiber.Level (honest : Prop) (s₀ t : State) (f : Fiber) : Prop :=
  ∀ u, t.Evolves Set.univ u → u.calls = f.calls → u.depth = f.depth →
    ((f.next u).plug f.stack).Level honest (s₀.Returns honest)

theorem Fiber.Level.later {f : Fiber} (h : f.Level honest s₀ t) (hevolves : t.Evolves Set.univ s) :
    f.Level honest s₀ s :=
  fun u hu hcalls hdepth => h u (hevolves.trans hu) hcalls hdepth

namespace Machine

open Program

variable {m m' : Machine} {waiting left : List Fiber} {r : Result} {turn : Nat} {plan : Plan}

/-- The invariant of the machine: the main fiber, whether it runs or waits, returns to what was
there in the state `s₀`. -/
structure Levels (honest : Prop) (s₀ t : State) (m : Machine) : Prop where
  running : m.thread = none → (m.program.plug m.stack).Level honest (s₀.Returns honest)
  parked : ∀ f ∈ m.waiting, f.thread = none → f.Level honest s₀ t

theorem Levels.yields (h : Levels honest s₀ t m) (hevolves : t.Evolves Set.univ s)
    (hstop : ∀ s', m.StopsAt s' → s'.Evolves Set.univ s) (hyields : Yields m waiting s) :
    ∀ f ∈ waiting, f.thread = none → f.Level honest s₀ s := by
  have hparked : ∀ f ∈ m.waiting, f.thread = none → f.Level honest s₀ s :=
    fun f hf hmain => (h.parked f hf hmain).later hevolves
  cases hyields with
  | turn thread job s next stack waiting =>
      intro f hf hmain
      rcases List.mem_append.mp hf with hf | hf
      · exact hparked f hf hmain
      · obtain rfl := List.mem_singleton.mp hf
        intro u hu hcalls hdepth
        have hlater : s.Later u := ⟨(hstop s (.inl ⟨job, next, rfl⟩)).trans hu, hcalls, hdepth⟩
        have hlevel := h.running hmain
        simp only [plug_call] at hlevel ⊢
        cases hlevel with
        | call untraced rest =>
            refine .call (fun hhonest => hlater.evolves.untraced_of (untraced hhonest)) ?_
            exact fun r v hreturns => rest r v (hreturns.after hlater)
  | wait thread c s next stack waiting turn unmet =>
      intro f hf hmain
      rcases List.mem_append.mp hf with hf | hf
      · exact hparked f hf hmain
      · obtain rfl := List.mem_singleton.mp hf
        intro u hu hcalls hdepth
        have hlevel := h.running hmain
        simp only [plug_await] at hlevel
        cases hlevel with
        | await rest =>
            exact rest u ⟨hu, hcalls, hdepth⟩ fun hmet => by
              rw [unmet] at hmet
              cases hmet
  | finish i r s waiting turn => exact hparked

theorem levels_of_chooses (h : ∀ f ∈ waiting, f.thread = none → f.Level honest s₀ s)
    (hchooses : Chooses waiting s m) (hevolves : s.Evolves Set.univ t) : Levels honest s₀ t m := by
  cases hchooses with
  | fresh hfresh =>
      refine ⟨fun hmain => ?_, fun f hf hmain => (h f hf hmain).later hevolves⟩
      cases hmain
  | ready time hready =>
      have hperm := takeReady_perm hready
      refine ⟨fun hmain => ?_, fun f hf hmain => ?_⟩
      · have hlevel := h _ (hperm.mem_iff.mpr List.mem_cons_self) hmain
        exact hlevel _ (.of_eq rfl rfl rfl) rfl rfl
      · exact (h f (hperm.mem_iff.mpr (List.mem_cons_of_mem _ hf)) hmain).later hevolves

/-- **One step of the machine keeps the invariant.** -/
theorem Levels.step (hruns : plan.Runs s₀ t m) (h : Levels honest s₀ t m)
    (hstep : m.step = .next m') : ∃ u, plan.Runs s₀ u m' ∧ Levels honest s₀ u m' := by
  have hmoves := moves_of_step hstep
  have hmain := hmoves.oneMain hruns.main
  cases hmoves with
  | opens thread job s next stack waiting turn =>
      obtain ⟨u, hevolves, -, hruns'⟩ := hruns.step hstep
      refine ⟨u, hruns', fun hthread => ?_, fun f hf hf' => (h.parked f hf hf').later hevolves⟩
      have hlevel := h.running hthread
      simp only [plug, plug_andThen, plug_call] at hlevel ⊢
      cases hlevel with
      | call untraced rest => exact (job.regular.level s untraced).andThen rest
  | goes thread c s next stack waiting turn met =>
      obtain ⟨u, hevolves, -, hruns'⟩ := hruns.step hstep
      refine ⟨u, hruns', fun hthread => ?_, fun f hf hf' => (h.parked f hf hf').later hevolves⟩
      have hlevel := h.running hthread
      simp only [plug_await] at hlevel
      cases hlevel with
      | await rest => exact rest s (.refl s) fun _ => rfl
  | returns thread r s next stack waiting turn =>
      obtain ⟨u, hevolves, -, hruns'⟩ := hruns.step hstep
      exact ⟨u, hruns', h.running, fun f hf hf' => (h.parked f hf hf').later hevolves⟩
  | yields hyields hchooses =>
      obtain ⟨hevolves, hstop, hbetween⟩ := hruns.yields hyields
      obtain ⟨u, hlater, hruns'⟩ := hbetween.chooses hchooses hmain
      exact ⟨u, hruns', levels_of_chooses (h.yields hevolves hstop hyields) hchooses hlater⟩

/-- **A run returns.** -/
theorem Levels.run (hruns : plan.Runs s₀ t m) (h : Levels honest s₀ t m)
    (hends : m.EndsWith (r, s, left, turn)) : s₀.Returns honest r s := by
  induction hends using EndsWith.induct generalizing t with
  | ended hstep hout =>
      cases hout
      obtain rfl := eq_of_step_ended hstep
      cases h.running rfl with
      | done hreturns => exact hreturns
  | next hstep _ ih =>
      obtain ⟨u, hruns', h'⟩ := h.step hruns hstep
      exact ih hruns' h'

end Machine

/-- What a computation of the main fiber ends with. -/
theorem Eval.Regular.returns {own threads : Set Nat} {m : Eval Value} {s s' : State}
    {waiting left : List Fiber} {turn turn' : Nat} {r : Result}
    (hthreads : ThreadsOwn threads s waiting) (hstays : Regular False own m)
    (hm : Regular honest own m) (hs : honest → s.Untraced)
    (hends : Machine.EndsWith ⟨none, m s, [], waiting, turn⟩ (r, s', left, turn')) :
    s.Returns honest r s' := by
  let plan := Machine.Plan.plain (Set.subset_union_right (s := own) (t := threads))
  have hstays' := (hstays.stays s).mono Program.closed_ends (Set.subset_union_left (t := threads))
  have hruns : plan.Runs s s ⟨none, m s, [], waiting, turn⟩ :=
    Machine.Plan.runs_start hthreads rfl hstays'
  have hlevels : Machine.Levels honest s s ⟨none, m s, [], waiting, turn⟩ :=
    ⟨fun _ => hm.level s hs, fun f hf hmain => absurd hmain (hthreads.waiting f hf).1⟩
  exact hlevels.run hruns hends

/-! ### Calls of overloads -/

/-- The law of a call: its result is that of what the overload does, and an error has a trace. -/
theorem Entry.endsWith_call {e : Entry} {args : List Value} {scope : Scope} {s s' : State}
    {waiting left : List Fiber} {turn turn' : Nat} {r : Result}
    (hidle : ∀ f ∈ waiting, f.thread ≠ none)
    (hends : Machine.EndsWith ⟨none, e.call args scope s, [], waiting, turn⟩
      (r, s', left, turn')) :
    ∃ r₀ s₀, Machine.EndsWith ⟨none, e.run args scope (s.pushCall e.name), [], waiting, turn⟩
        (r₀, s₀, left, turn') ∧
      r = Eval.attachTrace s₀.calls r₀ ∧ s' = s₀.popCall := by
  have hcall : Machine.mk none (e.call args scope s) [] waiting turn =
      Machine.followedBy (fun r s => .done (Eval.attachTrace s.calls r) s.popCall)
        ⟨none, e.run args scope (s.pushCall e.name), [], waiting, turn⟩ := by
    rw [Machine.followedBy_start _ hidle]
    rfl
  rw [hcall, Machine.endsWith_followedBy ((Machine.oneMain_iff rfl).mpr hidle)] at hends
  obtain ⟨r₀, s₀, left₀, turn₀, hrun, hlast⟩ := hends
  cases (Machine.endsWith_of_ended rfl).mp hlast
  exact ⟨r₀, s₀, hrun, rfl, rfl⟩

/-! ### The main result -/

theorem World.untraced_new (limit : Nat) : (World.new limit).state.Untraced := by
  have hcore := Prelude.untraced_core
  have hentries := Prelude.untraced_entries
  unfold World.new
  generalize Prelude.core = core at hcore
  generalize Prelude.entries = entries at hentries
  refine State.Untraced.install (fun o ho => ?_) _ hentries
  refine State.Untraced.install (fun o ho => ?_) _ hcore o ho
  simp [State.onScopes] at ho

/-- **The call stack is balanced, and traces are truthful.**  Evaluating a node is a job, and so is
calling a function value.

* Whatever the calls that run when a job begins, and whatever the depth, both are the same when it
  ends, with a value or an error.  If no function of the host attaches traces by itself, and if no
  thread is joined meanwhile, then every error that it ends with has no trace, or one that ends in
  these calls and names more.
* An error that leaves the call of an overload has a trace: the one that it had when it left what
  the overload does, or else the calls that ran there, which are this one and those around it.

The threads of every world that can be reached are such as the theorem asks for.  All functions of
the prelude are without traces, and so are those of a state to which such functions were added or in
which jobs were done. -/
theorem calls_balanced_traces_truthful :
    (∀ (threads : Set Nat) (s s' : State) (waiting left : List Fiber) (turn turn' : Nat)
      (job : Job) (r : Result), ThreadsOwn threads s waiting →
      Machine.EndsWith ⟨none, Eval.perform job s, [], waiting, turn⟩ (r, s', left, turn') →
      s'.calls = s.calls ∧ s'.depth = s.depth ∧
      (s.Untraced → s'.Untraced ∧
        ((∀ i, s'.Joined i → s.Joined i) → ∀ e, r = .error e → e.Truthful s.calls))) ∧
    (∀ (threads : Set Nat) (s s' : State) (waiting left : List Fiber) (turn turn' : Nat)
      (entry : Entry) (args : List Value) (scope : Scope) (r : Result),
      ThreadsOwn threads s waiting →
      Machine.EndsWith ⟨none, entry.call args scope s, [], waiting, turn⟩ (r, s', left, turn') →
      s'.calls = s.calls ∧ s'.depth = s.depth ∧
      ∀ e, r = .error e → ∃ e₀ s₀,
        Machine.EndsWith ⟨none, entry.run args scope (s.pushCall entry.name), [], waiting, turn⟩
          (.error e₀, s₀, left, turn') ∧
        s₀.calls = entry.name :: s.calls ∧ e.cause = e₀.cause ∧
        e.trace? = some (e₀.trace?.getD s₀.calls) ∧
        (s.Untraced → entry.body.Untraced → (∀ i, s'.Joined i → s.Joined i) →
          e₀.Truthful s₀.calls)) ∧
    (∀ sessions w, World.Reachable sessions w → ∃ threads, ThreadsOwn threads w.state w.waiting) ∧
    (∀ limit, (World.new limit).state.Untraced) ∧
    ∀ (s : State) (scope : Scope) (entry : Entry), s.Untraced → entry.body.Untraced →
      (s.register scope entry).Untraced := by
  refine ⟨?_, ?_, fun _ _ h => ?_, World.untraced_new, fun _ scope _ hs he => hs.register scope he⟩
  · intro threads s s' waiting left turn turn' job r hthreads hends
    have hreturns : s.Returns s.Untraced r s' := by
      exact Eval.Regular.returns hthreads (.perform (Set.mem_univ _)) (.perform (Set.mem_univ _))
        id hends
    exact ⟨hreturns.calls, hreturns.depth, fun hs =>
      ⟨hreturns.evolves.untraced_of hs, hreturns.truthful hs⟩⟩
  · intro threads s s' waiting left turn turn' entry args scope r hthreads hends
    obtain ⟨r₀, s₀, hrun, rfl, rfl⟩ :=
      Entry.endsWith_call (fun f hf => (hthreads.waiting f hf).1) hends
    have hreturns : (s.pushCall entry.name).Returns (s.Untraced ∧ entry.body.Untraced) r₀ s₀ :=
      Eval.Regular.returns (hthreads.of_threads rfl le_rfl)
        (entry.regular_run False.elim args (Set.mem_univ _))
        (entry.regular_run And.right args (Set.mem_univ _)) And.left hrun
    have hcalls : s₀.calls = entry.name :: s.calls := hreturns.calls
    refine ⟨congrArg List.tail hcalls, hreturns.depth, fun e he => ?_⟩
    cases r₀ with
    | ok v => cases he
    | error e₀ =>
        have hne : s₀.calls ≠ [] := by simp [hcalls]
        obtain ⟨e', heq, hcause, htrace⟩ := Eval.attachTrace_error Value hne e₀
        rw [heq] at he
        cases he
        refine ⟨e₀, s₀, hrun, hcalls, hcause, htrace, fun hs hentry hjoined => ?_⟩
        rw [hcalls]
        exact hreturns.truthful ⟨hs, hentry⟩ hjoined e₀ rfl
  · obtain ⟨threads, hthreads, -⟩ := h.isolated
    exact ⟨threads, hthreads⟩

/-- A division by zero inside of two calls, while another one runs. -/
theorem calls_balanced_traces_truthful_division :
    let session := ((World.new 10).newSession true).1
    let w := ((World.new 10).newSession true).2
    let s : State := { w.state with calls := ["outer"], depth := 3 }
    let node : Node := .form (.ident "apply") [.atom (.ident "/"), .atom (.int 1), .atom (.int 0)]
    ∃ e s' left turn,
      Machine.EndsWith ⟨none, Eval.perform (.eval node session) s, [], w.waiting, w.turn⟩
        (.error e, s', left, turn) ∧
      e.trace? = some ["/", "apply", "outer"] ∧
      s'.calls = ["outer"] ∧ s'.depth = 3 ∧ e.Truthful ["outer"] := by
  intro session w s node
  have hrun : (Machine.finish 100
      ⟨none, Eval.perform (.eval node session) s, [], w.waiting, w.turn⟩).map
      (fun out => (out.1, out.2.1.threads.size)) = some
        (.error (.traced (.base (.eval (.divisionByZero "/"))) ["/", "apply", "outer"]), 0) := by
    decide +kernel
  obtain ⟨⟨r, s', left, turn⟩, hrun, hout⟩ := Option.map_eq_some_iff.mp hrun
  obtain ⟨rfl, hsize⟩ : _ ∧ s'.threads.size = 0 := Prod.mk.inj hout
  obtain ⟨threads, hthreads⟩ := calls_balanced_traces_truthful.2.2.1 _ w
    ((World.Reachable.new 10).newSession true)
  have huntraced : ∀ w : World, w.state.Untraced → (w.newSession true).2.state.Untraced :=
    fun _ h => h
  have hs : w.state.Untraced := huntraced _ (calls_balanced_traces_truthful.2.2.2.1 10)
  clear_value w
  obtain ⟨hcalls, hdepth, hhonest⟩ := calls_balanced_traces_truthful.1 threads s s' w.waiting left
    w.turn turn _ _ (hthreads.of_threads rfl le_rfl) ⟨100, hrun⟩
  refine ⟨_, s', left, turn, ⟨100, hrun⟩, rfl, hcalls, hdepth, (hhonest hs).2 ?_ _ rfl⟩
  rintro i ⟨t, ht, -⟩
  have hi := (Array.getElem?_eq_some_iff.mp ht).1
  omega

end DispatchLisp
