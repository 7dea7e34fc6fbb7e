import DispatchLisp.Proofs.LocalNames
import Mathlib.Data.List.Forall2

/-! # The limit on nesting

A higher limit on nesting changes no answer that was reached under a lower one.  The limit is looked
at in one place only, where a form is called, and what happens there is that the call is refused.

* `Program.Lifts` relates a program under the limit `d` with the same program under `d'`: they stop
  at the same jobs and waits in the same states and end in the same way, unless the first one is
  refused.  Regular computations are related (`Eval.Regular.lifts`).
* A refused call is never made good: whatever waits for its result ends with the same error
  (`Dooms`).
* `Machine.Lifts.run` is the simulation: as long as no other thread runs, both machines take the
  same steps. -/

namespace DispatchLisp

/-- The call was refused at the limit `d`. -/
def Error.Refused (d : Nat) (e : Error) : Prop := e.cause = .eval (.depthExceeded d)

namespace Program

variable {α β : Type} {d d' : Nat}

/-- The program has ended with a refused call. -/
def Doomed (d : Nat) (p : Program α) : Prop := ∃ e s, p = .done (.error e) s ∧ e.Refused d

/-- Nothing is done when a refused call is reported. -/
def Dooms (d : Nat) (next : Except Error α → State → Program β) : Prop :=
  ∀ e s, e.Refused d → (next (.error e) s).Doomed d

/-- The two programs behave alike under the limits `d` and `d'`, unless the first is refused. -/
inductive Lifts (d d' : Nat) : Program α → Program α → Prop
  | done {r : Except Error α} {s : State} (limit : s.limit = d) :
      Lifts d d' (.done r s) (.done r (s.withLimit d'))
  | doomed {p q : Program α} (h : p.Doomed d) : Lifts d d' p q
  | call {job : Job} {s : State} {next next' : Result → State → Program α} (limit : s.limit = d)
      (dooms : Dooms d next)
      (rest : ∀ r t, t.limit = d → Lifts d d' (next r t) (next' r (t.withLimit d'))) :
      Lifts d d' (.call job s next) (.call job (s.withLimit d') next')
  | await {c : Condition} {s : State} {next next' : State → Program α} (limit : s.limit = d)
      (rest : ∀ t, t.limit = d → Lifts d d' (next t) (next' (t.withLimit d'))) :
      Lifts d d' (.await c s next) (.await c (s.withLimit d') next')

theorem Lifts.andThen {p q : Program α} (h : Lifts d d' p q)
    {f g : Except Error α → State → Program β} (dooms : Dooms d f)
    (hf : ∀ r s, s.limit = d → Lifts d d' (f r s) (g r (s.withLimit d'))) :
    Lifts d d' (p.andThen f) (q.andThen g) := by
  induction h with
  | done limit => exact hf _ _ limit
  | doomed h =>
      obtain ⟨e, s, rfl, he⟩ := h
      exact .doomed (dooms e s he)
  | call limit dooms' rest ih =>
      refine .call limit (fun e s he => ?_) ih
      obtain ⟨e', s', heq, he'⟩ := dooms' e s he
      rw [heq]
      exact dooms e' s' he'
  | await limit rest ih => exact .await limit ih

end Program

/-! ### Regular computations -/

namespace Eval

open Program

variable {α β : Type} {d d' : Nat}

theorem lifts_atEnd {m : Eval α} {s t : State} (h : Lifts d d' (m s) (m t))
    {last : Except Error α → State → Except Error α × State}
    (hlast : ∀ r s, s.limit = d → (last r s).2.limit = d ∧
      last r (s.withLimit d') = ((last r s).1, (last r s).2.withLimit d'))
    (hcause : ∀ e s, e.Refused d → ∃ e', (last (.error e) s).1 = .error e' ∧ e'.Refused d) :
    Lifts d d' (atEnd m last s) (atEnd m last t) := by
  refine h.andThen ?_ ?_
  · intro e s he
    obtain ⟨e', heq, he'⟩ := hcause e s he
    exact ⟨e', (last (.error e) s).2, by rw [← heq], he'⟩
  · intro r s hs
    obtain ⟨hlimit, heq⟩ := hlast r s hs
    rw [heq]
    exact .done hlimit

theorem lifts_assign (scope : Scope) (name : String) (v : Value) {s : State} (hs : s.limit = d) :
    Lifts d d' (Form.assign scope name v s) (Form.assign scope name v (s.withLimit d')) := by
  have howner : (s.withLimit d').scopes.owner? scope name = s.scopes.owner? scope name := rfl
  simp only [Form.assign, attempt, State.assign, howner]
  cases s.scopes.owner? scope name with
  | none => exact .done hs
  | some i => exact .done hs

theorem lifts_remove (scope : Scope) (name : String) {s : State} (hs : s.limit = d) :
    Lifts d d' (Form.remove scope name s) (Form.remove scope name (s.withLimit d')) := by
  have hremove : (s.withLimit d').scopes.remove? scope name = s.scopes.remove? scope name := rfl
  simp only [Form.remove, attempt, State.remove, hremove]
  cases s.scopes.remove? scope name with
  | none => exact .done hs
  | some found => exact .done hs

/-- A call that fits the lower limit fits the higher one. -/
theorem lifts_nested (hd : d ≤ d') {m : Eval α}
    (hm : ∀ {s : State}, s.limit = d → Lifts d d' (m s) (m (s.withLimit d'))) {s : State}
    (hs : s.limit = d) : Lifts d d' (nested m s) (nested m (s.withLimit d')) := by
  unfold nested
  by_cases hlimit : s.limit < s.depth + 1
  · rw [if_pos hlimit]
    exact .doomed ⟨_, _, rfl, by rw [hs]; rfl⟩
  · have hlimit' : ¬ (s.withLimit d').limit < (s.withLimit d').depth + 1 := by
      change ¬ d' < s.depth + 1
      omega
    rw [if_neg hlimit, if_neg hlimit']
    have hdeeper : ({ s with depth := s.depth + 1 } : State).limit = d := hs
    exact lifts_atEnd (hm hdeeper) (fun r s hs => ⟨hs, rfl⟩) fun e s he => ⟨e, rfl, he⟩

/-- A trace keeps the cause. -/
theorem attachTrace_refused {e : Error} (he : e.Refused d) (calls : List String) :
    ∃ e', attachTrace calls (.error e : Except Error α) = .error e' ∧ e'.Refused d := by
  refine ⟨_, rfl, ?_⟩
  split
  · exact (e.cause_withTrace calls).trans he
  · exact he

theorem lifts_framed (name : String) {m : Eval α}
    (hm : ∀ {s : State}, s.limit = d → Lifts d d' (m s) (m (s.withLimit d'))) {s : State}
    (hs : s.limit = d) : Lifts d d' (framed name m s) (framed name m (s.withLimit d')) := by
  have hpushed : (s.pushCall name).limit = d := hs
  exact lifts_atEnd (hm hpushed) (fun r s hs => ⟨hs, rfl⟩) fun e s he =>
    attachTrace_refused he s.calls

/-- **The limit is seen only where a call is refused.** -/
theorem Regular.lifts (hd : d ≤ d') {own : Set Nat} {m : Eval α} (h : Regular False own m)
    {s : State} (hs : s.limit = d) : Lifts d d' (m s) (m (s.withLimit d')) := by
  induction h generalizing s with
  | result r _ => exact .done hs
  | choose pick regular blind eq ih =>
      rw [eq s, eq (s.withLimit d'), blind]
      exact ih s False.elim hs
  | heap m _ => exact .done hs
  | define name value owned => exact .done hs
  | assign scope name value => exact lifts_assign scope name value hs
  | remove name owned => exact lifts_remove _ name hs
  | makeFunction e _ => exact .done hs
  | print text => exact .done hs
  | spawn f scope => exact .done hs
  | join thread =>
      rw [Prelude.threadJoin_eq, Prelude.threadJoin_eq, State.threads_withLimit]
      split
      · exact .done hs
      · exact .await hs fun t ht => .done ht
  | perform owned => exact .call hs (fun e s he => ⟨e, s, rfl, he⟩) fun r t ht => .done ht
  | await c => exact .await hs fun t ht => .done ht
  | bind first next ihm ihf =>
      refine (ihm hs).andThen (fun e s he => ⟨e, s, rfl, he⟩) fun r s hs => ?_
      cases r with
      | ok a => exact ihf a hs
      | error e => exact .done hs
  | child scope next ih => exact ih _ hs
  | nested inner ih => exact lifts_nested hd ih hs
  | framed name inner ih => exact lifts_framed name ih hs

end Eval

/-! ### Runs of the main fiber alone -/

namespace Machine

open Program

variable {d d' : Nat}

/-- What waits for a result behaves alike under both limits. -/
structure Continues (d d' : Nat) (next next' : Result → State → Program Value) : Prop where
  dooms : Dooms d next
  rest : ∀ r t, t.limit = d → (next r t).Lifts d d' (next' r (t.withLimit d'))

/-- The two machines are in the same place of the same run, and only the main fiber is there. -/
structure Lifts (d d' : Nat) (m m' : Machine) : Prop where
  program : m.program.Lifts d d' m'.program
  stack : List.Forall₂ (Continues d d') m.stack m'.stack
  thread : m.thread = none ∧ m'.thread = none
  waiting : m.waiting = [] ∧ m'.waiting = []
  turn : m.turn = m'.turn

/-- The machine is about to report a refused call. -/
structure Doomed (d : Nat) (m : Machine) : Prop where
  program : m.program.Doomed d
  stack : ∀ next ∈ m.stack, Dooms d next
  thread : m.thread = none

theorem Doomed.run {m : Machine} (h : m.Doomed d) {fuel : Nat} {r : Result} {s : State}
    {left : List Fiber} (hrun : Machine.run fuel m = some (r, s, left)) :
    ∃ e, r = .error e ∧ e.Refused d := by
  induction fuel generalizing m with
  | zero => cases hrun
  | succ fuel ih =>
      obtain ⟨thread, program, stack, waiting, turn⟩ := m
      obtain ⟨⟨e, t, rfl, he⟩, hstack, rfl⟩ := h
      cases stack with
      | nil =>
          cases hrun
          exact ⟨e, rfl, he⟩
      | cons next stack =>
          obtain ⟨hnext, hstack⟩ := List.forall_mem_cons.mp hstack
          exact ih ⟨hnext e t he, hstack, rfl⟩ hrun

/-! ### No other thread -/

/-- The plan that allows everything. -/
def Plan.anything : Plan := .plain (subset_refl Set.univ)

variable {s₀ t s s' : State} {m m' : Machine} {fuel : Nat} {r : Result} {left : List Fiber}

theorem Plan.Runs.stop (h : Plan.anything.Runs s₀ t m) (hthread : m.thread = none)
    (hstop : m.StopsAt s) : s₀.Evolves Set.univ s ∧ Plan.anything.Runs s s m := by
  obtain ⟨thread, program, stack, waiting, turn⟩ := m
  obtain rfl : thread = none := hthread
  have hanywhere : ∀ {f : Fiber}, Plan.anything.Parked s₀ s f → Plan.anything.Parked s s f := by
    rintro f ⟨own, -, hf⟩
    exact ⟨own, by cases f.thread <;> exact fun _ _ => .inl trivial, hf⟩
  rcases hstop with ⟨job, next, rfl⟩ | ⟨c, next, rfl⟩
  · obtain ⟨-, hbetween, own, -, owned, hrest⟩ := h.call
    refine ⟨hbetween.evolves, ⟨.refl _ s, fun f hf => hanywhere (hbetween.parked f hf),
      fun _ _ _ _ => .inl trivial⟩, ⟨own, fun _ _ => .inl trivial, ?_⟩, h.main⟩
    rw [plug_call]
    exact .call (.refl _ s) Set.subset_union_left owned hrest
  · obtain ⟨-, hbetween, own, -, hrest⟩ := h.await
    refine ⟨hbetween.evolves, ⟨.refl _ s, fun f hf => hanywhere (hbetween.parked f hf),
      fun _ _ _ _ => .inl trivial⟩, ⟨own, fun _ _ => .inl trivial, ?_⟩, h.main⟩
    rw [plug_await]
    exact .await (.refl _ s) Set.subset_union_left hrest

/-- Where the machine stops, no thread waits to begin, if the run makes none. -/
theorem Plan.Runs.no_fresh (h : Plan.anything.Runs s₀ t m) (hthread : m.thread = none)
    (hstop : m.StopsAt s) (hquiet : ∀ i f scope, ¬ s₀.Fresh i f scope)
    (hrun : Machine.run fuel m = some (r, s', left)) (hsize : s'.threads.size = s₀.threads.size) :
    s.freshThread? = none := by
  obtain ⟨hbefore, hruns⟩ := h.stop hthread hstop
  have hafter : s.Evolves Set.univ s' := (hruns.run hrun).goal
  refine Option.eq_none_iff_forall_ne_some.mpr fun (i, f, scope) hsome => ?_
  have hfresh := Plan.fresh_of_freshThread? hsome
  rcases hbefore.fresh i f scope hfresh with hfresh₀ | ⟨hi, -⟩
  · exact hquiet i f scope hfresh₀
  · obtain ⟨thread, hthread, -⟩ := hfresh
    have hlt := (Array.getElem?_eq_some_iff.mp hthread).1
    have := hafter.threads
    omega

/-! ### The simulation -/

theorem holds_withLimit (c : Condition) (s : State) (limit : Nat) :
    c.holds (s.withLimit limit) = c.holds s := by
  cases c <;> rfl

theorem takeReady_single (s : State) (f : Fiber) :
    takeReady s [f] = if f.condition.holds s then some (f, []) else none := by
  simp [takeReady]

/-- A single fiber goes on in the same way under both limits. -/
theorem schedule_single (d' : Nat) {f : Fiber} (f' : Fiber)
    (hcondition : f'.condition = f.condition)
    (hquiet : s.freshThread? = none) (hnext : schedule [f] s = .next m) :
    ∃ u, u.limit = s.limit ∧ m = resume f [] u ∧
      schedule [f'] (s.withLimit d') = .next (resume f' [] (u.withLimit d')) := by
  have hquiet' : (s.withLimit d').freshThread? = none := hquiet
  have hwake : f'.wakeTime? = f.wakeTime? := by simp only [Fiber.wakeTime?, hcondition]
  have hearliest : earliest? [f'] = earliest? [f] := by
    simp only [earliest?, List.filterMap_cons, hwake]
  simp only [schedule, hquiet, hquiet', takeReady_single, hcondition, holds_withLimit,
    hearliest] at hnext ⊢
  by_cases hready : f.condition.holds s = true
  · simp only [hready, if_true] at hnext ⊢
    cases hnext
    exact ⟨s, rfl, rfl, rfl⟩
  · simp only [hready, Bool.false_eq_true, if_false] at hnext ⊢
    cases hmin : earliest? [f] with
    | none =>
        rw [hmin] at hnext
        cases hnext
    | some time =>
        rw [hmin] at hnext
        simp only at hnext ⊢
        have htime : f.condition.holds { s.withLimit d' with clock := time } =
            f.condition.holds { s with clock := time } :=
          holds_withLimit _ { s with clock := time } d'
        rw [htime]
        by_cases hawake : f.condition.holds { s with clock := time } = true
        · simp only [hawake, if_true] at hnext ⊢
          cases hnext
          exact ⟨{ s with clock := time }, rfl, rfl, rfl⟩
        · simp only [hawake, Bool.false_eq_true, if_false] at hnext
          cases hnext

/-- A fiber that stops goes on alike. -/
theorem Lifts.resume {c : Condition} {next next' : State → Program Value} {stack stack' : Stack}
    {calls : List String} {depth : Nat} {u : State} (hu : u.limit = d)
    (hnext : ∀ t, t.limit = d → (next t).Lifts d d' (next' (t.withLimit d')))
    (hstack : List.Forall₂ (Continues d d') stack stack') :
    Lifts d d' (Machine.resume ⟨none, c, next, stack, calls, depth⟩ [] u)
      (Machine.resume ⟨none, c, next', stack', calls, depth⟩ [] (u.withLimit d')) :=
  ⟨hnext _ hu, hstack, ⟨rfl, rfl⟩, ⟨rfl, rfl⟩, rfl⟩

theorem dooms_of_forall₂ {stack stack' : Stack} (h : List.Forall₂ (Continues d d') stack stack') :
    ∀ next ∈ stack, Dooms d next := by
  induction h with
  | nil => simp
  | cons hnext _ ih => exact List.forall_mem_cons.mpr ⟨hnext.dooms, ih⟩

/-- A fiber that has to wait gives way to itself. -/
theorem Lifts.schedule {c : Condition} {next next' : State → Program Value} {stack stack' : Stack}
    (hs : s.limit = d) (hquiet : s.freshThread? = none)
    (hnext : ∀ t, t.limit = d → (next t).Lifts d d' (next' (t.withLimit d')))
    (hstack : List.Forall₂ (Continues d d') stack stack')
    (hstep : Machine.schedule [⟨none, c, next, stack, s.calls, s.depth⟩] s = .next m) :
    ∃ m', Machine.schedule [⟨none, c, next', stack', s.calls, s.depth⟩] (s.withLimit d') =
        .next m' ∧
      Lifts d d' m m' := by
  let f : Fiber := ⟨none, c, next, stack, s.calls, s.depth⟩
  let f' : Fiber := ⟨none, c, next', stack', s.calls, s.depth⟩
  have hcondition : f'.condition = f.condition := rfl
  obtain ⟨u, hu, rfl, hstep'⟩ := schedule_single d' f' hcondition hquiet hstep
  exact ⟨_, hstep', .resume (hu.trans hs) hnext hstack⟩

/-- **One step under both limits**, unless a call was refused. -/
theorem Lifts.step (hd : d ≤ d') (h : Lifts d d' m m')
    (hquiet : ∀ s, m.StopsAt s → s.freshThread? = none) {m₁ : Machine} (hstep : m.step = .next m₁) :
    m.Doomed d ∨ ∃ m₁', m'.step = .next m₁' ∧ Lifts d d' m₁ m₁' := by
  obtain ⟨thread, program, stack, waiting, turn⟩ := m
  obtain ⟨thread', program', stack', waiting', turn'⟩ := m'
  obtain ⟨hprogram, hstack, ⟨rfl, rfl⟩, ⟨rfl, rfl⟩, rfl⟩ := h
  cases hprogram with
  | doomed hdoomed => exact .inl ⟨hdoomed, dooms_of_forall₂ hstack, rfl⟩
  | @done r s hs =>
      cases hstack with
      | nil => cases hstep
      | cons hnext hstack =>
          cases hstep
          exact .inr ⟨_, rfl, hnext.rest r s hs, hstack, ⟨rfl, rfl⟩, ⟨rfl, rfl⟩, rfl⟩
  | @call job s next next' hs dooms rest =>
      have hfresh := hquiet s (.inl ⟨job, next, rfl⟩)
      cases turn with
      | succ turn =>
          cases hstep
          exact .inr ⟨_, rfl, job.regular.lifts hd hs, .cons ⟨dooms, rest⟩ hstack, ⟨rfl, rfl⟩,
            ⟨rfl, rfl⟩, rfl⟩
      | zero =>
          refine .inr (Lifts.schedule (s := { s with clock := s.clock + 1 }) hs hfresh ?_ hstack
            hstep)
          exact fun t ht => .call ht dooms rest
  | @await c s next next' hs rest =>
      have hfresh := hquiet s (.inr ⟨c, next, rfl⟩)
      simp only [Machine.step, holds_withLimit] at hstep ⊢
      split at hstep
      case isTrue hready =>
        cases hstep
        rw [if_pos hready]
        exact .inr ⟨_, rfl, rest s hs, hstack, ⟨rfl, rfl⟩, ⟨rfl, rfl⟩, rfl⟩
      case isFalse hready =>
        rw [if_neg hready]
        exact .inr (Lifts.schedule (s := s) hs hfresh rest hstack hstep)

/-- The end under both limits, unless a call was refused. -/
theorem Lifts.ended {rest : Nat} (h : Lifts d d' m m') (hstep : m.step = .ended r s left rest) :
    m.Doomed d ∨ m'.step = .ended r (s.withLimit d') left rest := by
  obtain ⟨thread, program, stack, waiting, turn⟩ := m
  obtain ⟨thread', program', stack', waiting', turn'⟩ := m'
  obtain ⟨hprogram, hstack, ⟨rfl, rfl⟩, ⟨rfl, rfl⟩, rfl⟩ := h
  cases hprogram with
  | doomed hdoomed => exact .inl ⟨hdoomed, dooms_of_forall₂ hstack, rfl⟩
  | done hs =>
      cases hstack with
      | nil =>
          cases hstep
          exact .inr rfl
      | cons => cases hstep
  | call hs dooms rest =>
      cases turn with
      | succ turn => cases hstep
      | zero => exact absurd hstep (schedule_ne_ended _ _ _ _ _ _)
  | await hs rest =>
      simp only [Machine.step] at hstep
      split at hstep
      · cases hstep
      · exact absurd hstep (schedule_ne_ended _ _ _ _ _ _)

/-- **The simulation.**  A run that makes no thread and is not refused is the same under a higher
limit. -/
theorem Lifts.run (hd : d ≤ d') (h : Lifts d d' m m') (hruns : Plan.anything.Runs s₀ t m)
    (hquiet : ∀ i f scope, ¬ s₀.Fresh i f scope)
    (hrun : Machine.run fuel m = some (r, s', left)) (hsize : s'.threads.size = s₀.threads.size)
    (hr : ∀ e, r = .error e → ¬ e.Refused d) :
    Machine.run fuel m' = some (r, s'.withLimit d', left) := by
  have hgood : ¬ m.Doomed d := by
    intro hdoomed
    obtain ⟨e, he, hrefused⟩ := hdoomed.run hrun
    exact hr e he hrefused
  induction fuel generalizing m m' t with
  | zero => cases hrun
  | succ fuel ih =>
      have hstops := fun s hstop => hruns.no_fresh (s := s) h.thread.1 hstop hquiet hrun hsize
      rw [Machine.run_succ] at hrun ⊢
      split at hrun
      case h_1 m₁ hstep =>
        obtain ⟨m₁', hstep', h₁⟩ := (h.step hd hstops hstep).resolve_left hgood
        obtain ⟨u, -, -, hruns₁⟩ := hruns.step hstep
        rw [hstep']
        refine ih h₁ hruns₁ hrun fun hdoomed => ?_
        obtain ⟨e, he, hrefused⟩ := hdoomed.run hrun
        exact hr e he hrefused
      case h_2 r s left turn hstep =>
        cases hrun
        rw [(h.ended hstep).resolve_left hgood]
      case h_3 => cases hrun

end Machine

/-! ### The main result -/

/-- **Raising the limit changes no answer.**  If an evaluation under the limit `d` ends with a value
or with an error other than that a call was refused, and if no other thread is there and none is
made, then under every higher limit it ends in the same number of steps with the same value or
error, hint and trace included, and in the same state. -/
theorem raising_limit_keeps_answer {d d' : Nat} (hd : d ≤ d') {s s' : State} (hs : s.limit = d)
    (node : Node) (scope : Scope) {fuel : Nat} {r : Result} {left : List Fiber}
    (hquiet : ∀ i f place, ¬ s.Fresh i f place)
    (hrun : Machine.run fuel (.start (Eval.eval node scope s) []) = some (r, s', left))
    (hanswer : ∀ e, r = .error e → e.cause ≠ .eval (.depthExceeded d))
    (hthreads : s'.threads.size = s.threads.size) :
    Machine.run fuel (.start (Eval.eval node scope { s with limit := d' }) []) =
      some (r, { s' with limit := d' }, left) := by
  have hregular : Eval.Regular False Set.univ (Eval.eval node scope) := .eval node (Set.mem_univ _)
  have hlifts : Machine.Lifts d d' (.start (Eval.eval node scope s) [])
      (.start (Eval.eval node scope (s.withLimit d')) []) :=
    ⟨hregular.lifts hd hs, .nil, ⟨rfl, rfl⟩, ⟨rfl, rfl⟩, rfl⟩
  have hruns : Machine.Plan.anything.Runs s s (.start (Eval.eval node scope s) []) := by
    refine { evolves := .refl _ s, parked := fun f hf => ?_, fresh := fun _ _ _ _ => .inl trivial,
             running := ⟨Set.univ, Set.subset_union_left, hregular.stays s⟩, main := rfl }
    cases hf
  exact hlifts.run hd hruns hquiet hrun hthreads hanswer

theorem raising_limit_keeps_answer_begin :
    let s : State := {
      scopes := ⟨#[[("begin", .function ⟨0, "begin"⟩)]]⟩
      functions := #[.single (.ofSpecial "begin" .sequence)]
      limit := 2 }
    let node : Node := .form (.ident "begin") [.form (.ident "begin") [.atom (.int 7)]]
    ∃ s' left,
      Machine.run 40 (.start (Eval.eval node ⟨0, []⟩ s) []) = some (.ok (.int 7), s', left) ∧
      Machine.run 40 (.start (Eval.eval node ⟨0, []⟩ { s with limit := 5 }) []) =
        some (.ok (.int 7), { s' with limit := 5 }, left) := by
  intro s node
  have hrun : (Machine.run 40 (.start (Eval.eval node ⟨0, []⟩ s) [])).map
      (fun out => (out.1, out.2.1.threads.size)) = some (.ok (.int 7), 0) := by decide +kernel
  obtain ⟨⟨r, s', left⟩, hrun, heq⟩ := Option.map_eq_some_iff.mp hrun
  obtain ⟨rfl, hsize⟩ := Prod.mk.inj heq
  refine ⟨s', left, hrun, ?_⟩
  exact raising_limit_keeps_answer (by decide) rfl node ⟨0, []⟩
    (fun i f place ⟨t, ht, _⟩ => by simp [s] at ht) hrun (fun e he => by cases he) hsize

end DispatchLisp
