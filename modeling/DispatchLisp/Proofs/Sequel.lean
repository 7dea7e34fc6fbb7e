import DispatchLisp.Proofs.Moves

/-! # One program after another

`m.followedBy f` is the machine `m` with more to do: when its main fiber ends, it goes on with `f`.
Until then both machines take the same steps (`Machine.step_followedBy`), whatever other threads do
in between, and then the second one stands where a machine that has just begun with `f` would stand
(`Machine.followedBy_of_ended`).  So what a program followed by `f` ends with is what `f` ends with
from where the program has ended (`Machine.endsWith_followedBy`). -/

namespace DispatchLisp

namespace Eval

/-- Goes on with a value and passes an error on. -/
def onValue {α β : Type} (f : α → Eval β) : Except Error α → State → Program β
  | .ok a, s => f a s
  | .error e, s => .done (.error e) s

theorem bind_apply {α β : Type} (m : Eval α) (f : α → Eval β) (s : State) :
    (m >>= f) s = (m s).andThen (onValue f) := by
  refine congrArg (m s).andThen (funext fun r => funext fun t => ?_)
  cases r <;> rfl

/-- What follows a computation that is done at once with a value. -/
theorem bind_ok {α β : Type} {m : Eval α} {f : α → Eval β} {s t : State} {a : α}
    (h : m s = .done (.ok a) t) : (m >>= f) s = f a t := by
  rw [bind_apply, h]
  rfl

/-- Nothing follows a computation that fails at once. -/
theorem bind_error {α β : Type} {m : Eval α} {f : α → Eval β} {s t : State} {e : Error}
    (h : m s = .done (.error e) t) : (m >>= f) s = .done (.error e) t := by
  rw [bind_apply, h]
  rfl

end Eval

/-- A name that has an owner is assigned there, at once. -/
theorem Form.assign_of_owner? {s : State} {e : Scope} {name : String} {i : Nat}
    (h : s.scopes.owner? e name = some i) (v : Value) :
    Form.assign e name v s = .done (.ok ()) { s with scopes := s.scopes.rebind i name v } := by
  simp only [Form.assign, Eval.attempt, State.assign, h]
  rfl

variable (f : Result → State → Program Value)

/-- The program of a fiber with this stack, if the fiber goes on with `f` at its end. -/
def Program.followedBy (p : Program Value) : Stack → Program Value
  | [] => p.andThen f
  | _ :: _ => p

/-- The stack of a fiber that goes on with `f` at its end. -/
def Stack.followedBy : Stack → Stack
  | [] => []
  | [next] => [fun r s => (next r s).andThen f]
  | next :: more :: stack => next :: followedBy (more :: stack)

/-- The fiber goes on with `f` at its end, if it is the main fiber. -/
def Fiber.followedBy (g : Fiber) : Fiber :=
  match g.thread with
  | none =>
    { g with
      next := fun s => (g.next s).followedBy f g.stack
      stack := Stack.followedBy f g.stack }
  | some _ => g

theorem Fiber.condition_followedBy (g : Fiber) : (g.followedBy f).condition = g.condition := by
  unfold Fiber.followedBy
  split <;> rfl

theorem Fiber.followedBy_of_ne {g : Fiber} (h : g.thread ≠ none) : g.followedBy f = g := by
  unfold Fiber.followedBy
  split
  case h_1 hmain => exact absurd hmain h
  case h_2 => rfl

namespace Machine

/-- The main fiber goes on with `f` at its end. -/
def followedBy (m : Machine) : Machine :=
  match m.thread with
  | none =>
    ⟨none, m.program.followedBy f m.stack, Stack.followedBy f m.stack,
      m.waiting.map (Fiber.followedBy f), m.turn⟩
  | some i => ⟨some i, m.program, m.stack, m.waiting.map (Fiber.followedBy f), m.turn⟩

end Machine

/-- The step with the main fiber going on with `f`. -/
def Step.followedBy : Step → Step
  | .next m => .next (m.followedBy f)
  | step => step

namespace Machine

variable {f} {m m' : Machine} {waiting left : List Fiber} {s t : State} {r : Result} {turn : Nat}

theorem takeReady_followedBy (s : State) (waiting : List Fiber) :
    takeReady s (waiting.map (Fiber.followedBy f)) =
      (takeReady s waiting).map fun (g, rest) =>
        (g.followedBy f, rest.map (Fiber.followedBy f)) := by
  induction waiting with
  | nil => rfl
  | cons g waiting ih =>
      simp only [List.map_cons, takeReady, Fiber.condition_followedBy, ih]
      split
      · rfl
      · cases takeReady s waiting <;> rfl

theorem earliest?_followedBy (waiting : List Fiber) :
    earliest? (waiting.map (Fiber.followedBy f)) = earliest? waiting := by
  have hwake : Fiber.wakeTime? ∘ Fiber.followedBy f = Fiber.wakeTime? := by
    funext g
    simp only [Function.comp, Fiber.wakeTime?, Fiber.condition_followedBy]
  rw [earliest?, earliest?, List.filterMap_map, hwake]

theorem resume_followedBy (g : Fiber) (rest : List Fiber) (s : State) :
    resume (g.followedBy f) (rest.map (Fiber.followedBy f)) s = (resume g rest s).followedBy f := by
  obtain ⟨thread, condition, next, stack, calls, depth⟩ := g
  cases thread <;> rfl

/-- The choice of the next fiber does not depend on what the main fiber does at its end. -/
theorem schedule_followedBy (waiting : List Fiber) (s : State) :
    schedule (waiting.map (Fiber.followedBy f)) s = (schedule waiting s).followedBy f := by
  unfold schedule
  rw [takeReady_followedBy, earliest?_followedBy]
  cases s.freshThread? with
  | some thread => rfl
  | none =>
      cases takeReady s waiting with
      | some next => exact congrArg Step.next (resume_followedBy next.1 next.2 s)
      | none =>
          cases earliest? waiting with
          | none => rfl
          | some time =>
              simp only [Option.map_none, takeReady_followedBy]
              cases takeReady { s with clock := time } waiting with
              | none => rfl
              | some next => exact congrArg Step.next (resume_followedBy next.1 next.2 _)

theorem schedule_park_followedBy (g : Fiber) (waiting : List Fiber) (s : State) :
    schedule (waiting.map (Fiber.followedBy f) ++ [g.followedBy f]) s =
      (schedule (waiting ++ [g]) s).followedBy f := by
  rw [← schedule_followedBy, List.map_append]
  rfl

/-- **Both machines take the same steps** until the main fiber ends. -/
theorem step_followedBy (h : ∀ r s left turn, m.step ≠ .ended r s left turn) :
    (m.followedBy f).step = m.step.followedBy f := by
  obtain ⟨thread, program, stack, waiting, turn⟩ := m
  cases program with
  | call job s next =>
      cases turn with
      | succ turn =>
          cases thread with
          | some i => rfl
          | none => cases stack <;> rfl
      | zero =>
          cases thread with
          | some i => exact schedule_park_followedBy ⟨some i, _, _, _, _, _⟩ waiting _
          | none =>
              have hpark := schedule_park_followedBy (f := f) ⟨none, .reached s.clock,
                fun s => .call job s next, stack, s.calls, s.depth⟩ waiting
                { s with clock := s.clock + 1 }
              cases stack <;> exact hpark
  | await c s next =>
      cases hc : c.holds s with
      | true =>
          rw [step_met hc]
          cases thread with
          | some i => exact step_met hc
          | none => cases stack <;> exact step_met hc
      | false =>
          have hpark := schedule_park_followedBy (f := f)
            ⟨thread, c, next, stack, s.calls, s.depth⟩ waiting s
          rw [step_unmet hc, ← hpark]
          cases thread with
          | some i => exact step_unmet hc
          | none => cases stack <;> exact step_unmet hc
  | done r s =>
      cases stack with
      | cons next stack =>
          cases thread with
          | some i => rfl
          | none => cases stack <;> rfl
      | nil =>
          cases thread with
          | some i => exact schedule_followedBy waiting _
          | none => exact absurd rfl (h r s waiting turn)

theorem step_followedBy_next (h : m.step = .next m') :
    (m.followedBy f).step = .next (m'.followedBy f) := by
  rw [step_followedBy, h, Step.followedBy]
  rw [h]
  exact fun _ _ _ _ hended => by cases hended

/-- A computation at its beginning, followed by `f`. -/
theorem followedBy_start (p : Program Value) (hidle : ∀ g ∈ waiting, g.thread ≠ none) :
    followedBy f ⟨none, p, [], waiting, turn⟩ = ⟨none, p.andThen f, [], waiting, turn⟩ := by
  have hothers : waiting.map (Fiber.followedBy f) = waiting := by
    conv_rhs => rw [← List.map_id waiting]
    exact List.map_congr_left fun g hg => Fiber.followedBy_of_ne f (hidle g hg)
  simp only [followedBy, hothers]
  rfl

/-- Where the main fiber ends, the other machine begins with what follows. -/
theorem followedBy_of_ended (hmain : m.OneMain) (h : m.step = .ended r s left turn) :
    m.followedBy f = ⟨none, f r s, [], left, turn⟩ := by
  obtain rfl := eq_of_step_ended h
  exact followedBy_start _ ((oneMain_iff rfl).mp hmain)

/-- **What a program ends with that another one follows.** -/
theorem endsWith_followedBy (hmain : m.OneMain) {out : Outcome} :
    (m.followedBy f).EndsWith out ↔
      ∃ r s left turn, m.EndsWith (r, s, left, turn) ∧
        EndsWith ⟨none, f r s, [], left, turn⟩ out := by
  constructor
  · rintro ⟨fuel, hfinish⟩
    induction fuel generalizing m with
    | zero => cases hfinish
    | succ fuel ih =>
        cases hstep : m.step with
        | next m' =>
            simp only [finish, step_followedBy_next hstep] at hfinish
            obtain ⟨r, s, left, turn, hends, hnext⟩ :=
              ih ((moves_of_step hstep).oneMain hmain) hfinish
            exact ⟨r, s, left, turn, (endsWith_of_next hstep).mpr hends, hnext⟩
        | ended r s left turn =>
            rw [followedBy_of_ended hmain hstep] at hfinish
            exact ⟨r, s, left, turn, (endsWith_of_ended hstep).mpr rfl, fuel + 1, hfinish⟩
        | stuck =>
            have hstuck : (m.followedBy f).step = .stuck := by
              rw [step_followedBy, hstep, Step.followedBy]
              · exact fun _ h => by cases h
              · rw [hstep]
                exact fun _ _ _ _ hended => by cases hended
            simp only [finish, hstuck] at hfinish
            cases hfinish
  · rintro ⟨r, s, left, turn, hends, hnext⟩
    induction hends using EndsWith.induct with
    | ended hstep hout =>
        cases hout
        rwa [followedBy_of_ended hmain hstep]
    | next hstep _ ih =>
        have hmain' := (moves_of_step hstep).oneMain hmain
        exact (endsWith_of_next (step_followedBy_next hstep)).mpr (ih hmain')

/-- **What one computation after another ends with**: what the second ends with from where the first
has ended, or the error of the first. -/
theorem endsWith_bind {first : Eval Value} {next : Value → Eval Value}
    (hidle : ∀ g ∈ waiting, g.thread ≠ none) {out : Outcome} :
    EndsWith ⟨none, (first >>= next) s, [], waiting, turn⟩ out ↔
      ∃ r t left turn', EndsWith ⟨none, first s, [], waiting, turn⟩ (r, t, left, turn') ∧
        match r with
        | .ok v => EndsWith ⟨none, next v t, [], left, turn'⟩ out
        | .error e => out = (.error e, t, left, turn') := by
  rw [Eval.bind_apply, ← followedBy_start _ hidle,
    endsWith_followedBy ((oneMain_iff rfl).mpr hidle)]
  refine exists_congr fun r => exists_congr fun t => exists_congr fun left => exists_congr fun _ =>
    and_congr_right fun _ => ?_
  cases r with
  | ok v => exact Iff.rfl
  | error e => exact endsWith_of_ended rfl

end Machine

end DispatchLisp
