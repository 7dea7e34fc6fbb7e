import DispatchLisp.Machine
import Mathlib.Data.List.Count

/-! # Steps of the machine

What one step of the machine can do, said once.  The fiber that runs opens a job, goes on after a
wait, hands a result to what waits for it, or gives way; and when a fiber gives way, a new thread
begins or a fiber that waits is resumed, perhaps after the clock was moved (`Machine.Moves`).

Among all fibers there is one main fiber (`Machine.OneMain`), which no step changes. -/

namespace DispatchLisp.Machine

variable {m m' : Machine} {waiting left : List Fiber} {s t : State} {r : Result} {fuel turn : Nat}

/-- The fiber that runs gives way: the fibers that wait from then on, and the state. -/
inductive Yields : Machine → List Fiber → State → Prop
  /-- Its turn is over. -/
  | turn (thread : Option Nat) (job : Job) (s : State) (next : Result → State → Program Value)
      (stack : Stack) (waiting : List Fiber) :
      Yields ⟨thread, .call job s next, stack, waiting, 0⟩
        (waiting ++
          [⟨thread, .reached s.clock, fun s => .call job s next, stack, s.calls, s.depth⟩])
        { s with clock := s.clock + 1 }
  /-- It has to wait. -/
  | wait (thread : Option Nat) (c : Condition) (s : State) (next : State → Program Value)
      (stack : Stack) (waiting : List Fiber) (turn : Nat) (unmet : c.holds s = false) :
      Yields ⟨thread, .await c s next, stack, waiting, turn⟩
        (waiting ++ [⟨thread, c, next, stack, s.calls, s.depth⟩]) s
  /-- It is not the main fiber, and it has ended. -/
  | finish (i : Nat) (r : Result) (s : State) (waiting : List Fiber) (turn : Nat) :
      Yields ⟨some i, .done r s, [], waiting, turn⟩ waiting (s.finish i r)

/-- The fiber that runs next. -/
inductive Chooses (waiting : List Fiber) (s : State) : Machine → Prop
  | fresh {i : Nat} {f : Value} {scope : Scope} (h : s.freshThread? = some (i, f, scope)) :
      Chooses waiting s
        ⟨some i, Job.body (.apply f [] scope) { s.begin i with calls := [], depth := 0 }, [],
          waiting, fullTurn⟩
  | ready (time : Nat) {f : Fiber} {rest : List Fiber}
      (h : takeReady { s with clock := time } waiting = some (f, rest)) :
      Chooses waiting s (resume f rest { s with clock := time })

/-- What one step can do. -/
inductive Moves : Machine → Machine → Prop
  | opens (thread : Option Nat) (job : Job) (s : State) (next : Result → State → Program Value)
      (stack : Stack) (waiting : List Fiber) (turn : Nat) :
      Moves ⟨thread, .call job s next, stack, waiting, turn + 1⟩
        ⟨thread, job.body s, next :: stack, waiting, turn⟩
  | goes (thread : Option Nat) (c : Condition) (s : State) (next : State → Program Value)
      (stack : Stack) (waiting : List Fiber) (turn : Nat) (met : c.holds s = true) :
      Moves ⟨thread, .await c s next, stack, waiting, turn⟩ ⟨thread, next s, stack, waiting, turn⟩
  | returns (thread : Option Nat) (r : Result) (s : State) (next : Result → State → Program Value)
      (stack : Stack) (waiting : List Fiber) (turn : Nat) :
      Moves ⟨thread, .done r s, next :: stack, waiting, turn⟩
        ⟨thread, next r s, stack, waiting, turn⟩
  | yields {m m' : Machine} {waiting : List Fiber} {s : State} (yields : Yields m waiting s)
      (chooses : Chooses waiting s m') : Moves m m'

/-! ### Steps at a wait -/

section

variable {c : Condition} {next : State → Program Value} {thread : Option Nat} {stack : Stack}

theorem step_met (h : c.holds s = true) :
    step ⟨thread, .await c s next, stack, waiting, turn⟩ =
      .next ⟨thread, next s, stack, waiting, turn⟩ := by
  simp only [step, h, if_true]

theorem step_unmet (h : c.holds s = false) :
    step ⟨thread, .await c s next, stack, waiting, turn⟩ =
      schedule (waiting ++ [⟨thread, c, next, stack, s.calls, s.depth⟩]) s := by
  simp only [step, h, Bool.false_eq_true, if_false]

end

/-! ### Every step is a move -/

theorem chooses_of_schedule (h : schedule waiting s = .next m) : Chooses waiting s m := by
  unfold schedule at h
  split at h
  case h_1 i f scope hfresh =>
    cases h
    exact .fresh hfresh
  case h_2 =>
    split at h
    case h_1 f rest hready =>
      cases h
      exact .ready s.clock hready
    case h_2 =>
      split at h
      case h_1 => cases h
      case h_2 time _ =>
        simp only at h
        split at h
        case h_1 f rest hready =>
          cases h
          exact .ready time hready
        case h_2 => cases h

theorem schedule_ne_ended (waiting : List Fiber) (s : State) (r : Result) (t : State)
    (left : List Fiber) (turn : Nat) : schedule waiting s ≠ .ended r t left turn := by
  unfold schedule
  intro h
  split at h
  · cases h
  · split at h
    · cases h
    · split at h
      · cases h
      · simp only at h
        split at h <;> cases h

/-- **One step is a move.** -/
theorem moves_of_step (h : m.step = .next m') : Moves m m' := by
  obtain ⟨thread, program, stack, waiting, turn⟩ := m
  cases program with
  | call job s next =>
      cases turn with
      | zero => exact .yields (.turn thread job s next stack waiting) (chooses_of_schedule h)
      | succ turn =>
          cases h
          exact .opens thread job s next stack waiting turn
  | await c s next =>
      cases hc : c.holds s with
      | true =>
          rw [step_met hc] at h
          cases h
          exact .goes thread c s next stack waiting turn hc
      | false =>
          rw [step_unmet hc] at h
          exact .yields (.wait thread c s next stack waiting turn hc) (chooses_of_schedule h)
  | done r s =>
      cases stack with
      | cons next stack =>
          cases h
          exact .returns thread r s next stack waiting turn
      | nil =>
          cases thread with
          | none => cases h
          | some i => exact .yields (.finish i r s waiting turn) (chooses_of_schedule h)

/-- The machine stops where the main fiber has ended. -/
theorem eq_of_step_ended (h : m.step = .ended r s left turn) :
    m = ⟨none, .done r s, [], left, turn⟩ := by
  obtain ⟨thread, program, stack, waiting, turn'⟩ := m
  cases program with
  | call job s next =>
      cases turn' with
      | zero => exact absurd h (schedule_ne_ended _ _ _ _ _ _)
      | succ turn' => cases h
  | await c s next =>
      cases hc : c.holds s with
      | true =>
          rw [step_met hc] at h
          cases h
      | false =>
          rw [step_unmet hc] at h
          exact absurd h (schedule_ne_ended _ _ _ _ _ _)
  | done r s =>
      cases stack with
      | cons next stack => cases h
      | nil =>
          cases thread with
          | none =>
              cases h
              rfl
          | some i => exact absurd h (schedule_ne_ended _ _ _ _ _ _)

/-- The machine stands at a job or a wait, in the state `s`. -/
def StopsAt (m : Machine) (s : State) : Prop :=
  (∃ job next, m.program = .call job s next) ∨ ∃ c next, m.program = .await c s next

/-! ### Runs -/

/-- What a run ends with: the result of the main fiber, the state, the fibers that are left, and
what is left of the turn. -/
abbrev Outcome := Result × State × List Fiber × Nat

/-- The machine ends, after some number of steps, with this outcome. -/
def EndsWith (m : Machine) (out : Outcome) : Prop := ∃ fuel, m.finish fuel = some out

variable {out : Outcome}

theorem endsWith_of_next (h : m.step = .next m') : m.EndsWith out ↔ m'.EndsWith out := by
  constructor
  · rintro ⟨fuel, hfinish⟩
    cases fuel with
    | zero => cases hfinish
    | succ fuel =>
        simp only [finish, h] at hfinish
        exact ⟨fuel, hfinish⟩
  · rintro ⟨fuel, hfinish⟩
    exact ⟨fuel + 1, by simp only [finish, h, hfinish]⟩

theorem endsWith_of_ended (h : m.step = .ended r s left turn) :
    m.EndsWith out ↔ out = (r, s, left, turn) := by
  constructor
  · rintro ⟨fuel, hfinish⟩
    cases fuel with
    | zero => cases hfinish
    | succ fuel =>
        simp only [finish, h] at hfinish
        exact (Option.some.inj hfinish).symm
  · rintro rfl
    exact ⟨1, by simp only [finish, h]⟩

/-- Induction along a run that ends, backwards from its end. -/
theorem EndsWith.induct {motive : (m : Machine) → m.EndsWith out → Prop}
    (ended : ∀ {m r s left turn} (hstep : m.step = .ended r s left turn)
      (hout : out = (r, s, left, turn)), motive m ((endsWith_of_ended hstep).mpr hout))
    (next : ∀ {m m'} (hstep : m.step = .next m') (h : m'.EndsWith out), motive m' h →
      motive m ((endsWith_of_next hstep).mpr h))
    {m : Machine} (h : m.EndsWith out) : motive m h := by
  obtain ⟨fuel, hfinish⟩ := h
  induction fuel generalizing m with
  | zero => cases hfinish
  | succ fuel ih =>
      have hfinish' := hfinish
      simp only [finish] at hfinish'
      split at hfinish'
      case h_1 m' hstep => exact next hstep ⟨fuel, hfinish'⟩ (ih hfinish')
      case h_2 r s left turn hstep => exact ended hstep (Option.some.inj hfinish').symm
      case h_3 => cases hfinish'

/-! ### The main fiber -/

/-- There is one main fiber. -/
def OneMain (m : Machine) : Prop := (m.thread :: m.waiting.map Fiber.thread).count none = 1

theorem oneMain_iff (hthread : m.thread = none) :
    m.OneMain ↔ ∀ f ∈ m.waiting, f.thread ≠ none := by
  rw [OneMain, hthread, List.count_cons_self, Nat.add_eq_right, List.count_eq_zero]
  simp only [List.mem_map, not_exists, not_and, ne_eq]

theorem takeReady_perm {rest : List Fiber} {f : Fiber}
    (h : takeReady s waiting = some (f, rest)) : waiting.Perm (f :: rest) := by
  induction waiting generalizing rest with
  | nil => cases h
  | cons g waiting ih =>
      unfold takeReady at h
      split at h
      · cases h
        exact .refl _
      · obtain ⟨⟨f', rest'⟩, htake, heq⟩ := Option.map_eq_some_iff.mp h
        cases heq
        exact ((ih htake).cons g).trans (.swap f g rest')

theorem count_park {f : Fiber} (h : (f.thread :: waiting.map Fiber.thread).count none = 1) :
    ((waiting ++ [f]).map Fiber.thread).count none = 1 := by
  rw [← h]
  exact ((List.perm_append_singleton f waiting).map Fiber.thread).count_eq none

theorem Yields.count (h : Yields m waiting s) (hm : m.OneMain) :
    (waiting.map Fiber.thread).count none = 1 := by
  cases h with
  | turn => exact count_park hm
  | wait => exact count_park hm
  | finish => exact hm

theorem Chooses.oneMain (h : Chooses waiting s m)
    (hwaiting : (waiting.map Fiber.thread).count none = 1) : m.OneMain := by
  cases h with
  | fresh => exact hwaiting
  | ready time hready =>
      rw [((takeReady_perm hready).map Fiber.thread).count_eq none] at hwaiting
      exact hwaiting

/-- No step makes or ends the main fiber. -/
theorem Moves.oneMain (h : Moves m m') (hm : m.OneMain) : m'.OneMain := by
  cases h with
  | opens => exact hm
  | goes => exact hm
  | returns => exact hm
  | yields hyields hchooses => exact hchooses.oneMain (hyields.count hm)

end DispatchLisp.Machine
