import DispatchLisp.Evaluation

/-! # Running programs

The machine carries out programs with threads.  A fiber is one thread of execution: the program that
it is in the middle of, and the stack of programs that wait for the results of jobs.  One fiber runs
at a time, until it ends, has to wait, or has begun as many jobs as fit a millisecond.  Then the
first thread that has not begun yet runs, or else the fiber that has waited longest among those
whose condition holds.  If no fiber can go on, the clock is moved to the earliest time that a fiber
waits for.

The machine stops when the main fiber ends; the fibers that are left, and what is left of the turn,
are kept for the next run.  The number of steps is bounded by an argument, so that running is a
total function; it gives `none` if the bound is reached or if every fiber waits for another one. -/

namespace DispatchLisp

/-- The programs that wait for results, innermost first. -/
abbrev Stack := List (Result → State → Program Value)

/-- A fiber that waits: for what, how it goes on, and what was its own in the state. -/
structure Fiber where
  /-- The number of its thread; the main fiber has none. -/
  thread : Option Nat
  condition : Condition
  next : State → Program Value
  stack : Stack
  calls : List String
  depth : Nat

/-- Where the machine stands: the fiber that runs, and those that wait, longest first. -/
structure Machine where
  thread : Option Nat
  program : Program Value
  stack : Stack
  waiting : List Fiber
  /-- The number of jobs that the fiber may begin before it is the turn of another one. -/
  turn : Nat

/-- What one step leads to. -/
inductive Step where
  | next (m : Machine)
  | ended (result : Result) (s : State) (waiting : List Fiber) (turn : Nat)
  | stuck

namespace State

/-- Notes the result of a thread. -/
def finish (s : State) (thread : Nat) (r : Result) : State :=
  { s with threads := s.threads.modify thread fun t => { t with phase := .finished r } }

/-- The first thread that has not begun: its number, its function and its scope. -/
def freshThread? (s : State) : Option (Nat × Value × Scope) :=
  s.threads.toList.zipIdx.findSome? fun (t, i) =>
    match t.phase with
    | .fresh f scope => some (i, f, scope)
    | _ => none

/-- Notes that a thread has begun. -/
def begin (s : State) (thread : Nat) : State :=
  { s with threads := s.threads.modify thread fun t => { t with phase := .active } }

end State

/-- The time that a fiber waits for. -/
def Fiber.wakeTime? (f : Fiber) : Option Nat :=
  match f.condition with
  | .reached time => some time
  | _ => none

namespace Machine

/-- The number of jobs that a fiber may begin in one turn, which takes a millisecond. -/
def fullTurn : Nat := 4000

/-- The machine at the beginning of a program of the main fiber. -/
def start (program : Program Value) (waiting : List Fiber) : Machine :=
  ⟨none, program, [], waiting, fullTurn⟩

/-- Takes the first fiber whose condition holds out of the list. -/
def takeReady (s : State) : List Fiber → Option (Fiber × List Fiber)
  | [] => none
  | f :: fs =>
    if f.condition.holds s then some (f, fs)
    else (takeReady s fs).map fun (g, rest) => (g, f :: rest)

/-- Lets a waiting fiber go on. -/
def resume (f : Fiber) (waiting : List Fiber) (s : State) : Machine :=
  ⟨f.thread, f.next { s with calls := f.calls, depth := f.depth }, f.stack, waiting, fullTurn⟩

/-- The earliest time that a fiber waits for. -/
def earliest? (waiting : List Fiber) : Option Nat := (waiting.filterMap Fiber.wakeTime?).min?

/-- Chooses the fiber that runs next. -/
def schedule (waiting : List Fiber) (s : State) : Step :=
  match s.freshThread? with
  | some (i, f, scope) =>
    .next ⟨some i, Job.body (.apply f [] scope) { s.begin i with calls := [], depth := 0 }, [],
      waiting, fullTurn⟩
  | none =>
    match takeReady s waiting with
    | some (f, rest) => .next (resume f rest s)
    | none =>
      match earliest? waiting with
      | none => .stuck
      | some time =>
        let s := { s with clock := time }
        match takeReady s waiting with
        | some (f, rest) => .next (resume f rest s)
        | none => .stuck

/-- One step of the machine. -/
def step (m : Machine) : Step :=
  match m.program with
  | .call job s next =>
    match m.turn with
    | turn + 1 => .next ⟨m.thread, job.body s, next :: m.stack, m.waiting, turn⟩
    | 0 =>
      let later := fun s => .call job s next
      schedule (m.waiting ++ [⟨m.thread, .reached s.clock, later, m.stack, s.calls, s.depth⟩])
        { s with clock := s.clock + 1 }
  | .await c s next =>
    if c.holds s then .next ⟨m.thread, next s, m.stack, m.waiting, m.turn⟩
    else schedule (m.waiting ++ [⟨m.thread, c, next, m.stack, s.calls, s.depth⟩]) s
  | .done r s =>
    match m.stack with
    | next :: stack => .next ⟨m.thread, next r s, stack, m.waiting, m.turn⟩
    | [] =>
      match m.thread with
      | none => .ended r s m.waiting m.turn
      | some i => schedule m.waiting (s.finish i r)

/-- Runs the machine for at most `fuel` steps: what its main fiber ends with, the state, the fibers
that are left, and what is left of the turn. -/
def finish : Nat → Machine → Option (Result × State × List Fiber × Nat)
  | 0, _ => none
  | fuel + 1, m =>
    match m.step with
    | .next m => finish fuel m
    | .ended r s waiting turn => some (r, s, waiting, turn)
    | .stuck => none

/-- Runs the machine as `finish` does, without account of the turn. -/
def run (fuel : Nat) (m : Machine) : Option (Result × State × List Fiber) :=
  (m.finish fuel).map fun (r, s, waiting, _) => (r, s, waiting)

theorem run_succ (fuel : Nat) (m : Machine) :
    run (fuel + 1) m =
      match m.step with
      | .next m => run fuel m
      | .ended r s waiting _ => some (r, s, waiting)
      | .stuck => none := by
  simp only [run, finish]
  cases m.step <;> rfl

theorem run_of_finish {fuel : Nat} {m : Machine} {r : Result} {s : State} {waiting : List Fiber}
    {turn : Nat} (h : m.finish fuel = some (r, s, waiting, turn)) :
    run fuel m = some (r, s, waiting) := by
  rw [run, h]
  rfl

end Machine

end DispatchLisp
