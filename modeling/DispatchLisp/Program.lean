import DispatchLisp.State

/-! # Programs

The evaluator is written as programs.  A program is a tree: it is done, with a result and a state;
or it asks for a job to be carried out and goes on with the job's result; or it waits for a
condition and goes on with the state that the wait leaves.

The jobs are the points at which evaluation recurs, so the body of every job is a finite tree, and
how jobs are carried out in turn is left to whoever runs the program.

`Eval` is the monad of programs that begin in a given state.  An error ends a program and keeps the
state that was reached. -/

namespace DispatchLisp

/-- What a program can ask for. -/
inductive Job where
  /-- Evaluate a node in a scope. -/
  | eval (node : Node) (scope : Scope)
  /-- Call a function value with evaluated arguments; `scope` is the caller's. -/
  | apply (function : Value) (args : List Value) (scope : Scope)
  /-- Go round a loop again; `last` is the value of the last round. -/
  | loop (test : Node) (body : List Node) (scope : Scope) (last : Value)
  /-- Find the next element of a stream that meets a predicate. -/
  | sift (predicate stream : Value) (scope : Scope)
  /-- Call a function on the elements of streams in step. -/
  | walk (function : Value) (streams : List Value) (scope : Scope)
deriving Inhabited

/-- What a program can wait for. -/
inductive Condition where
  | free (lock : Nat)
  | finished (thread : Nat)
  | reached (time : Nat)
deriving DecidableEq, Repr, Inhabited

/-- The result of a job: a value or an error. -/
abbrev Result := Except Error Value

/-- A program with a result of type `α`. -/
inductive Program (α : Type) where
  | done (result : Except Error α) (s : State)
  | call (job : Job) (s : State) (next : Result → State → Program α)
  | await (condition : Condition) (s : State) (next : State → Program α)

namespace Condition

/-- The condition holds in a state. -/
def holds (s : State) : Condition → Bool
  | free lock => !(s.heap.lockAt lock).held
  | finished thread =>
    match s.threads[thread]? with
    | some t =>
      match t.phase with
      | .finished _ => true
      | _ => false
    | none => true
  | reached time => time ≤ s.clock

end Condition

/-- Runs a program and goes on with its result, whether it is a value or an error. -/
def Program.andThen {α β : Type} :
    Program α → (Except Error α → State → Program β) → Program β
  | .done r s, f => f r s
  | .call job s next, f => .call job s fun r s => (next r s).andThen f
  | .await c s next, f => .await c s fun s => (next s).andThen f

/-- A program that begins in a given state. -/
def Eval (α : Type) := State → Program α

namespace Eval

instance : Monad Eval where
  pure a := fun s => .done (.ok a) s
  bind m f := fun s => (m s).andThen fun r s =>
    match r with
    | .ok a => f a s
    | .error e => .done (.error e) s

variable {α : Type}

/-- Ends with an error. -/
def throw (e : Error) : Eval α := fun s => .done (.error e) s

/-- Ends with an unwrapped error. -/
def fail (c : Cause) : Eval α := throw (.base c)

/-- Reads the state. -/
def reads (f : State → α) : Eval α := fun s => .done (.ok (f s)) s

/-- Changes the state. -/
def modify (f : State → State) : Eval Unit := fun s => .done (.ok ()) (f s)

/-- Changes the state and gives a value. -/
def update (f : State → α × State) : Eval α := fun s =>
  let (a, s) := f s
  .done (.ok a) s

/-- Changes the state in a way that may fail. -/
def attempt (f : State → Except Error α × State) : Eval α := fun s =>
  let (r, s) := f s
  .done r s

/-- Does a computation on the heap. -/
def onHeap (m : HeapM α) : Eval α := attempt (·.onHeap m)

/-- Carries out a job. -/
def perform (job : Job) : Eval Value := fun s => .call job s .done

/-- Waits until a condition holds. -/
def await (c : Condition) : Eval Unit := fun s => .await c s (.done (.ok ()))

/-- Applies a last step to the outcome, whether it is a value or an error. -/
def atEnd (m : Eval α) (last : Except Error α → State → Except Error α × State) : Eval α :=
  fun s => (m s).andThen fun r s =>
    let (r, s) := last r s
    .done r s

/-! ### Operations on the parts of the state -/

/-- Evaluates a node in a scope. -/
def eval (node : Node) (scope : Scope) : Eval Value := perform (.eval node scope)

/-- Calls a function value. -/
def apply (function : Value) (args : List Value) (scope : Scope) : Eval Value :=
  perform (.apply function args scope)

/-- A new scope inside another one. -/
def newChild (scope : Scope) : Eval Scope := update fun s => s.onScopes (·.newChild scope)

/-- Binds a name in a scope. -/
def define (scope : Scope) (name : String) (value : Value) : Eval Unit :=
  modify (·.define scope name value)

/-- A new list. -/
def newList (items : List Value) : Eval Value := update fun s => s.onHeap (·.newList items)

/-- A new function value with a single overload. -/
def newFunction (e : Entry) : Eval Value := update (·.newFunction (.single e))

/-- Evaluates nodes one after the other in a scope.  The result is that of the last one, or `last`
if there is none. -/
def evalSequence (scope : Scope) (last : Value) : List Node → Eval Value
  | [] => pure last
  | n :: ns => do
    let v ← eval n scope
    evalSequence scope v ns

/-- Evaluates the nodes of a body; an empty body gives `nil`. -/
def evalBody (nodes : List Node) (scope : Scope) : Eval Value := evalSequence scope .nil nodes

/-- Takes a node apart, or fails with what is wrong with it; its text is that of the current heap.
-/
def decode (f : Heap → Except Cause α) : Eval α := fun s =>
  match f s.heap with
  | .ok a => .done (.ok a) s
  | .error c => .done (.error (.base c)) s

/-- The value must be a truth value. -/
def expectBool : Value → Eval Bool
  | .bool b => pure b
  | v => fail (.kind "bool" v.kindName)

end Eval

end DispatchLisp
