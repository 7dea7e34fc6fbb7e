import DispatchLisp.Error.Suggestion
import DispatchLisp.Function.Overload
import DispatchLisp.Scope

/-! # The state of the interpreter

Everything an evaluation can read or change: scopes, heap, functions, threads, the text printed so
far and the clock.  Two parts belong to the thread that is running: the names of the calls it is in
the middle of, and the depth to which its evaluations are nested.

The functions here are the elementary updates. -/

namespace DispatchLisp

/-- How far a thread has come. -/
inductive Phase where
  /-- It has not begun to call its function, which it will do in the given scope. -/
  | fresh (function : Value) (scope : Scope)
  | active
  | finished (result : Except Error Value)
deriving Inhabited

/-- A thread other than the main one. -/
structure Thread where
  name : String
  phase : Phase
  /-- Someone has asked for the result, which can be done once. -/
  joined : Bool := false
deriving Inhabited

/-- The state of the interpreter. -/
structure State where
  scopes : Scopes := {}
  heap : Heap := {}
  functions : Array Overloads := #[]
  threads : Array Thread := #[]
  output : String := ""
  /-- The time in milliseconds. -/
  clock : Nat := 0
  /-- How deep evaluations may be nested. -/
  limit : Nat := 10000
  /-- The names of the calls that are running, innermost first. -/
  calls : List String := []
  /-- How deep evaluations are nested. -/
  depth : Nat := 0
deriving Inhabited

namespace State

/-! ### Scopes and heap -/

/-- Applies an operation to the scopes. -/
def onScopes {α : Type} (s : State) (f : Scopes → α × Scopes) : α × State :=
  let scopes := s.scopes
  let s := { s with scopes := {} }
  let (a, scopes) := f scopes
  (a, { s with scopes })

/-- Applies an operation to the heap. -/
def onHeap {α : Type} (s : State) (f : Heap → α × Heap) : α × State :=
  let heap := s.heap
  let s := { s with heap := {} }
  let (a, heap) := f heap
  (a, { s with heap })

/-- Binds a name in a scope. -/
def define (s : State) (scope : Scope) (name : String) (value : Value) : State :=
  (s.onScopes fun scopes => ((), scopes.define scope name value)).2

/-- The error for a name that is not bound. -/
def unboundError (s : State) (scope : Scope) (name : String) : Error :=
  nameError (.unbound name) name (s.scopes.names scope)

/-- The value of a name. -/
def get (s : State) (scope : Scope) (name : String) : Except Error Value :=
  match s.scopes.lookup scope name with
  | some v => .ok v
  | none => .error (s.unboundError scope name)

/-- Changes the nearest binding of a name. -/
def assign (s : State) (scope : Scope) (name : String) (value : Value) :
    Except Error Unit × State :=
  match s.scopes.owner? scope name with
  | some i => (.ok (), (s.onScopes fun scopes => ((), scopes.rebind i name value)).2)
  | none => (.error (s.unboundError scope name), s)

/-- Removes the binding of a name from the scope's own frame. -/
def remove (s : State) (scope : Scope) (name : String) : Except Error Value × State :=
  match s.scopes.remove? scope name with
  | some (v, scopes) => (.ok v, { s with scopes })
  | none => (.error (s.unboundError scope name), s)

/-! ### Functions -/

/-- The overloads of a function value. -/
def overloads (s : State) (f : FunctionRef) : Overloads := s.functions.getD f.id ⟨f.name, []⟩

/-- A new function value for a set of overloads. -/
def newFunction (s : State) (o : Overloads) : Value × State :=
  (.function ⟨s.functions.size, o.name⟩, { s with functions := s.functions.push o })

/-- Adds an overload to the function that is visible under its name, and binds the extended set in
the scope.  If the name does not stand for a function, the set has this overload only. -/
def register (s : State) (scope : Scope) (e : Entry) : State :=
  let set := match s.scopes.lookup scope e.name with
    | some (.function f) => (s.overloads f).extend e
    | _ => .single e
  let (f, s) := s.newFunction set
  s.define scope e.name f

/-- The error for something that is called and is not a function. -/
def notCallableError (s : State) (scope : Scope) (v : Value) : Error :=
  match v with
  | .ident name => nameError (.notCallable name) name (s.scopes.names scope)
  | v => .base (.notCallable (s.heap.print v ++ " (" ++ v.kindName ++ ")"))

/-! ### Calls -/

/-- Notes that a call begins. -/
def pushCall (s : State) (name : String) : State := { s with calls := name :: s.calls }

/-- Notes that the innermost call has ended. -/
def popCall (s : State) : State := { s with calls := s.calls.tail }

/-- Forgets the innermost calls until at most `n` are left. -/
def truncateCalls (s : State) (n : Nat) : State :=
  { s with calls := s.calls.drop (s.calls.length - n) }

/-! ### Output -/

/-- Appends text to the output. -/
def print (s : State) (text : String) : State :=
  let output := s.output
  let s := { s with output := "" }
  { s with output := output ++ text }

end State

end DispatchLisp
