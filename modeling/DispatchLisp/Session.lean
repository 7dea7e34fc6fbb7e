import DispatchLisp.Folder
import DispatchLisp.Machine

/-! # Sessions

A world holds the state, the fibers that wait, what is left of the turn of the main fiber, and the
two scopes that all sessions share: the core, with the special forms and `apply`, and inside it the
prelude.  A session is a scope of its own inside one of them, so that what one session defines is
not seen by another.

`execute` runs a computation to its end.  The other functions say what a session can be asked to
do. -/

namespace DispatchLisp

/-- The interpreter with everything that outlives a single evaluation. -/
structure World where
  state : State
  waiting : List Fiber
  core : Scope
  prelude : Scope
  /-- What is left of the turn of the main fiber. -/
  turn : Nat

namespace World

/-- The limit on nesting if none is chosen. -/
def defaultLimit : Nat := 10000

/-- More steps than any run will take. -/
def patience : Nat := Nat.pow 2 60

/-- A world at its beginning.  The limit on nesting is at least one. -/
def new (limit : Nat) : World :=
  let s : State := { limit := max limit 1 }
  let (core, s) := s.onScopes Scopes.newRoot
  let s := Prelude.install core Prelude.core s
  let (prelude, s) := s.onScopes (·.newChild core)
  let s := s.define prelude "empty-stream" .emptyStream
  let s := Prelude.install prelude Prelude.entries s
  ⟨s, [], core, prelude, Machine.fullTurn⟩

/-- A new session, with the prelude or without it. -/
def newSession (w : World) (withPrelude : Bool) : Scope × World :=
  let (scope, s) := w.state.onScopes (·.newChild (if withPrelude then w.prelude else w.core))
  (scope, { w with state := s })

/-- The machine at the beginning of a computation in the world. -/
def machine (w : World) (m : Eval Value) : Machine := ⟨none, m w.state, [], w.waiting, w.turn⟩

/-- Runs a computation to its end, in at most `fuel` steps. -/
def execute (fuel : Nat) (m : Eval Value) (w : World) : Option (Result × World) :=
  ((w.machine m).finish fuel).map fun (r, s, waiting, turn) =>
    (r, { w with state := s, waiting, turn })

/-- Evaluates a node in a session. -/
def evalNode (fuel : Nat) (session : Scope) (node : Node) (w : World) : Option (Result × World) :=
  w.execute fuel (Eval.eval node session)

/-- Evaluates source text: all of it is read first, and then the expressions are evaluated in order.
The result is that of the last one. -/
def evalText (fuel : Nat) (session : Scope) (text : String) (w : World) :
    Option (Result × World) :=
  match Node.readAll text with
  | .error c => some (.error (.base c), w)
  | .ok nodes => w.execute fuel (Eval.evalBody nodes session)

/-- Evaluates the contents of the file with a given path, or fails if it cannot be read. -/
def evalFile (fuel : Nat) (session : Scope) (path : String) (contents : Except FileFault String)
    (w : World) : Option (Result × World) :=
  match contents with
  | .ok text => w.evalText fuel session text
  | .error fault => some (.error (.base (.io (path ++ ": " ++ fault.message))), w)

/-- Calls a function value in a session. -/
def apply (fuel : Nat) (session : Scope) (f : Value) (args : List Value) (w : World) :
    Option (Result × World) :=
  w.execute fuel (Eval.apply f args session)

/-- Gives a session a function of the host program.  It gets evaluated arguments and may use the
heap. -/
def registerNative (session : Scope) (name : String) (params : List Kind) (variadic : Option Kind)
    (run : List Value → HeapM Value) (w : World) : World :=
  { w with state := w.state.register session ⟨name, params, variadic, .native run⟩ }

/-- Gives a session a special form of the host program. -/
def registerSpecial (session : Scope) (name : String) (run : List Node → HeapM Value) (w : World) :
    World :=
  { w with state := w.state.register session (.ofSpecial name (.host run)) }

/-- What was printed since the last call. -/
def takeOutput (w : World) : String × World :=
  (w.state.output, { w with state := { w.state with output := "" } })

end World

end DispatchLisp
