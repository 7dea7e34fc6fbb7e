import DispatchLisp.Prelude

/-! # Evaluation

What each job does.  To evaluate a node, its head is resolved first.  An atom is its resolved value,
and the empty form is `nil`.  Every other form is a call of the function that its head stands for: a
special form gets the children as they are; otherwise the children are evaluated, each in a fresh
scope, and the best overload for the values runs.

Calls of forms are counted while they are nested, and nesting beyond the limit is an error.  Calls
of overloads are noted by name while they run, and an error that leaves a call without a trace gets
the names of the calls that are running. -/

namespace DispatchLisp

namespace Eval

/-- Counts a level of nesting around a computation, unless the limit is reached. -/
def nested {α : Type} (m : Eval α) : Eval α := fun s =>
  if s.limit < s.depth + 1 then .done (.error (.base (.eval (.depthExceeded s.limit)))) s
  else atEnd m (fun r s => (r, { s with depth := s.depth - 1 })) { s with depth := s.depth + 1 }

/-- An error without a trace gets the names of the running calls. -/
def attachTrace {α : Type} (calls : List String) : Except Error α → Except Error α
  | .ok a => .ok a
  | .error e => .error (if e.trace?.isNone then e.withTrace calls else e)

/-- Notes a call around a computation. -/
def framed {α : Type} (name : String) (m : Eval α) : Eval α := fun s =>
  atEnd m (fun r s => (attachTrace s.calls r, s.popCall)) (s.pushCall name)

end Eval

/-! ### Calls -/

/-- The words for the number of arguments that a closure takes. -/
def Closure.arity (c : Closure) : String :=
  toString c.params.length ++ (if c.rest.isSome then "+" else "")

/-- Binds parameters to arguments in order; the result is the arguments left over. -/
def bindParams (scope : Scope) : List String → List Value → Eval (List Value)
  | p :: ps, v :: vs => do
    Eval.define scope p v
    bindParams scope ps vs
  | _, vs => pure vs

/-- Calls a closure: the arguments are bound in a fresh scope inside the captured one, and the body
is evaluated there. -/
def Closure.call (name : String) (c : Closure) (args : List Value) : Eval Value :=
  if args.length < c.params.length || (c.rest.isNone && c.params.length < args.length) then
    Eval.fail (.arity name c.arity args.length)
  else do
    let scope ← Eval.newChild c.scope
    let left ← bindParams scope c.params args
    if let some rest := c.rest then
      let items ← Eval.newList left
      Eval.define scope rest items
    Eval.evalBody c.body scope

/-- What an overload does. -/
def Entry.run (e : Entry) (args : List Value) (scope : Scope) : Eval Value :=
  match e.body with
  | .native f => Eval.onHeap (f args)
  | .routine r => r.run args scope
  | .closure c => c.call e.name args
  | .special form => form.run (args.map .atom) scope

/-- Calls an overload; the call is noted while it runs. -/
def Entry.call (e : Entry) (args : List Value) (scope : Scope) : Eval Value :=
  Eval.framed e.name (e.run args scope)

/-- Calls the best overload for the arguments. -/
def Overloads.call (o : Overloads) (args : List Value) (scope : Scope) : Eval Value :=
  match o.selected args with
  | .ok e => e.call args scope
  | .error c => Eval.fail c

/-- Calls a function value.  A special form gets the arguments as atoms. -/
def applyValue (f : Value) (args : List Value) (scope : Scope) : Eval Value := fun s =>
  match f with
  | .function ref =>
    let o := s.overloads ref
    match o.special? with
    | some form => form.run (args.map .atom) scope s
    | none => o.call args scope s
  | v => .done (.error (s.notCallableError scope v)) s

/-! ### Nodes -/

/-- Evaluates nodes in order, each in a fresh scope; the values so far are in `done`, the last one
first. -/
def evalArgs (scope : Scope) (done : List Value) : List Node → Eval (List Value)
  | [] => pure done.reverse
  | n :: ns => do
    let inner ← Eval.newChild scope
    let v ← Eval.eval n inner
    evalArgs scope (v :: done) ns

/-- Calls a function on unevaluated arguments. -/
def callForm (o : Overloads) (children : List Node) (scope : Scope) : Eval Value :=
  match o.special? with
  | some form => form.run children scope
  | none => do
    let args ← evalArgs scope [] children
    o.call args scope

/-- Evaluates a node in a scope. -/
def evalNode (node : Node) (scope : Scope) : Eval Value := fun s =>
  let head := s.scopes.resolve scope node.head
  match node with
  | .atom _ => .done (.ok head) s
  | .form _ children =>
    match head, children with
    | .function f, children => Eval.nested (callForm (s.overloads f) children scope) s
    | .nil, [] => .done (.ok .nil) s
    | head, _ => .done (.error (s.notCallableError scope head)) s

/-- What a job does. -/
def Job.body : Job → Eval Value
  | .eval node scope => evalNode node scope
  | .apply f args scope => applyValue f args scope
  | .loop condition body scope last => Form.loopRound condition body scope last
  | .sift predicate stream scope => Prelude.siftStep predicate stream scope
  | .walk f streams scope => Prelude.walkStep f streams scope

end DispatchLisp
