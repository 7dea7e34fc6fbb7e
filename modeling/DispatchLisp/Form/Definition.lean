import DispatchLisp.Form.Shape
import DispatchLisp.Program

/-! # Special forms that bind and make functions

`def`, `set`, `undef` and their variants bind names; `lambda`, `delay` and `cons-stream` make
closures; `def-symbol` makes macros.  A closure captures a fresh scope inside the one it is made in,
and the values to be bound are computed in a fresh scope, too, so that what they define stays
there. -/

namespace DispatchLisp.Form

/-- Fails because of the number of arguments of a special form. -/
def arityError {α : Type} (form expected : String) (args : List Node) : Eval α :=
  Eval.fail (.arity form expected args.length)

/-- A new closure that captures a fresh scope inside the given one. -/
def newClosure (name : String) (params : List String) (rest : Option String) (body : List Node)
    (scope : Scope) : Eval Value := do
  let captured ← Eval.newChild scope
  Eval.newFunction (.ofClosure name ⟨params, rest, body, captured⟩)

/-- Evaluates a body in a fresh scope inside the given one. -/
def evalFresh (body : List Node) (scope : Scope) : Eval Value := do
  let inner ← Eval.newChild scope
  Eval.evalBody body inner

/-- Fails unless the name is visible. -/
def requireBound (scope : Scope) (name : String) : Eval Unit := fun s =>
  .done ((s.get scope name).map fun _ => ()) s

/-- Changes the nearest binding of a name. -/
def assign (scope : Scope) (name : String) (value : Value) : Eval Unit :=
  Eval.attempt (·.assign scope name value)

/-- Removes a binding from the scope's own frame. -/
def remove (scope : Scope) (name : String) : Eval Value := Eval.attempt (·.remove scope name)

/-! ### Binding -/

/-- `(def x e...)` binds the value of the last expression; `(def (f p...) body...)` binds a
function. -/
def define (args : List Node) (scope : Scope) : Eval Value :=
  match args with
  | target :: first :: more => do
    if target.isAtom then
      let name ← Eval.decode (nameOf · "def" target)
      let value ← evalFresh (first :: more) scope
      Eval.define scope name value
    else
      let (name, names) ← Eval.decode (signature · "def" target)
      let (params, rest) := splitParams names
      let closure ← newClosure name params rest (first :: more) scope
      Eval.define scope name closure
    return .nil
  | args => arityError "def" "2+" args

/-- `(def-variable (f p... rest) body...)` binds a function whose last parameter collects all
further arguments. -/
def defineVariadic (args : List Node) (scope : Scope) : Eval Value :=
  match args with
  | target :: first :: more => do
    let (name, params, rest) ← Eval.decode (variadicSignature · "def-variable" target)
    let closure ← newClosure name params (some rest) (first :: more) scope
    Eval.define scope name closure
    return .nil
  | args => arityError "def-variable" "2+" args

/-- `(set x e...)` and `(set (f p...) body...)` change the nearest binding.  The name must be
visible before anything is evaluated. -/
def set (args : List Node) (scope : Scope) : Eval Value :=
  match args with
  | target :: first :: more => do
    if target.isAtom then
      let name ← Eval.decode (nameOf · "set" target)
      requireBound scope name
      let value ← evalFresh (first :: more) scope
      assign scope name value
    else
      let (name, names) ← Eval.decode (signature · "set" target)
      requireBound scope name
      let (params, rest) := splitParams names
      let closure ← newClosure name params rest (first :: more) scope
      assign scope name closure
    return .nil
  | args => arityError "set" "2+" args

/-- `(set-variable (f p... rest) body...)` is to `set` what `def-variable` is to `def`. -/
def setVariadic (args : List Node) (scope : Scope) : Eval Value :=
  match args with
  | target :: first :: more => do
    let (name, params, rest) ← Eval.decode (variadicSignature · "set-variable" target)
    requireBound scope name
    let closure ← newClosure name params (some rest) (first :: more) scope
    assign scope name closure
    return .nil
  | args => arityError "set-variable" "2+" args

/-- `(undef x)` removes the binding of a name from the current scope. -/
def undefine (args : List Node) (scope : Scope) : Eval Value :=
  match args with
  | [target] => do
    let name ← Eval.decode (nameOf · "undef" target)
    let _ ← remove scope name
    return .nil
  | args => arityError "undef" "1" args

/-! ### Making functions -/

/-- `(lambda (p...) body...)` makes a function. -/
def lambda (args : List Node) (scope : Scope) : Eval Value :=
  match args with
  | target :: first :: more => do
    let names ← Eval.decode (lambdaParams · target)
    let (params, rest) := splitParams names
    newClosure "lambda" params rest (first :: more) scope
  | args => arityError "lambda" "2+" args

/-- `(delay e...)` makes a function of no arguments. -/
def delay (args : List Node) (scope : Scope) : Eval Value :=
  match args with
  | [] => arityError "delay" "1+" args
  | body => newClosure "delay" [] none body scope

/-- `(cons-stream h e...)` makes a stream cell: the value of `h` and a function for the rest. -/
def consStream (args : List Node) (scope : Scope) : Eval Value :=
  match args with
  | first :: next :: more => do
    let inner ← Eval.newChild scope
    let head ← Eval.eval first inner
    let rest ← newClosure "delay" [] none (next :: more) scope
    Eval.newList [head, rest]
  | args => arityError "cons-stream" "2+" args

/-! ### Macros -/

/-- `(def-symbol (m p...) template...)` binds a macro. -/
def defineMacro (args : List Node) (scope : Scope) : Eval Value :=
  match args with
  | target :: first :: more => do
    let (name, params) ← Eval.decode (signature · "def-symbol" target)
    let f ← Eval.newFunction (.ofSpecial name (.expansion name params (first :: more)))
    Eval.define scope name f
    return .nil
  | args => arityError "def-symbol" "2+" args

/-- A macro call: the templates with the parameters replaced by the unevaluated arguments are
evaluated in a fresh scope inside the caller's.  Arguments beyond the parameters are ignored. -/
def expand (name : String) (params : List String) (templates : List Node) (args : List Node)
    (scope : Scope) : Eval Value :=
  if args.length < params.length then
    Eval.fail (.arity name (toString params.length) args.length)
  else evalFresh (Node.substituteAll (params.zip args) templates) scope

end DispatchLisp.Form
