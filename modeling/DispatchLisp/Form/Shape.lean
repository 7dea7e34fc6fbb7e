import DispatchLisp.Error
import DispatchLisp.Node

/-! # The shapes of special forms

How the arguments of special forms are taken apart: names, signatures `(f p q . rest)`, parameter
lists, the bindings of `let` and the clauses of `cond`.

A list whose first item is a form is read with the head `apply`, so a binding `((f p) body)`, a
clause `((test) body)` and a list of bindings are all headed by `apply`.

Each decoder is told the name of the special form, for the message, and the heap, to print the node
that it cannot take apart. -/

namespace DispatchLisp.Form

/-- The value is the given identifier. -/
def isKeyword (v : Value) (keyword : String) : Bool := v == .ident keyword

/-- The node is a form headed by `apply`. -/
def isApply : Node → Bool
  | .form v _ => isKeyword v "apply"
  | .atom _ => false

/-- The name that a node is, or is headed by. -/
def nameOf (h : Heap) (form : String) (n : Node) : Except Cause String :=
  match n.head with
  | .ident name => .ok name
  | _ => .error (.eval (.expectedName form (n.print h)))

/-- The name of a parameter. -/
def paramOf (h : Heap) (form : String) (n : Node) : Except Cause String :=
  if n.isAtom then nameOf h form n else .error (.eval (.parameterNotName form (n.print h)))

/-- The names of parameters. -/
def paramsOf (h : Heap) (form : String) : List Node → Except Cause (List String)
  | [] => .ok []
  | n :: ns => do return (← paramOf h form n) :: (← paramsOf h form ns)

/-- The name and the parameter names of a signature. -/
def signature (h : Heap) (form : String) (n : Node) : Except Cause (String × List String) := do
  let name ← nameOf h form n
  return (name, ← paramsOf h form n.children)

/-- A signature whose last parameter collects all further arguments: the name, the parameters before
the last one, and the last one. -/
def variadicSignature (h : Heap) (form : String) (n : Node) :
    Except Cause (String × List String × String) := do
  let (name, params) ← signature h form n
  match params.getLast? with
  | some rest => return (name, params.dropLast, rest)
  | none => .error (.eval (.noRestParameter form))

/-- The names in the parameter list of `lambda`. -/
def lambdaParams (h : Heap) (n : Node) : Except Cause (List String) :=
  match n with
  | .atom .nil | .form .nil [] => .ok []
  | n => do
    let (first, rest) ← signature h "lambda" n
    return first :: rest

/-- Splits parameter names at the first dot: the parameters before it, and the name after it, which
collects all further arguments.  Names beyond that one are ignored. -/
def splitParams : List String → List String × Option String
  | [] => ([], none)
  | name :: names =>
    if name = "." then ([], names.head?)
    else
      let (params, rest) := splitParams names
      (name :: params, rest)

/-- The bindings of a `let`. -/
def letBindings (h : Heap) (form : String) (n : Node) : Except Cause (List Node) :=
  match n with
  | .atom .nil | .form .nil [] => .ok []
  | n =>
    if isApply n then .ok n.children else .error (.eval (.badBindings form (n.print h)))

/-- The test and the body of a clause. -/
def splitClause (clause : Node) : Node × List Node :=
  match isApply clause, clause.children with
  | true, test :: body => (test, body)
  | _, children => (.atom clause.head, children)

end DispatchLisp.Form
