import DispatchLisp.Heap.Action
import DispatchLisp.Node

/-! # Functions

A function value stands for a set of overloads of one name.  An overload, `Entry`, declares the
kinds of its arguments and has a body of one of four sorts:

* a special form, which gets its arguments unevaluated;
* a native function, which works on values and the heap;
* a routine, which may in addition call functions, evaluate, print or handle threads;
* a closure, which is written in the language.

Special forms and routines are data, named here and carried out by the evaluator. -/

namespace DispatchLisp

/-- A scope: the number of its own frame, and those of the scopes around it, innermost first. -/
structure Scope where
  frame : Nat
  outer : List Nat
deriving DecidableEq, Repr, Inhabited

/-- A function written in the language: its parameters, the parameter that collects all further
arguments, its body, and the scope it was made in. -/
structure Closure where
  params : List String
  rest : Option String
  body : List Node
  scope : Scope
deriving Inhabited

/-- A function that gets its arguments unevaluated. -/
inductive SpecialForm where
  | sequence | cond | consStream | define | defineMacro | defineVariadic | delay | branch | lambda
  | letParallel | letSequential | quote | assign | assignVariadic | switch | undefine | loop
  /-- A macro: the templates are evaluated with the parameters replaced by the arguments. -/
  | expansion (name : String) (params : List String) (templates : List Node)
  /-- A special form given by the host program. -/
  | host (run : List Node → HeapM Value)
deriving Inhabited

/-- A function that needs more than the heap. -/
inductive Routine where
  | apply | applyList | map | filter | foldLeft | foldRight | forEach | curry | maybe
  | force | streamRest | streamRef | streamTake | streamMap | streamFilter | streamForEach
  | evalText | isBound
  | print | printLine | newLine
  | lock | thread | threadJoin | threadAlive | sleep
  /-- Calls a function with some arguments fixed in advance. -/
  | curried (function : Value) (fixed : List Value)
  /-- The rest of a mapped stream. -/
  | mapRest (function : Value) (rests : List Value)
  /-- The rest of a filtered stream. -/
  | filterRest (predicate rest : Value)
deriving Inhabited

/-- What an overload does. -/
inductive Body where
  | special (form : SpecialForm)
  | native (run : List Value → HeapM Value)
  | routine (routine : Routine)
  | closure (closure : Closure)
deriving Inhabited

/-- One overload of a function.  Arguments beyond the declared ones are allowed if there is a kind
for them. -/
structure Entry where
  name : String
  params : List Kind
  variadic : Option Kind
  body : Body
deriving Inhabited

/-- All overloads of one name, in the order of registration. -/
structure Overloads where
  name : String
  entries : List Entry
deriving Inhabited

namespace Closure

/-- The text of a closure: the expression that makes it. -/
def print (h : Heap) (c : Closure) : String :=
  "(lambda (" ++ " ".intercalate c.params ++
    (match c.rest with
    | some rest => " . " ++ rest
    | none => "") ++ ")" ++ Node.printTail h c.body ++ ")"

end Closure

namespace Entry

/-- The overload for a special form, which takes any arguments. -/
def ofSpecial (name : String) (form : SpecialForm) : Entry := ⟨name, [], some .any, .special form⟩

/-- The overload for a closure, which takes any values for its parameters. -/
def ofClosure (name : String) (c : Closure) : Entry :=
  ⟨name, c.params.map fun _ => .any, c.rest.map fun _ => .any, .closure c⟩

end Entry

/-- The set with a single overload. -/
def Overloads.single (e : Entry) : Overloads := ⟨e.name, [e]⟩

/-- The set with one more overload, under the same name as before. -/
def Overloads.extend (o : Overloads) (e : Entry) : Overloads := ⟨o.name, o.entries ++ [e]⟩

end DispatchLisp
