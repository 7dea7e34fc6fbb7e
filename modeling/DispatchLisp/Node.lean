import DispatchLisp.Heap.Printer

/-! # Expression trees

A node is an atom, which is a value, or a form: a head value with children.  The empty form is the
form with head `nil` and no children; it is not the atom `nil`, and it is printed `()`.

`substitute` replaces names by subtrees in one pass. -/

namespace DispatchLisp

/-- An expression tree. -/
inductive Node where
  | atom (value : Value)
  | form (head : Value) (children : List Node)
deriving Repr, Inhabited

namespace Node

/-- The value of an atom, or the head of a form. -/
def head : Node → Value
  | atom v => v
  | form v _ => v

/-- The children of a form; an atom has none. -/
def children : Node → List Node
  | atom _ => []
  | form _ kids => kids

/-- The node is an atom. -/
def isAtom : Node → Bool
  | atom _ => true
  | form .. => false

/-- The node is an atom and not an identifier. -/
def isResolved : Node → Bool
  | atom (.ident _) => false
  | atom _ => true
  | form .. => false

/-- The node is the empty form. -/
def isEmptyForm : Node → Bool
  | form .nil [] => true
  | _ => false

/-- The same node with another value or head. -/
def setHead (v : Value) : Node → Node
  | atom _ => atom v
  | form _ kids => form v kids

/-- The same form with another node in the place of a child, if there is such a child. -/
def setChild? (i : Nat) (child : Node) : Node → Option Node
  | atom _ => none
  | form v kids => if i < kids.length then some (form v (kids.set i child)) else none

/-! ### Substitution -/

/-- What a node is replaced by: the first binding of the identifier that it is headed by. -/
def replacement? (bindings : List (String × Node)) : Value → Option Node
  | .ident name => bindings.lookup name
  | _ => none

mutual

/-- Replaces every node headed by a bound identifier, with its children, by the bound subtree.
Inserted subtrees are not searched again. -/
def substitute (bindings : List (String × Node)) : Node → Node
  | atom v => (replacement? bindings v).getD (atom v)
  | form v kids => (replacement? bindings v).getD (form v (substituteAll bindings kids))

/-- `substitute` on each node of a list. -/
def substituteAll (bindings : List (String × Node)) : List Node → List Node
  | [] => []
  | n :: ns => substitute bindings n :: substituteAll bindings ns

end

/-! ### Printing -/

mutual

/-- The text of a node. -/
def print (h : Heap) : Node → String
  | atom v => h.print v
  | form .nil [] => "()"
  | form v kids => "(" ++ h.print v ++ printTail h kids ++ ")"

/-- The text of the children, each after a space. -/
def printTail (h : Heap) : List Node → String
  | [] => ""
  | n :: ns => " " ++ print h n ++ printTail h ns

end

end Node

end DispatchLisp
