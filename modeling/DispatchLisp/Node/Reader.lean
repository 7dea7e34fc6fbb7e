import DispatchLisp.Node
import DispatchLisp.Token.Scan

/-! # Reading

From tokens to expression trees.  The reader goes through the tokens once and keeps a stack of what
is still open: lists that wait for more items, and quote marks that wait for their expression.

A list becomes a form.  Its first item is the head if it is an atom; a list whose first item is a
form itself is a call of that form's value, so it is headed by `apply` and keeps all its items as
children.  A quote mark before an expression is the form headed by `quote`.

`readAll` reads every expression of a text; `readOne` wants exactly one. -/

namespace DispatchLisp.Node

/-! ### Open expressions -/

/-- An expression that has begun and is not yet complete.  The items of a list are kept in reverse
order. -/
inductive Open where
  | list (place : Position) (items : List Node)
  | quote (place : Position)
deriving Inhabited

/-- The form for a list of items. -/
def ofItems : List Node → Node
  | [] => form .nil []
  | atom v :: rest => form v rest
  | first :: rest => form (.ident "apply") (first :: rest)

/-- The form for a quoted expression. -/
def ofQuoted (inner : Node) : Node := form (.ident "quote") [inner]

/-- Hands a complete expression to the innermost open one: what is open afterwards, and the
expression if nothing was open around it. -/
def complete (n : Node) : List Open → List Open × Option Node
  | [] => ([], some n)
  | .quote _ :: stack => complete (ofQuoted n) stack
  | .list place items :: stack => (.list place (n :: items) :: stack, none)

/-- Takes one token: what is open afterwards, and the expression that is complete with it. -/
def feed (t : Placed) (stack : List Open) : Except Cause (List Open × Option Node) :=
  match t.token with
  | .opening => .ok (.list t.place [] :: stack, none)
  | .quote => .ok (.quote t.place :: stack, none)
  | .closing =>
    match stack with
    | .list _ items :: outer => .ok (complete (ofItems items.reverse) outer)
    | _ => .error (.read .unexpectedClose t.place)
  | .atom v => .ok (complete (atom v) stack)

/-- What is wrong if the text ends here, unless nothing is open. -/
def endFault? : List Open → Option Cause
  | [] => none
  | .quote place :: _ => some (.read .unexpectedEnd place)
  | .list place _ :: _ => some (.read .unterminatedList place)

/-! ### Whole texts -/

/-- The expressions that the tokens complete. -/
def ofTokens : List Placed → List Open → Except Cause (List Node)
  | [], stack =>
    match endFault? stack with
    | none => .ok []
    | some fault => .error fault
  | t :: ts, stack =>
    match feed t stack with
    | .error fault => .error fault
    | .ok (stack, none) => ofTokens ts stack
    | .ok (stack, some n) => (ofTokens ts stack).map (n :: ·)

/-- The one expression that the tokens complete, with no token left over. -/
def ofTokensOne : List Placed → List Open → Except Cause Node
  | [], stack => .error ((endFault? stack).getD (.read .unexpectedEnd ⟨0, 0⟩))
  | t :: ts, stack =>
    match feed t stack with
    | .error fault => .error fault
    | .ok (stack, none) => ofTokensOne ts stack
    | .ok (_, some n) =>
      match ts with
      | [] => .ok n
      | next :: _ => .error (.read .inputAfterExpression next.place)

/-- Every expression of a text. -/
def readAll (text : String) : Except Cause (List Node) :=
  (Token.scan text).bind fun tokens => ofTokens tokens []

/-- The one expression of a text. -/
def readOne (text : String) : Except Cause Node :=
  (Token.scan text).bind fun tokens => ofTokensOne tokens []

end DispatchLisp.Node
