import DispatchLisp.Prelude.Declaration

/-! # Comparison and truth values

`=` and `/=` compare any two values.  The four orders compare numbers and take two or more: a chain
holds if every adjacent pair does. -/

namespace DispatchLisp.Prelude

/-- `(= a b)` -/
def equal : List Value → HeapM Value
  | [a, b] => HeapM.reads fun h => .bool (h.equal a b)
  | args => refuse args

/-- `(/= a b)` -/
def different : List Value → HeapM Value
  | [a, b] => HeapM.reads fun h => .bool (!h.equal a b)
  | args => refuse args

/-- The order of two numbers. -/
def compareValues (a b : Value) : Option Ordering :=
  match a, b with
  | .int x, .int y => some (compare x y)
  | a, b => do return Decimal.compare (← a.toDecimal?) (← b.toDecimal?)

/-- Every adjacent pair is in an order that is wanted.  Nothing is compared after the first pair
that is not. -/
def chainHolds (operation : String) (wanted : Ordering → Bool) : List Value → Except Cause Bool
  | a :: b :: rest =>
    match compareValues a b with
    | some o => if wanted o then chainHolds operation wanted (b :: rest) else .ok false
    | none => .error (.eval (.notComparable operation a.kindName b.kindName))
  | _ => .ok true

/-- A comparison of numbers. -/
def chain (operation : String) (wanted : Ordering → Bool) (args : List Value) : HeapM Value :=
  match chainHolds operation wanted args with
  | .ok b => pure (.bool b)
  | .error c => HeapM.fail c

/-- `(and a b ...)` -/
def conjunction (args : List Value) : HeapM Value := pure (.bool (args.all (· == .bool true)))

/-- `(or a b ...)` -/
def disjunction (args : List Value) : HeapM Value := pure (.bool (args.any (· == .bool true)))

/-- `(not a)` -/
def negation : List Value → HeapM Value
  | [a] => pure (.bool (a != .bool true))
  | args => refuse args

/-- The comparison functions. -/
def comparison : List Entry := [
  fixed "=" [.any, .any] equal,
  fixed "/=" [.any, .any] different,
  variadic "<" [.num, .num] .num (chain "<" (· == .lt)),
  variadic ">" [.num, .num] .num (chain ">" (· == .gt)),
  variadic "<=" [.num, .num] .num (chain "<=" (· != .gt)),
  variadic ">=" [.num, .num] .num (chain ">=" (· != .lt)),
  variadic "and" [.bool, .bool] .bool conjunction,
  variadic "or" [.bool, .bool] .bool disjunction,
  fixed "not" [.bool] negation]

end DispatchLisp.Prelude
