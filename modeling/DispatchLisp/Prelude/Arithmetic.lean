import DispatchLisp.Decimal.Quotient
import DispatchLisp.Prelude.Declaration
import DispatchLisp.Text.Quoted

/-! # Arithmetic

The operators `+`, `-` and `*` have two overloads each: one for integers only, which stays with
integers, and one for any numbers, which gives a real.  All-integer calls score higher on the first.
Division always gives a real. -/

namespace DispatchLisp.Prelude

/-- The integers that the values are, if all of them are. -/
def ints? (args : List Value) : Option (List Int) :=
  args.mapM fun
    | .int n => some n
    | _ => none

/-- The numbers that the values are, if all of them are. -/
def decimals? (args : List Value) : Option (List Decimal) := args.mapM Value.toDecimal?

/-- An operation on integers. -/
def onInts (f : List Int → Option Int) (args : List Value) : HeapM Value :=
  match (ints? args).bind f with
  | some n => pure (.int n)
  | none => refuse args

/-- An operation on numbers that gives a real. -/
def onDecimals (f : List Decimal → Option Decimal) (args : List Value) : HeapM Value :=
  match (decimals? args).bind f with
  | some d => pure (.real d)
  | none => refuse args

/-! ### Sums, differences and products -/

/-- The sum of integers. -/
def sumInts (ns : List Int) : Option Int := some (ns.foldl (· + ·) 0)

/-- The sum of decimals. -/
def sumDecimals (ds : List Decimal) : Option Decimal := some (ds.foldl Decimal.add (.ofInt 0))

/-- The first integer less the others, or its negation if it is the only one. -/
def differenceInts : List Int → Option Int
  | [] => none
  | [n] => some (-n)
  | n :: ns => some (ns.foldl (· - ·) n)

/-- The first decimal less the others, or its negation if it is the only one. -/
def differenceDecimals : List Decimal → Option Decimal
  | [] => none
  | [d] => some d.neg
  | d :: ds => some (ds.foldl Decimal.sub d)

/-- The product of integers. -/
def productInts (ns : List Int) : Option Int := some (ns.foldl (· * ·) 1)

/-- The product of decimals. -/
def productDecimals (ds : List Decimal) : Option Decimal := some (ds.foldl Decimal.mul (.ofInt 1))

/-! ### Division -/

/-- Divides a number by others in turn; no number is divided by zero. -/
def divideAll : Decimal → List Decimal → Option Decimal
  | d, [] => some d
  | d, e :: es => if e.isZero then none else divideAll (d.divide e) es

/-- `(/ a b ...)` -/
def divide (args : List Value) : HeapM Value :=
  match decimals? args with
  | some (d :: ds) =>
    match divideAll d ds with
    | some q => pure (.real q.normalize)
    | none => HeapM.fail (.eval (.divisionByZero "/"))
  | _ => refuse args

/-- `(mod a b)`: the remainder has the sign of the divisor. -/
def modulo : List Value → HeapM Value
  | [.int a, .int b] =>
    if b = 0 then HeapM.fail (.eval (.divisionByZero "mod")) else pure (.int (a.fmod b))
  | args => refuse args

/-- `(abs n)` -/
def absolute : List Value → HeapM Value
  | [.int n] => pure (.int n.natAbs)
  | [.real d] => pure (.real d.abs)
  | args => refuse args

/-! ### Conversions -/

/-- `(->string v)` -/
def toText : List Value → HeapM Value
  | [v] => HeapM.reads fun h => .str (h.display v)
  | args => refuse args

/-- `(->int v)`: a real loses its fraction, a string is read. -/
def toInt : List Value → HeapM Value
  | [.int n] => pure (.int n)
  | [.real d] => pure (.int d.truncate)
  | [.str text] =>
    match Numeral.toInt? (Text.trimBlank text.toList) with
    | some n => pure (.int n)
    | none => HeapM.fail (.eval (.notAnInteger (Text.quoted text)))
  | args => refuse args

/-- `(->real v)` -/
def toReal : List Value → HeapM Value
  | [.int n] => pure (.real (.ofInt n))
  | [.real d] => pure (.real d)
  | [.str text] =>
    match Numeral.toDecimal? (Text.trimBlank text.toList) with
    | some d => pure (.real d)
    | none => HeapM.fail (.eval (.notANumber (Text.quoted text)))
  | args => refuse args

/-- The arithmetic functions. -/
def arithmetic : List Entry := [
  variadic "+" [.int] .int (onInts sumInts),
  variadic "+" [.num] .num (onDecimals sumDecimals),
  variadic "-" [.int] .int (onInts differenceInts),
  variadic "-" [.num] .num (onDecimals differenceDecimals),
  variadic "*" [.int] .int (onInts productInts),
  variadic "*" [.num] .num (onDecimals productDecimals),
  variadic "/" [.num, .num] .num divide,
  fixed "mod" [.int, .int] modulo,
  fixed "abs" [.int] absolute,
  fixed "abs" [.real] absolute,
  fixed "->string" [.any] toText,
  fixed "->int" [.int] toInt,
  fixed "->int" [.real] toInt,
  fixed "->int" [.str] toInt,
  fixed "->real" [.num] toReal,
  fixed "->real" [.str] toReal]

end DispatchLisp.Prelude
