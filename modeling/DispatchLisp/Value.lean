import DispatchLisp.Decimal
import DispatchLisp.Word

/-! # Values

What expressions evaluate to.  Lists, tables and locks can change after they are made and can be
reached from many places, so a value refers to them by their address in the heap.  Functions and
threads are referred to by a number, too, and carry the name they print with.  A value itself is
therefore flat data with a decidable identity; equality in the sense of the language needs the heap
and is defined with it.

`Kind` is a constraint on an argument: one kind for each sort of value, and the two wider kinds
`num` and `any`.  `Kind.score` says how well a value meets a constraint. -/

namespace DispatchLisp

/-- A function value: its number in the function store, and its name. -/
structure FunctionRef where
  id : Nat
  name : String
deriving DecidableEq, Repr, Inhabited

/-- A thread value: its number in the order of creation, and its name. -/
structure ThreadRef where
  id : Nat
  name : String
deriving DecidableEq, Repr, Inhabited

/-- A value of the language. -/
inductive Value where
  | nil
  | bool (b : Bool)
  | int (n : Int)
  | real (d : Decimal)
  | byte (b : UInt8)
  | str (text : String)
  | ident (name : String)
  | list (address : Nat)
  | table (address : Nat)
  | emptyStream
  | function (f : FunctionRef)
  | lock (address : Nat)
  | thread (t : ThreadRef)
deriving DecidableEq, Repr, Inhabited

/-- A constraint on an argument. -/
inductive Kind where
  | nil | bool | int | real | byte | str | ident | list | table | emptyStream | function | lock
  | thread
  /-- Integers and reals. -/
  | num
  | any
deriving DecidableEq, Repr, Inhabited

namespace Kind

/-- The name a kind has in the language. -/
def name : Kind → String
  | nil => "nil"
  | bool => "bool"
  | int => "int"
  | real => "real"
  | byte => "byte"
  | str => "string"
  | ident => "id"
  | list => "list"
  | table => "table"
  | emptyStream => "empty-stream"
  | function => "function"
  | lock => "lock"
  | thread => "thread"
  | num => "num"
  | any => "any"

/-- Every kind, the kinds of values first. -/
def all : List Kind :=
  [nil, bool, int, real, byte, str, ident, list, table, emptyStream, function, lock, thread, num,
    any]

end Kind

namespace Value

/-- The kind of a value, which is never `num` or `any`. -/
def kind : Value → Kind
  | nil => .nil
  | bool _ => .bool
  | int _ => .int
  | real _ => .real
  | byte _ => .byte
  | str _ => .str
  | ident _ => .ident
  | list _ => .list
  | table _ => .table
  | emptyStream => .emptyStream
  | function _ => .function
  | lock _ => .lock
  | thread _ => .thread

/-- The name of a value's kind. -/
def kindName (v : Value) : String := v.kind.name

/-- The numeric value of an integer or a real. -/
def toDecimal? : Value → Option Decimal
  | int n => some (.ofInt n)
  | real d => some d
  | _ => none

/-- The integer of a value, if it fits a signed word of 64 bits. -/
def toWord? : Value → Option Int
  | int n => if Word.fitsSigned 64 n then some n else none
  | _ => none

/-- The integer of a value, if it is not negative and fits a signed word of 64 bits. -/
def toCount? (v : Value) : Option Nat :=
  v.toWord?.bind fun n => if 0 ≤ n then some n.toNat else none

end Value

/-- How well a value meets a constraint: exactly 3, as a number 2, as anything 1. -/
def Kind.score (k : Kind) (v : Value) : Option Nat :=
  match k, v.kind with
  | .any, _ => some 1
  | .num, .int => some 2
  | .num, .real => some 2
  | k, actual => if k = actual then some 3 else none

end DispatchLisp
