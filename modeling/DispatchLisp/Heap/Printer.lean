import DispatchLisp.Decimal.Numeral
import DispatchLisp.Heap

/-! # Printed values

The text of a value.  Strings are printed between double quotes with five characters escaped, so
that the reader gives them back; `display` prints a string as its bare text instead.  Lists are
printed in parentheses and tables in braces, keys and values in turn. -/

namespace DispatchLisp

/-- The characters that stand for one character inside a printed string. -/
def escapeChar (c : Char) : List Char :=
  match c with
  | '"' => ['\\', '"']
  | '\\' => ['\\', '\\']
  | '\n' => ['\\', 'n']
  | '\t' => ['\\', 't']
  | '\r' => ['\\', 'r']
  | c => [c]

/-- A string as it is printed. -/
def escaped (text : String) : String :=
  String.ofList ('"' :: text.toList.flatMap escapeChar ++ ['"'])

/-- Two lower-case hexadecimal digits. -/
def byteDigits (b : UInt8) : List Char :=
  [Nat.digitChar (b.toNat / 16), Nat.digitChar (b.toNat % 16)]

namespace Heap

/-- The text of a value down to a given depth of nesting. -/
def printWithin (h : Heap) : Nat → Value → String
  | 0, _ => ""
  | depth + 1, v =>
    match v with
    | .nil => "nil"
    | .bool true => "true"
    | .bool false => "false"
    | .int n => String.ofList (Numeral.ofInt n)
    | .real d => String.ofList (Numeral.ofDecimal d)
    | .byte b => String.ofList ('#' :: 'x' :: byteDigits b)
    | .str text => escaped text
    | .ident name => name
    | .list address => "(" ++ " ".intercalate ((h.items address).map (h.printWithin depth)) ++ ")"
    | .table address =>
      "\x7b" ++ " ".intercalate ((h.entries address).map fun (key, value) =>
        h.printWithin depth key ++ " " ++ h.printWithin depth value) ++ "\x7d"
    | .emptyStream => "empty-stream"
    | .function f => "<function " ++ f.name ++ ">"
    | .lock address => if (h.lockAt address).held then "<lock (held)>" else "<lock>"
    | .thread t => "<thread " ++ t.name ++ ">"

/-- The text of a value, as the reader would take it. -/
def print (h : Heap) (v : Value) : String := h.printWithin h.nesting v

/-- The text of a value for people: a string is its own text. -/
def display (h : Heap) : Value → String
  | .str text => text
  | v => h.print v

end Heap

end DispatchLisp
