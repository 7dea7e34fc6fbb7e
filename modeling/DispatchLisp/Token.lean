import DispatchLisp.Error
import DispatchLisp.Value

/-! # Tokens

The words of a source text: parentheses, the quote mark and atoms.  Each token is placed: it comes
with the position of its first character. -/

namespace DispatchLisp

/-- A word of a source text.  An atom is an expression by itself; its value is a number, a byte, a
string, a truth value, `nil` or an identifier. -/
inductive Token where
  | opening
  | closing
  | quote
  | atom (value : Value)
deriving DecidableEq, Repr, Inhabited

/-- A token and the position of its first character. -/
structure Placed where
  token : Token
  place : Position
deriving DecidableEq, Repr, Inhabited

/-- The position of the first character of a text. -/
def Position.start : Position := ⟨1, 1⟩

/-- The position `n` columns to the right. -/
def Position.right (p : Position) (n : Nat) : Position := ⟨p.line, p.column + n⟩

end DispatchLisp
