/-! # Words

Integers of the language are unbounded, but indices, counts, exponents and limits must fit a word of
a fixed number of bits.  The scale of a decimal is such a word too, and it wraps around. -/

namespace DispatchLisp.Word

/-- The number fits an unsigned word of the given number of bits. -/
def fitsUnsigned (bits n : Nat) : Bool := decide (n < Nat.pow 2 bits)

/-- The number fits a signed word of the given number of bits. -/
def fitsSigned (bits : Nat) (n : Int) : Bool :=
  decide (-(Nat.pow 2 (bits - 1) : Nat) ≤ n) && decide (n < (Nat.pow 2 (bits - 1) : Nat))

/-- What is left of the number in a signed word of the given number of bits. -/
def wrapSigned (bits : Nat) (n : Int) : Int := n.bmod (Nat.pow 2 bits)

end DispatchLisp.Word
