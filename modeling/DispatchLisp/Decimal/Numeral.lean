import DispatchLisp.Decimal
import DispatchLisp.Text.Blank
import DispatchLisp.Word

/-! # Numerals

How numbers are written and read.

An integer is written in decimal with a leading minus sign if it is negative.  A decimal is written
in plain notation with at least one digit on each side of the point and no other trailing zero, so
that each number has exactly one text.

Reading is more liberal.  An integer may start with one sign and may contain underscores after its
first digit.  A decimal is an integer with one point anywhere in it, which may be followed by `e` or
`E` and a signed exponent. -/

namespace DispatchLisp.Numeral

/-! ### Writing -/

/-- A minus sign for a negative number. -/
def sign (n : Int) : List Char := if n < 0 then ['-'] else []

/-- The text of an integer. -/
def ofInt (n : Int) : List Char := sign n ++ Digits.ofNat n.natAbs

/-- The digits without the zeros at the end. -/
def trimZeros (digits : List Char) : List Char := (digits.reverse.dropWhile (· == '0')).reverse

/-- The digits before and after the point for a coefficient and a scale. -/
def split (coefficient : Nat) (scale : Int) : List Char × List Char :=
  let digits := Digits.ofNat coefficient
  if scale ≤ 0 then (digits ++ List.replicate (-scale).toNat '0', [])
  else
    let places := scale.toNat
    let padded := List.replicate (places + 1 - digits.length) '0' ++ digits
    (padded.take (padded.length - places), trimZeros (padded.drop (padded.length - places)))

/-- The text of a decimal: plain notation, always with a fractional part. -/
def ofDecimal (d : Decimal) : List Char :=
  let (whole, fraction) := split d.coefficient.natAbs d.scale
  sign d.coefficient ++ (if whole.all (· == '0') then ['0'] else whole) ++
    '.' :: (if fraction.isEmpty then ['0'] else fraction)

/-! ### Reading -/

/-- Reads digits in which underscores may separate groups, but not open the first one. -/
def toNat? (cs : List Char) : Option Nat :=
  if cs.isEmpty || cs.head? == some '_' || !cs.all (fun c => c.isDigit || c == '_') then none
  else some (Digits.toNat (cs.filter Char.isDigit))

/-- Reads an integer: at most one sign, then digits. -/
def toInt? : List Char → Option Int
  | '-' :: cs => (toNat? cs).map fun n => -(n : Int)
  | '+' :: cs => (toNat? cs).map Int.ofNat
  | cs => (toNat? cs).map Int.ofNat

/-- Reads an exponent: at most one sign, then digits only.  It must fit 128 bits. -/
def toExponent? (cs : List Char) : Option Int :=
  let digits := match cs with
    | '-' :: ds => ds
    | '+' :: ds => ds
    | ds => ds
  if digits.isEmpty || !digits.all Char.isDigit then none
  else
    let n : Int := Digits.toNat digits
    let n := if cs.head? == some '-' then -n else n
    if Word.fitsSigned 128 n then some n else none

/-- The digits of a number around its first point, and the number of places after it. -/
def dropPoint (cs : List Char) : List Char × Nat :=
  let before := cs.takeWhile (· != '.')
  let after := (cs.dropWhile (· != '.')).drop 1
  (before ++ after, (after.filter (· != '_')).length)

/-- Reads a decimal.  The scale it needs must fit 64 bits. -/
def toDecimal? (cs : List Char) : Option Decimal :=
  let isMark := fun c : Char => c == 'e' || c == 'E'
  let base := cs.takeWhile fun c => !isMark c
  let exponent? := match cs.dropWhile fun c => !isMark c with
    | [] => some 0
    | _ :: ds => toExponent? ds
  match exponent? with
  | none => none
  | some exponent =>
    if base.isEmpty then none
    else
      let (digits, places) := dropPoint base
      let scale : Int := places - exponent
      if Word.fitsSigned 64 scale then (toInt? digits).map fun n => ⟨n, scale⟩ else none

end DispatchLisp.Numeral
