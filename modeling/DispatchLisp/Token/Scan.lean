import DispatchLisp.Decimal.Numeral
import DispatchLisp.Text.Alphabetic
import DispatchLisp.Token

/-! # Scanning

A source text is a sequence of lexemes and gaps.  `lexeme` looks at the character at which the next
lexeme or gap starts and at the text that follows it, and says what stands there and how many
characters it takes beyond the first.  `scanFrom` walks over the text once, one character at a time,
and skips the characters that a lexeme has taken.

The line and the column are kept on the way, for each sort of lexeme in its own manner
(`placeAfter`).  A string counts its lines itself.  A comment leaves the column behind, since a line
break or the end of the text follows it.  All others stay on their line and move the column by their
length.

The classes of characters that start and continue a symbol are `isSymbolStart` and
`isSymbolChar`. -/

namespace DispatchLisp.Token

/-! ### Character classes -/

/-- The character can start a symbol. -/
def isSymbolStart (c : Char) : Bool :=
  Text.isAlphabetic c || "+-*/!?<>=_&%^~.".toList.contains c

/-- The character can continue a symbol. -/
def isSymbolChar (c : Char) : Bool := isSymbolStart c || c.isDigit

/-- The character is a hexadecimal digit. -/
def isHexDigit (c : Char) : Bool :=
  c.isDigit || ('a' ≤ c && c ≤ 'f') || ('A' ≤ c && c ≤ 'F')

/-- The value of a hexadecimal digit. -/
def hexValue (c : Char) : Nat :=
  if c.isDigit then c.toNat - '0'.toNat
  else if 'a' ≤ c then c.toNat - 'a'.toNat + 10
  else c.toNat - 'A'.toNat + 10

/-! ### Lexemes -/

/-- The character that an escape in a string stands for. -/
def unescape? : Char → Option Char
  | 'n' => some '\n'
  | 't' => some '\t'
  | 'r' => some '\r'
  | '\\' => some '\\'
  | '"' => some '"'
  | '0' => some '\x00'
  | _ => none

/-- The characters of a string after its opening quote, and the number of characters it takes with
the closing quote. -/
def stringBody : List Char → Except ReadFault (List Char × Nat)
  | [] => .error .unterminatedString
  | '"' :: _ => .ok ([], 1)
  | '\\' :: c :: rest =>
    match unescape? c with
    | none => .error (.unknownEscape c)
    | some plain => (stringBody rest).map fun (cs, n) => (plain :: cs, n + 2)
  | c :: rest => (stringBody rest).map fun (cs, n) => (c :: cs, n + 1)

/-- A lexeme that starts with a hash sign: a truth value or a byte. -/
def hashLexeme : List Char → Except ReadFault (Value × Nat)
  | 't' :: _ => .ok (.bool true, 1)
  | 'f' :: _ => .ok (.bool false, 1)
  | 'x' :: rest =>
    let digits := rest.takeWhile isHexDigit
    let value := digits.foldl (fun n c => n * 16 + hexValue c) 0
    if digits.isEmpty || 256 ≤ value then .error (.badByte (String.ofList digits))
    else .ok (.byte (UInt8.ofNat value), 1 + digits.length)
  | c :: _ => .error (.unexpectedAfterHash c)
  | [] => .error .endAfterHash

/-- The digits of a number from its first one on, and whether they include a point.  A point counts
only if a digit follows it. -/
def numberBody (cs : List Char) : List Char × Bool :=
  let whole := cs.takeWhile Char.isDigit
  match cs.dropWhile Char.isDigit with
  | '.' :: d :: rest =>
    if d.isDigit then (whole ++ '.' :: d :: rest.takeWhile Char.isDigit, true) else (whole, false)
  | _ => (whole, false)

/-- A lexeme that is a number: `first` is its first character, a sign or a digit. -/
def numberLexeme (first : Char) (rest : List Char) : Except ReadFault (Value × Nat) :=
  let signed := first == '-' || first == '+'
  let (body, isReal) := numberBody (if signed then rest else first :: rest)
  let length := if signed then body.length else body.length - 1
  let text := if signed then first :: body else body
  let digits := if first == '+' then body else text
  let value := if isReal then
      match Numeral.toDecimal? digits with
      | some d => .ok (.real d, length)
      | none => .error (.badDecimal (String.ofList text))
    else
      match Numeral.toInt? digits with
      | some n => .ok (.int n, length)
      | none => .error (.badInteger (String.ofList text))
  match rest.drop length with
  | c :: _ =>
    if isSymbolChar c && c != '.' then .error (.badNumber (String.ofList (text ++ [c]))) else value
  | [] => value

/-- The value that a symbol's text stands for: three names are constants, all others are
identifiers. -/
def ofSymbol (name : List Char) : Value :=
  if name = "true".toList then .bool true
  else if name = "false".toList then .bool false
  else if name = "nil".toList then .nil
  else .ident (String.ofList name)

/-- A number starts here: with a digit, or with a sign before a digit. -/
def startsNumber (first : Char) (rest : List Char) : Bool :=
  first.isDigit || ((first == '-' || first == '+') && (rest.head?.any Char.isDigit))

/-- What starts at the character `first`, which `rest` follows: a token, or nothing for a gap; and
the number of characters of `rest` that belong to it. -/
def lexeme (first : Char) (rest : List Char) : Except ReadFault (Option Token × Nat) :=
  match first with
  | ' ' | '\t' | '\r' | '\n' => .ok (none, 0)
  | ';' => .ok (none, (rest.takeWhile (· != '\n')).length)
  | '(' => .ok (some .opening, 0)
  | ')' => .ok (some .closing, 0)
  | '\'' => .ok (some .quote, 0)
  | '"' => (stringBody rest).map fun (cs, n) => (some (.atom (.str (String.ofList cs))), n)
  | '#' => (hashLexeme rest).map fun (v, n) => (some (.atom v), n)
  | c =>
    if startsNumber c rest then (numberLexeme c rest).map fun (v, n) => (some (.atom v), n)
    else if isSymbolStart c then
      let tail := rest.takeWhile isSymbolChar
      .ok (some (.atom (ofSymbol (c :: tail))), tail.length)
    else .error (.unexpectedCharacter c)

/-! ### Texts -/

/-- The position after the closing quote of a string, if its first character is at `place`.  A line
break leads to the column before the first, from which every character moves on. -/
def stringEnd : List Char → Position → Position
  | [], place => place
  | '"' :: _, place => place.right 1
  | '\\' :: _ :: rest, place => stringEnd rest ((place.right 1).right 1)
  | '\n' :: rest, place => stringEnd rest (Position.right ⟨place.line + 1, 0⟩ 1)
  | _ :: rest, place => stringEnd rest (place.right 1)

/-- The position that is kept after what starts at the character `first`, at `place`, and takes `n`
characters of `rest`. -/
def placeAfter (first : Char) (rest : List Char) (n : Nat) (place : Position) : Position :=
  match first with
  | ' ' | '\t' | '\r' => place.right 1
  | '\n' => ⟨place.line + 1, 1⟩
  | ';' => place
  | '(' | ')' | '\'' => place.right 1
  | '"' => stringEnd rest (place.right 1)
  | _ => place.right (n + 1)

/-- The tokens of a text of which the first `skip` characters are already taken; `place` is the
position that is kept for the character after them. -/
def scanFrom : List Char → Nat → Position → Except Cause (List Placed)
  | [], _, _ => .ok []
  | _ :: cs, skip + 1, place => scanFrom cs skip place
  | c :: cs, 0, place =>
    match lexeme c cs with
    | .error fault => .error (.read fault place)
    | .ok (none, n) => scanFrom cs n (placeAfter c cs n place)
    | .ok (some token, n) =>
      (scanFrom cs n (placeAfter c cs n place)).map fun tokens => ⟨token, place⟩ :: tokens

/-- The tokens of a text. -/
def scan (text : String) : Except Cause (List Placed) := scanFrom text.toList 0 .start

end DispatchLisp.Token
