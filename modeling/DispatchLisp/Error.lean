/-! # Errors

What can go wrong, as data.  A `Cause` is what happened; `Cause.message` is the one place where the
wording of all messages is fixed.  An `Error` is a cause that may be wrapped: with a hint for the
user, and with the trace of the calls that were running.

Wrapping keeps two rules.  The last hint attached wins, the first non-empty trace attached wins; and
a trace goes under a hint. -/

namespace DispatchLisp

/-- A place in a source text; lines and columns count from one. -/
structure Position where
  line : Nat
  column : Nat
deriving DecidableEq, Repr, Inhabited

/-- What is wrong with a source text. -/
inductive ReadFault where
  | unknownEscape (c : Char)
  | unterminatedString
  | badByte (digits : String)
  | unexpectedAfterHash (c : Char)
  | endAfterHash
  | badNumber (text : String)
  | badInteger (text : String)
  | badDecimal (text : String)
  | unexpectedCharacter (c : Char)
  | unexpectedEnd
  | unexpectedClose
  | unterminatedList
  | inputAfterExpression
  /-- Any other fault, in the reporter's own words. -/
  | other (text : String)
deriving DecidableEq, Repr, Inhabited

/-- What is wrong with an evaluation. -/
inductive EvalFault where
  | depthExceeded (limit : Nat)
  | expectedName (form node : String)
  | parameterNotName (form node : String)
  | noRestParameter (form : String)
  | badBindings (form node : String)
  | emptyFunctionBinding (form : String)
  | divisionByZero (operation : String)
  | notAnInteger (text : String)
  | notANumber (text : String)
  | notComparable (operation left right : String)
  | emptyList (operation : String)
  | indexOutOfRange (operation index : String) (length : Nat)
  | oddEntries
  | emptyStream (operation : String)
  | notACell (operation : String) (length : Nat)
  | badIndex (operation index : String)
  | badCount (operation count : String)
  | badDuration (operation duration : String)
  | lockNotHeld
  | alreadyJoined (thread : String)
  | nothingToRun
  /-- Any other fault, in the reporter's own words. -/
  | other (text : String)
deriving DecidableEq, Repr, Inhabited

/-- What went wrong. -/
inductive Cause where
  | read (fault : ReadFault) (place : Position)
  | eval (fault : EvalFault)
  | kind (expected actual : String)
  | arity (name expected : String) (actual : Nat)
  | unbound (name : String)
  | noOverload (name kinds : String)
  | ambiguous (name kinds : String)
  | notCallable (what : String)
  | io (text : String)
deriving DecidableEq, Repr, Inhabited

/-- A cause, possibly wrapped with hints and traces.  A trace lists names of calls, innermost
first. -/
inductive Error where
  | base (cause : Cause)
  | traced (inner : Error) (trace : List String)
  | hinted (inner : Error) (hint : String)
deriving DecidableEq, Repr, Inhabited

/-! ### Messages -/

/-- The place as line and column. -/
def Position.text (p : Position) : String :=
  toString p.line ++ ":" ++ toString p.column

/-- The wording of a fault in a source text. -/
def ReadFault.message : ReadFault → String
  | unknownEscape c => "unknown string escape '\\" ++ c.toString ++ "'"
  | unterminatedString => "unterminated string"
  | badByte digits => "invalid byte literal: #x" ++ digits
  | unexpectedAfterHash c => "unexpected character after #: '" ++ c.toString ++ "'"
  | endAfterHash => "unexpected end of input after #"
  | badNumber text => "invalid number: " ++ text
  | badInteger text => "invalid integer: " ++ text
  | badDecimal text => "invalid decimal: " ++ text
  | unexpectedCharacter c => "unexpected character: '" ++ c.toString ++ "'"
  | unexpectedEnd => "unexpected end of input"
  | unexpectedClose => "unexpected ')'"
  | unterminatedList => "unterminated list"
  | inputAfterExpression => "unexpected input after expression"
  | other text => text

/-- The wording of a fault in an evaluation. -/
def EvalFault.message : EvalFault → String
  | depthExceeded limit => "maximum evaluation depth (" ++ toString limit ++ ") exceeded"
  | expectedName form node => form ++ ": expected a name, got " ++ node
  | parameterNotName form node => form ++ ": parameter must be a name, got " ++ node
  | noRestParameter form => form ++ ": needs at least one parameter to collect the rest"
  | badBindings form node =>
    form ++ ": bindings must be a list of (name value) forms, got " ++ node
  | emptyFunctionBinding form => form ++ ": empty function binding"
  | divisionByZero operation => operation ++ ": division by zero"
  | notAnInteger text => "->int: cannot parse " ++ text ++ " as an integer"
  | notANumber text => "->real: cannot parse " ++ text ++ " as a number"
  | notComparable operation left right =>
    operation ++ ": cannot compare " ++ left ++ " with " ++ right
  | emptyList operation => operation ++ ": empty list"
  | indexOutOfRange operation index length =>
    operation ++ ": index " ++ index ++ " out of range for length " ++ toString length
  | oddEntries => "table: expects an even number of arguments (key value ...)"
  | emptyStream operation => operation ++ ": empty stream"
  | notACell operation length =>
    operation ++ ": expected a stream cell (head promise), got a list of " ++ toString length
  | badIndex operation index => operation ++ ": bad index " ++ index
  | badCount operation count => operation ++ ": bad count " ++ count
  | badDuration operation duration => operation ++ ": bad duration " ++ duration
  | lockNotHeld => "unlock: lock is not held"
  | alreadyJoined thread => "thread " ++ thread ++ " was already joined"
  | nothingToRun => "nothing to run: pass a file or --eval <expr>"
  | other text => text

/-- The wording of a cause. -/
def Cause.message : Cause → String
  | read fault place => "Reader error at " ++ place.text ++ ": " ++ fault.message
  | eval fault => "Eval error: " ++ fault.message
  | kind expected actual => "Type error: expected " ++ expected ++ ", got " ++ actual
  | arity name expected actual =>
    "Arity error: " ++ name ++ " expects " ++ expected ++ " args, got " ++ toString actual
  | unbound name => "Unbound name: " ++ name
  | noOverload name kinds =>
    "No matching overload: " ++ name ++ " cannot be called with (" ++ kinds ++ ")"
  | ambiguous name kinds =>
    "Ambiguous call: " ++ name ++ " has several equally good overloads for (" ++ kinds ++ ")"
  | notCallable what => "Not callable: " ++ what
  | io text => "IO error: " ++ text

namespace Error

/-! ### Wrapping -/

/-- Attaches a hint, which replaces the outermost one. -/
def withHint (hint : String) : Error → Error
  | hinted inner _ => hinted inner hint
  | e => hinted e hint

/-- Attaches a trace under any hints, unless it is empty or there is one already. -/
def withTrace (trace : List String) : Error → Error
  | traced inner old => traced inner old
  | hinted inner hint => hinted (withTrace trace inner) hint
  | base cause => if trace.isEmpty then base cause else traced (base cause) trace

/-! ### Reading a wrapped error -/

/-- What happened. -/
def cause : Error → Cause
  | base c => c
  | traced inner _ => inner.cause
  | hinted inner _ => inner.cause

/-- The hint, if there is one. -/
def hint? : Error → Option String
  | base _ => none
  | traced inner _ => inner.hint?
  | hinted _ hint => some hint

/-- The trace, if there is one. -/
def trace? : Error → Option (List String)
  | base _ => none
  | traced _ trace => some trace
  | hinted inner _ => inner.trace?

/-- The wording of an error is that of its cause. -/
def message (e : Error) : String := e.cause.message

/-- The text of a trace: a line for each call, innermost first. -/
def traceText (trace : List String) : String :=
  String.join (trace.map fun name => "  at " ++ name ++ "\n")

end Error

end DispatchLisp
