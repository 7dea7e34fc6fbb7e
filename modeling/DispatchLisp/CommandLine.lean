import DispatchLisp.Session

/-! # The command line

`parse` reads the arguments: a file, `-e` or `--eval` with an expression, `--max-depth` with a
number, `--no-stdlib` and `--verbose`, which changes nothing that is reported.  Each option may be
given once; a value follows its option or is joined to it by an equals sign.  A value that starts
with a minus sign is refused, since it would be an option.  Without `--max-depth` the limit may come
from the environment.

`run` evaluates the file and then the expression, and prints the value of the expression unless it
is `nil`. -/

namespace DispatchLisp.CommandLine

/-- What the command is asked to do. -/
structure Options where
  file : Option String := none
  expression : Option String := none
  limit : Option Nat := none
  noPrelude : Bool := false
  verbose : Bool := false
deriving DecidableEq, Repr, Inhabited

/-- What the command answers: its exit code, and the texts on the two outputs. -/
structure Report where
  code : Nat
  output : String
  errors : String
deriving DecidableEq, Repr, Inhabited

/-! ### Arguments -/

/-- Reads a limit: digits after an optional plus sign, fitting 64 bits. -/
def limitOf? (text : String) : Option Nat :=
  let digits := match text.toList with
    | '+' :: ds => ds
    | ds => ds
  if digits.isEmpty || !digits.all Char.isDigit then none
  else
    let n := Digits.toNat digits
    if Word.fitsUnsigned 64 n then some n else none

/-- The text can stand as a value of its own. -/
def isValue (text : String) : Bool := text.toList.head? != some '-' || text == "-"

/-- Sets the expression, once. -/
def Options.setExpression (o : Options) (text : String) : Option Options :=
  if o.expression.isSome then none else some { o with expression := some text }

/-- Sets the limit, once. -/
def Options.setLimit (o : Options) (text : String) : Option Options :=
  if o.limit.isSome then none else (limitOf? text).map fun n => { o with limit := some n }

/-- Sets the file, once. -/
def Options.setFile (o : Options) (path : String) : Option Options :=
  if o.file.isSome || path.isEmpty then none else some { o with file := some path }

/-- Leaves the prelude out, once. -/
def Options.setNoPrelude (o : Options) : Option Options :=
  if o.noPrelude then none else some { o with noPrelude := true }

/-- Asks for more messages, once. -/
def Options.setVerbose (o : Options) : Option Options :=
  if o.verbose then none else some { o with verbose := true }

/-- The text after a given beginning. -/
def afterPrefix? (start text : String) : Option String :=
  if start.toList.isPrefixOf text.toList then
    some (String.ofList (text.toList.drop start.toList.length))
  else none

/-- Takes an argument that is complete by itself: a flag, an option with its value joined to it, or
the file. -/
def parseSingle (o : Options) (arg : String) : Option Options :=
  if arg == "--no-stdlib" then o.setNoPrelude
  else if arg == "--verbose" || arg == "-v" then o.setVerbose
  else
    match afterPrefix? "--eval=" arg, afterPrefix? "--max-depth=" arg with
    | some text, _ => o.setExpression text
    | _, some text => o.setLimit text
    | none, none =>
      match afterPrefix? "-e=" arg, afterPrefix? "-e" arg with
      | some text, _ => o.setExpression text
      | _, some text => o.setExpression text
      | none, none => if isValue arg then o.setFile arg else none

/-- Reads the arguments; nothing after `--` is an option. -/
def parseArgs (o : Options) : List String → Option Options
  | [] => some o
  | "--" :: rest => rest.foldlM Options.setFile o
  | "-e" :: rest | "--eval" :: rest =>
    match rest with
    | value :: rest =>
      if isValue value then (o.setExpression value).bind (parseArgs · rest) else none
    | [] => none
  | "--max-depth" :: rest =>
    match rest with
    | value :: rest => if isValue value then (o.setLimit value).bind (parseArgs · rest) else none
    | [] => none
  | arg :: rest => (parseSingle o arg).bind (parseArgs · rest)

/-- Reads the arguments; `limitText` is the limit that the environment asks for. -/
def parse (args : List String) (limitText : Option String) : Option Options := do
  let o ← parseArgs {} args
  match o.limit, limitText with
  | none, some text => o.setLimit text
  | _, _ => return o

/-! ### Running -/

/-- The text that reports an error: the message, the hint and the trace. -/
def errorText (e : Error) : String :=
  "Error: " ++ e.message ++ "\n" ++
    (match e.hint? with
    | some hint => "  hint: " ++ hint ++ "\n"
    | none => "") ++
    (match e.trace? with
    | some trace => Error.traceText trace
    | none => "")

/-- The report on a failure, after some output. -/
def failure (output : String) (e : Error) : Report := ⟨1, output, errorText e⟩

/-- Evaluates the expression, and prints its value unless it is `nil`. -/
def runExpression (fuel : Nat) (session : Scope) (expression : Option String) (w : World) :
    Option Report :=
  match expression with
  | none => some ⟨0, w.state.output, ""⟩
  | some text =>
    (w.evalText fuel session text).map fun (r, w) =>
      match r with
      | .error e => failure w.state.output e
      | .ok .nil => ⟨0, w.state.output, ""⟩
      | .ok v => ⟨0, w.state.output ++ w.state.heap.print v ++ "\n", ""⟩

/-- Does what the options ask for; `readFile` gives the contents of the file with a given path. -/
def run (fuel : Nat) (o : Options) (readFile : String → Except FileFault String) : Option Report :=
  if o.file.isNone && o.expression.isNone then some (failure "" (.base (.eval .nothingToRun)))
  else
    let w := World.new (o.limit.getD World.defaultLimit)
    let (session, w) := w.newSession (!o.noPrelude)
    match o.file with
    | none => runExpression fuel session o.expression w
    | some path =>
      match w.evalFile fuel session path (readFile path) with
      | none => none
      | some (.error e, w) => some (failure w.state.output e)
      | some (.ok _, w) => runExpression fuel session o.expression w

end DispatchLisp.CommandLine
