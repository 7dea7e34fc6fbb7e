import DispatchLisp.Function

/-! # Overload selection

Which overload a call runs.  An overload is a candidate if it accepts the number of arguments and
every argument meets its constraint; its score is the sum of the scores of the arguments.  The
candidates are sorted by score, and the call runs the first one, if the second one has another
score. -/

namespace DispatchLisp

namespace Entry

/-- The overload can be called with `n` arguments. -/
def accepts (e : Entry) (n : Nat) : Bool :=
  if e.variadic.isSome then decide (e.params.length ≤ n) else e.params.length == n

/-- The score of arguments against a list of constraints and a constraint for further ones. -/
def scoreArgs (variadic : Option Kind) : List Kind → List Value → Option Nat
  | _, [] => some 0
  | k :: ks, v :: vs => do return (← k.score v) + (← scoreArgs variadic ks vs)
  | [], v :: vs => do return (← (← variadic).score v) + (← scoreArgs variadic [] vs)

/-- The sum of the scores of the arguments, if every argument meets its constraint. -/
def score (e : Entry) (args : List Value) : Option Nat := scoreArgs e.variadic e.params args

/-- The number of arguments in words: `2`, or `2+` for two or more. -/
def arity (e : Entry) : String :=
  toString e.params.length ++ (if e.variadic.isSome then "+" else "")

/-- The name and the kinds of the arguments. -/
def signature (e : Entry) : String :=
  "(" ++ e.name ++ String.join (e.params.map fun k => " " ++ k.name) ++
    (match e.variadic with
    | some k => " . " ++ k.name
    | none => "") ++ ")"

/-- The signature with the sort of body. -/
def describe (e : Entry) : String :=
  let sort := match e.body with
    | .special _ => "special"
    | .native _ => "native"
    | .routine _ => "native"
    | .closure _ => "closure"
  "<" ++ sort ++ " " ++ e.signature ++ ">"

end Entry

/-- The list without elements equal to the one before them. -/
def squeeze : List String → List String
  | a :: b :: rest => if a = b then squeeze (b :: rest) else a :: squeeze (b :: rest)
  | short => short

/-- The names of the kinds of values, separated by spaces. -/
def describeKinds (args : List Value) : String := " ".intercalate (args.map Value.kindName)

namespace Overloads

/-- The special form among the overloads, if there is one; it wins before any argument is
evaluated. -/
def special? (o : Overloads) : Option SpecialForm :=
  o.entries.findSome? fun e =>
    match e.body with
    | .special form => some form
    | _ => none

/-- The overloads that accept the number of arguments, with their places in the set. -/
def accepting (o : Overloads) (args : List Value) : List (Entry × Nat) :=
  o.entries.zipIdx.filter fun e => e.1.accepts args.length

/-- The places and scores of the candidates for a call. -/
def candidates (o : Overloads) (args : List Value) : List (Nat × Nat) :=
  (o.accepting args).filterMap fun e => (e.1.score args).map fun s => (e.2, s)

/-- Puts a candidate in front of the first one whose score is not higher. -/
def insertByScore (c : Nat × Nat) : List (Nat × Nat) → List (Nat × Nat)
  | [] => [c]
  | d :: ds => if d.2 ≤ c.2 then c :: d :: ds else d :: insertByScore c ds

/-- The candidates sorted by score, the highest first.  Candidates of the same score stay in the
order of registration. -/
def ranked (o : Overloads) (args : List Value) : List (Nat × Nat) :=
  (o.candidates args).foldr insertByScore []

/-- The place of the overload that a call with these arguments runs: the first of the ranked
candidates, unless the second one has the same score. -/
def select (o : Overloads) (args : List Value) : Except Cause Nat :=
  if (o.accepting args).isEmpty then
    .error (.arity o.name (" or ".intercalate (squeeze (o.entries.map Entry.arity))) args.length)
  else
    match o.ranked args with
    | [] => .error (.noOverload o.name (describeKinds args))
    | [(i, _)] => .ok i
    | (i, best) :: (_, second) :: _ =>
      if best = second then .error (.ambiguous o.name (describeKinds args)) else .ok i

/-- The overload that a call with these arguments runs. -/
def selected (o : Overloads) (args : List Value) : Except Cause Entry :=
  (o.select args).map fun i => o.entries.getD i default

end Overloads

end DispatchLisp
