import DispatchLisp.Form.Definition

/-! # Special forms that control evaluation

`begin`, `let`, `let*`, `if`, `cond`, `switch`, `while` and `quote`.  Each of them but `quote` works
in a fresh scope inside the current one. -/

namespace DispatchLisp.Form

/-- Evaluates a test, which must give a truth value. -/
def test (condition : Node) (scope : Scope) : Eval Bool := do
  let v ← Eval.eval condition scope
  Eval.expectBool v

/-- `(begin e...)` evaluates expressions in order. -/
def sequence (args : List Node) (scope : Scope) : Eval Value := evalFresh args scope

/-! ### Local bindings -/

/-- Makes one binding of a `let`: its value is computed in a fresh scope inside `source`, and the
name is bound in `scope`. -/
def bind (form : String) (source scope : Scope) (binding : Node) : Eval Unit :=
  if isApply binding then
    match binding.children with
    | [] => Eval.fail (.eval (.emptyFunctionBinding form))
    | target :: body => do
      let (name, names) ← Eval.decode (signature · form target)
      let (params, rest) := splitParams names
      let closure ← newClosure name params rest body source
      Eval.define scope name closure
  else do
    let name ← Eval.decode (nameOf · form binding)
    let value ← evalFresh binding.children source
    Eval.define scope name value

/-- Makes the bindings of a `let` in order. -/
def bindAll (form : String) (source scope : Scope) : List Node → Eval Unit
  | [] => pure ()
  | b :: bs => do
    bind form source scope b
    bindAll form source scope bs

/-- `(let (binding...) body...)`: the values of the bindings see the outer scope only. -/
def letParallel (args : List Node) (scope : Scope) : Eval Value :=
  match args with
  | target :: body => do
    let inner ← Eval.newChild scope
    let bindings ← Eval.decode (letBindings · "let" target)
    bindAll "let" scope inner bindings
    evalFresh body inner
  | [] => arityError "let" "1+" args

/-- `(let* (binding...) body...)`: the values of the bindings see the bindings before them. -/
def letSequential (args : List Node) (scope : Scope) : Eval Value :=
  match args with
  | target :: body => do
    let inner ← Eval.newChild scope
    let bindings ← Eval.decode (letBindings · "let*" target)
    bindAll "let*" inner inner bindings
    evalFresh body inner
  | [] => arityError "let*" "1+" args

/-! ### Branches -/

/-- `(if test then else)`, where the last part may be missing. -/
def branch (args : List Node) (scope : Scope) : Eval Value :=
  match args with
  | condition :: yes :: no =>
    if 1 < no.length then arityError "if" "2-3" args
    else do
      let inner ← Eval.newChild scope
      if ← test condition inner then Eval.evalBody [yes] inner else Eval.evalBody no inner
  | args => arityError "if" "2-3" args

/-- Goes through the clauses of a `cond`. -/
def condClauses (scope : Scope) : List Node → Eval Value
  | [] => pure .nil
  | clause :: clauses =>
    if isKeyword clause.head "else" then Eval.evalBody clause.children scope
    else do
      let (condition, body) := splitClause clause
      if ← test condition scope then Eval.evalBody body scope else condClauses scope clauses

/-- `(cond (test body...) ... (else body...))` -/
def cond (args : List Node) (scope : Scope) : Eval Value := do
  let inner ← Eval.newChild scope
  condClauses inner args

/-- The body of the first clause of a `switch` that is headed by a value equal to the subject or by
`else`. -/
def matchingClause? (h : Heap) (subject : Value) (clauses : List Node) : Option (List Node) :=
  (clauses.find? fun c => isKeyword c.head "else" || h.equal c.head subject).map Node.children

/-- `(switch e (v body...) ... (else body...))` -/
def switch (args : List Node) (scope : Scope) : Eval Value :=
  match args with
  | first :: clauses => do
    let inner ← Eval.newChild scope
    let subject ← Eval.eval first inner
    match ← Eval.reads fun s => matchingClause? s.heap subject clauses with
    | some body => Eval.evalBody body inner
    | none => return .nil
  | [] => arityError "switch" "1+" args

/-! ### Loops -/

/-- One round of a loop: the body is evaluated and the loop goes round again as long as the test is
true.  The value is that of the last round. -/
def loopRound (condition : Node) (body : List Node) (scope : Scope) (last : Value) :
    Eval Value := do
  if ← test condition scope then
    let v ← Eval.evalBody body scope
    Eval.perform (.loop condition body scope v)
  else return last

/-- `(while test body...)` -/
def loop (args : List Node) (scope : Scope) : Eval Value :=
  match args with
  | condition :: body => do
    let inner ← Eval.newChild scope
    Eval.perform (.loop condition body inner .nil)
  | [] => arityError "while" "1+" args

/-! ### Quoted data -/

mutual

/-- The data that a node stands for when it is quoted: an atom is its value, a form is the list of
its head and its quoted children, and the empty form is the empty list. -/
def quoted : Node → HeapM Value
  | .atom v => pure v
  | .form .nil [] => HeapM.newList []
  | .form v kids => do
    let items ← quotedAll kids
    HeapM.newList (v :: items)

/-- The quoted data of each node. -/
def quotedAll : List Node → HeapM (List Value)
  | [] => pure []
  | n :: ns => do
    let v ← quoted n
    let vs ← quotedAll ns
    pure (v :: vs)

end

/-- `(quote e)` -/
def quote (args : List Node) : Eval Value :=
  match args with
  | [n] => Eval.onHeap (quoted n)
  | args => arityError "quote" "1" args

end DispatchLisp.Form
