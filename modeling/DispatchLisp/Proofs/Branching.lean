import DispatchLisp.Proofs.Enclosure
import DispatchLisp.Proofs.LocalNames
import DispatchLisp.Proofs.Moves

/-! # Two ways to write a choice

`(if c a b)` and `(cond (c a) (else b))` are the same program.  They take their parts from different
places.  To `if` the test is an argument.  To `cond` it is in front of a clause, and a clause is
read as any other list: a test that is an atom is its head, and before a test that is a form stands
`apply`.  A clause is taken apart into what it was made of (`Form.splitClause_ofItems`), unless its
test is the name `apply`, and it is tried unless its test is the name `else`
(`Form.condClauses_cons`). -/

namespace DispatchLisp

namespace Form

variable {test : Node} {body : List Node}

/-- **A clause is taken apart into its test and its body.** -/
theorem splitClause_ofItems (happly : test ≠ .atom (.ident "apply")) :
    splitClause (Node.ofItems (test :: body)) = (test, body) := by
  cases test with
  | atom v =>
      have hv : isKeyword v "apply" = false := by
        refine beq_eq_false_iff_ne.mpr fun h => happly ?_
        rw [h]
      simp only [Node.ofItems, splitClause, isApply, hv, Node.head, Node.children]
  | form v kids => rfl

/-- Only the name `else` in front of a clause makes it the last resort. -/
theorem isKeyword_head_ofItems (helse : test ≠ .atom (.ident "else")) :
    isKeyword (Node.ofItems (test :: body)).head "else" = false := by
  cases test with
  | atom v =>
      refine beq_eq_false_iff_ne.mpr fun h => helse ?_
      rw [← h]
      rfl
  | form v kids => rfl

/-- A clause is tried before those that follow it. -/
theorem condClauses_cons (helse : test ≠ .atom (.ident "else"))
    (happly : test ≠ .atom (.ident "apply")) (scope : Scope) (clauses : List Node) :
    condClauses scope (Node.ofItems (test :: body) :: clauses) = (do
      if ← Form.test test scope then Eval.evalBody body scope else condClauses scope clauses) := by
  rw [condClauses, isKeyword_head_ofItems helse, splitClause_ofItems happly]
  rfl

/-- A clause headed by `else` is taken in any case. -/
theorem condClauses_else (scope : Scope) (clauses : List Node) :
    condClauses scope (Node.ofItems (.atom (.ident "else") :: body) :: clauses) =
      Eval.evalBody body scope := rfl

/-- **The two forms are one computation.** -/
theorem branch_eq_cond (helse : test ≠ .atom (.ident "else"))
    (happly : test ≠ .atom (.ident "apply")) (yes no : Node) (scope : Scope) :
    branch [test, yes, no] scope =
      cond [Node.ofItems [test, yes], Node.ofItems [.atom (.ident "else"), no]] scope := by
  simp only [cond, condClauses_cons helse happly, condClauses_else]
  rfl

end Form

/-- The expression `(if c a b)`. -/
def Node.choice (c a b : Node) : Node := ofItems [atom (.ident "if"), c, a, b]

/-- The expression `(cond (c a) (else b))`. -/
def Node.clauses (c a b : Node) : Node :=
  ofItems [atom (.ident "cond"), ofItems [c, a], ofItems [atom (.ident "else"), b]]

/-- **`if` and `cond` agree.**  Let `c` be an expression other than the names `else` and `apply`.
In every scope in which the names `if` and `cond` stand for the special forms, `(if c a b)` and
`(cond (c a) (else b))` are the same program from every state: they carry out the same jobs in the
same states and end with the same value or the same error, in the same state.  So a machine that is
about to evaluate one of them, and has a turn left, does in any number of steps what it does with
the other.

The two expressions are what the reader makes of the two texts, whatever texts of `c`, `a` and `b`
are put in, on lines of their own. -/
theorem if_agrees_with_cond (c a b : Node) (helse : c ≠ .atom (.ident "else"))
    (happly : c ≠ .atom (.ident "apply")) :
    (∀ (s : State) (e : Scope), s.Performs e "if" .branch → s.Performs e "cond" .cond →
      evalNode (.choice c a b) e s = evalNode (.clauses c a b) e s ∧
      ∀ fuel thread next stack waiting turn,
        Machine.finish fuel
            ⟨thread, .call (.eval (.choice c a b) e) s next, stack, waiting, turn + 1⟩ =
          Machine.finish fuel
            ⟨thread, .call (.eval (.clauses c a b) e) s next, stack, waiting, turn + 1⟩) ∧
    ∀ test yes no : String,
      Node.readOne test = .ok c → Node.readOne yes = .ok a → Node.readOne no = .ok b →
      Node.readOne (Node.enclose ["if", test, yes, no]) = .ok (.choice c a b) ∧
      Node.readOne (Node.enclose ["cond", Node.enclose [test, yes], Node.enclose ["else", no]]) =
        .ok (.clauses c a b) := by
  refine ⟨fun s e hif hcond => ?_, fun test yes no htest hyes hno => ?_⟩
  · have hsame : evalNode (.choice c a b) e s = evalNode (.clauses c a b) e s := by
      have hrun : SpecialForm.run .branch [c, a, b] e =
          SpecialForm.run .cond [.ofItems [c, a], .ofItems [.atom (.ident "else"), b]] e :=
        Form.branch_eq_cond helse happly a b e
      calc evalNode (.choice c a b) e s
          = Eval.nested (SpecialForm.run .branch [c, a, b] e) s := hif.evalNode _
        _ = Eval.nested (SpecialForm.run .cond
              [.ofItems [c, a], .ofItems [.atom (.ident "else"), b]] e) s := by rw [hrun]
        _ = evalNode (.clauses c a b) e s := (hcond.evalNode _).symm
    refine ⟨hsame, fun fuel thread next stack waiting turn => ?_⟩
    cases fuel with
    | zero => rfl
    | succ fuel =>
        -- The first step opens the job, and what it opens is the same.
        simp only [Machine.finish, Machine.step, Job.body, hsame]
  · have hclause : Node.readOne (Node.enclose [test, yes]) = .ok (.ofItems [c, a]) :=
      Node.readOne_enclose (.cons htest (.cons hyes .nil))
    have hlast : Node.readOne (Node.enclose ["else", no]) =
        .ok (.ofItems [.atom (.ident "else"), b]) :=
      Node.readOne_enclose (.cons rfl (.cons hno .nil))
    constructor
    · exact Node.readOne_enclose (.cons rfl (.cons htest (.cons hyes (.cons hno .nil))))
    · exact Node.readOne_enclose (.cons rfl (.cons hclause (.cons hlast .nil)))

/-- A test that is no truth value, where `if` has another name, and a test that is a call of the
value of a form and is followed by a comment. -/
theorem if_agrees_with_cond_seven :
    let s : State := {
      scopes := ⟨#[[("if", .ident "choose"), ("choose", .function ⟨0, "if"⟩),
        ("cond", .function ⟨1, "cond"⟩)]]⟩
      functions := #[.single (.ofSpecial "if" .branch), .single (.ofSpecial "cond" .cond)] }
    let one : Node := .atom (.int 1)
    let two : Node := .atom (.int 2)
    (Machine.finish 10 ⟨none, .call (.eval (.clauses (.atom (.int 7)) one two) ⟨0, []⟩) s .done, [],
      [], 10⟩).map Prod.fst = some (.error (.base (.kind "bool" "int"))) ∧
    ∃ c, Node.readOne "((f) 3) ; a test" = .ok c ∧
      evalNode (.choice c one two) ⟨0, []⟩ s = evalNode (.clauses c one two) ⟨0, []⟩ s ∧
      Node.readOne "(\ncond\n(\n((f) 3) ; a test\n1\n)\n(\nelse\n2\n)\n)" =
        .ok (.clauses c one two) := by
  intro s one two
  have hif : s.Performs ⟨0, []⟩ "if" .branch := ⟨⟨0, "if"⟩, rfl, rfl⟩
  have hcond : s.Performs ⟨0, []⟩ "cond" .cond := ⟨⟨1, "cond"⟩, rfl, rfl⟩
  constructor
  · obtain ⟨-, hruns⟩ := (if_agrees_with_cond (.atom (.int 7)) one two (by simp) (by simp)).1 s
      ⟨0, []⟩ hif hcond
    rw [← hruns]
    decide +kernel
  · obtain ⟨c, hread⟩ : ∃ c, Node.readOne "((f) 3) ; a test" = .ok c := ⟨_, rfl⟩
    have hform : c.isAtom = false := by
      cases hread
      rfl
    have hagree := if_agrees_with_cond c one two (fun h => by rw [h] at hform; cases hform)
      (fun h => by rw [h] at hform; cases hform)
    refine ⟨c, hread, (hagree.1 s ⟨0, []⟩ hif hcond).1, ?_⟩
    exact (hagree.2 _ "1" "2" hread rfl rfl).2

end DispatchLisp
