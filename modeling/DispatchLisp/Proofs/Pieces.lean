import DispatchLisp.Proofs.Lines
import DispatchLisp.Proofs.LocalNames
import DispatchLisp.Proofs.Sequel

/-! # A text whole and in pieces

Two texts on lines of their own are read as the expressions of the first and then those of the
second (`Node.readAll_line`).  Evaluating a sequence of expressions is evaluating its first part and
then, from where that has ended, its second part (`Eval.evalSequence_append`,
`World.execute_bind`).  So a source can be evaluated whole or in pieces, and the world is the same
afterwards (`World.evalText_pieces`): the heap, the scopes and the output, but also the threads that
are still at work and the turn of the main fiber. -/

namespace DispatchLisp

/-! ### Sequences of expressions -/

namespace Eval

variable {scope : Scope} {ns : List Node}

/-- **Evaluating a sequence is evaluating its first part and then the rest.** -/
theorem evalSequence_append (last : Value) (as bs : List Node) :
    evalSequence scope last (as ++ bs) =
      evalSequence scope last as >>= fun v => evalSequence scope v bs := by
  induction as generalizing last with
  | nil => rfl
  | cons n as ih =>
      simp only [List.cons_append, evalSequence, ih]
      exact (bind_assoc _ _ _).symm

/-- The value so far is forgotten as soon as there is something left to evaluate. -/
theorem evalSequence_last (h : ns ≠ []) (last : Value) :
    evalSequence scope last ns = evalBody ns scope := by
  cases ns with
  | nil => exact absurd rfl h
  | cons n ns => rfl

theorem evalBody_append (as : List Node) (h : ns ≠ []) :
    evalBody (as ++ ns) scope = evalBody as scope >>= fun _ => evalBody ns scope := by
  rw [evalBody, evalSequence_append]
  exact congrArg (evalBody as scope >>= ·) (funext fun v => evalSequence_last h v)

end Eval

/-! ### Runs in a world -/

namespace World

variable {w w' : World} {session : Scope} {m : Eval Value} {f : Value → Eval Value}
  {out : Result × World}

/-- The main fiber is at rest: every fiber that waits belongs to another thread. -/
def Idle (w : World) : Prop := ∀ f ∈ w.waiting, f.thread ≠ none

theorem Idle.oneMain (h : w.Idle) (m : Eval Value) : (w.machine m).OneMain :=
  (Machine.oneMain_iff rfl).mpr h

theorem Reachable.idle {sessions : List Scope} (h : Reachable sessions w) : w.Idle := by
  obtain ⟨threads, hthreads, -⟩ := h.isolated
  exact fun f hf => (hthreads.waiting f hf).1

/-- The result and the world that a run in `w` leaves behind. -/
def leave (w : World) : Machine.Outcome → Result × World
  | (r, s, waiting, turn) => (r, { w with state := s, waiting, turn })

theorem exists_execute_iff :
    (∃ fuel, w.execute fuel m = some out) ↔ ∃ o, (w.machine m).EndsWith o ∧ w.leave o = out := by
  constructor
  · rintro ⟨fuel, hrun⟩
    obtain ⟨o, hfinish, hout⟩ := Option.map_eq_some_iff.mp hrun
    exact ⟨o, ⟨fuel, hfinish⟩, hout⟩
  · rintro ⟨o, ⟨fuel, hfinish⟩, hout⟩
    exact ⟨fuel, Option.map_eq_some_iff.mpr ⟨o, hfinish, hout⟩⟩

/-- **What one computation after another ends with**: what the second ends with in the world that
the first leaves behind, or the error of the first. -/
theorem execute_bind (hidle : w.Idle) :
    (∃ fuel, w.execute fuel (m >>= f) = some out) ↔
      ∃ r w', (∃ fuel, w.execute fuel m = some (r, w')) ∧
        match r with
        | .ok v => ∃ fuel, w'.execute fuel (f v) = some out
        | .error e => out = (.error e, w') := by
  simp only [exists_execute_iff, machine, Machine.endsWith_bind hidle]
  constructor
  · rintro ⟨o, ⟨r, s, left, turn, hfirst, hsecond⟩, hout⟩
    refine ⟨r, _, ⟨_, hfirst, rfl⟩, ?_⟩
    cases r with
    | ok v => exact ⟨o, hsecond, hout⟩
    | error e =>
        subst hsecond
        exact hout.symm
  · rintro ⟨r, w', ⟨⟨r, s, left, turn⟩, hfirst, hleave⟩, hsecond⟩
    cases hleave
    cases r with
    | ok v =>
        obtain ⟨o, hends, hout⟩ := hsecond
        exact ⟨o, ⟨_, s, left, turn, hfirst, hends⟩, hout⟩
    | error e => exact ⟨_, ⟨_, s, left, turn, hfirst, rfl⟩, hsecond.symm⟩

theorem evalText_of_ok {text : String} {ns : List Node} (h : Node.readAll text = .ok ns)
    (fuel : Nat) : w.evalText fuel session text = w.execute fuel (Eval.evalBody ns session) := by
  simp only [evalText, h]

theorem evalText_of_error {text : String} {c : Cause} (h : Node.readAll text = .error c)
    (fuel : Nat) : w.evalText fuel session text = some (.error (.base c), w) := by
  simp only [evalText, h]

/-- **A source can be evaluated whole or in pieces.**  Let `a` and `b` be texts that can be read,
and let there be something in `b`.  Evaluating `a` and `b` on lines of their own ends if and only if
evaluating first `a` and then, unless that is an error, `b` does, and with the same result and the
same world.  A text that cannot be read is reported and changes nothing, and neither does what can
be read before its fault. -/
theorem evalText_pieces :
    (∀ sessions w, Reachable sessions w → w.Idle) ∧
    (∀ (w : World) (session : Scope), w.Idle → ∀ a b as bs,
      Node.readAll a = .ok as → Node.readAll b = .ok bs → bs ≠ [] → ∀ out,
      (∃ fuel, w.evalText fuel session (a ++ "\n" ++ b) = some out) ↔
        ∃ r w', (∃ fuel, w.evalText fuel session a = some (r, w')) ∧
          match r with
          | .ok _ => ∃ fuel, w'.evalText fuel session b = some out
          | .error e => out = (.error e, w')) ∧
    (∀ (w : World) (session : Scope) text c, Node.readAll text = .error c →
      ∀ fuel, w.evalText fuel session text = some (.error (.base c), w)) ∧
    ∀ (w : World) (session : Scope) a b as c, Node.readAll a = .ok as →
      Node.readAll b = .error c → ∀ fuel, w.evalText fuel session (a ++ "\n" ++ b) =
        some (.error (.base (c.below (a.toList.count '\n' + 1))), w) := by
  refine ⟨fun _ _ h => h.idle, ?_, fun _ _ _ _ h => evalText_of_error h, ?_⟩
  · intro w session hidle a b as bs ha hb hne out
    have hwhole : Node.readAll (a ++ "\n" ++ b) = .ok (as ++ bs) := by
      rw [Node.readAll_line ha, hb]
      rfl
    simp only [evalText_of_ok hwhole, evalText_of_ok ha, evalText_of_ok hb,
      Eval.evalBody_append as hne]
    exact execute_bind hidle
  · intro w session a b as c ha hb
    refine evalText_of_error ?_
    rw [Node.readAll_line ha, hb]
    rfl

/-- The first text ends in a comment, which the new line closes. -/
theorem evalText_pieces_comment :
    let session := ((World.new 10).newSession true).1
    let w := ((World.new 10).newSession true).2
    (∃ fuel w', w.evalText fuel session ("(def x 2) ; two" ++ "\n" ++ "(* x 21)") =
      some (.ok (.int 42), w')) ∧
    ∀ fuel, w.evalText fuel session ("(def x 2) ; two" ++ "\n" ++ "(* x 21") =
      some (.error (.base (.read .unterminatedList ⟨2, 1⟩)), w) := by
  intro session w
  have hidle : w.Idle := evalText_pieces.1 _ _ ((Reachable.new 10).newSession true)
  have hrun : ((w.evalText 100 session "(def x 2) ; two").bind fun first =>
      (first.2.evalText 100 session "(* x 21)").map fun second => (first.1, second.1)) =
        some (.ok .nil, .ok (.int 42)) := by decide +kernel
  obtain ⟨⟨r, w₁⟩, hfirst, hsecond⟩ := Option.bind_eq_some_iff.mp hrun
  obtain ⟨⟨r', w₂⟩, hsecond, hr⟩ := Option.map_eq_some_iff.mp hsecond
  cases hr
  constructor
  · obtain ⟨fuel, hwhole⟩ := (evalText_pieces.2.1 w session hidle _ _ _ _ rfl rfl (by decide)
      (.ok (.int 42), w₂)).mpr ⟨_, w₁, ⟨100, hfirst⟩, 100, hsecond⟩
    exact ⟨fuel, w₂, hwhole⟩
  · exact evalText_pieces.2.2.2 w session _ _ _ (.read .unterminatedList ⟨1, 1⟩) rfl rfl

end World

end DispatchLisp
