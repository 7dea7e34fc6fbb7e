import DispatchLisp.Form
import DispatchLisp.Prelude.Arithmetic
import DispatchLisp.Prelude.Comparison
import DispatchLisp.Prelude.Effects
import DispatchLisp.Prelude.Lists
import DispatchLisp.Prelude.Streams
import DispatchLisp.Prelude.Tables

/-! # The prelude

What routines do, and the overloads that every session starts with: the core, which is the special
forms and `apply`, and the prelude proper. -/

namespace DispatchLisp

/-- Carries out a routine on its arguments in the caller's scope. -/
def Routine.run (r : Routine) (args : List Value) (scope : Scope) : Eval Value :=
  match r with
  | .apply => Prelude.applyTo args scope
  | .applyList => Prelude.applyList args scope
  | .map => Prelude.map args scope
  | .filter => Prelude.filter args scope
  | .foldLeft => Prelude.foldLeft args scope
  | .foldRight => Prelude.foldRight args scope
  | .forEach => Prelude.forEach args scope
  | .curry => Prelude.curry args
  | .maybe => Prelude.maybe args scope
  | .force => Prelude.force args scope
  | .streamRest => Prelude.streamRest args scope
  | .streamRef => Prelude.streamRef args scope
  | .streamTake => Prelude.streamTake args scope
  | .streamMap => Prelude.streamMap args scope
  | .streamFilter => Prelude.streamFilter args scope
  | .streamForEach => Prelude.streamForEach args scope
  | .evalText => Prelude.evalText args scope
  | .isBound => Prelude.isBound args scope
  | .print => Prelude.print args
  | .printLine => Prelude.printLine args
  | .newLine => Prelude.newLine
  | .lock => Prelude.lock args
  | .thread => Prelude.thread args scope
  | .threadJoin => Prelude.threadJoin args
  | .threadAlive => Prelude.threadAlive args
  | .sleep => Prelude.sleep args
  | .curried f fixed => Eval.apply f (fixed ++ args) scope
  | .mapRest f rests => Prelude.mapRest f rests scope
  | .filterRest f rest => Prelude.filterRest f rest scope

namespace Prelude

/-- The overloads that are there even without the prelude: the special forms and `apply`. -/
def core : List Entry :=
  (SpecialForm.table.map fun (name, form) => .ofSpecial name form) ++
    [routine "apply" [.function] (some .any) .apply]

/-- The overloads of the prelude, in the order of registration. -/
def entries : List Entry :=
  arithmetic ++ comparison ++ lists ++ tables ++ streams ++ higherOrder ++ predicates ++
    reflection ++ output ++ concurrency

/-- Registers overloads in a scope. -/
def install (scope : Scope) (entries : List Entry) (s : State) : State :=
  entries.foldl (fun s e => s.register scope e) s

end Prelude

end DispatchLisp
