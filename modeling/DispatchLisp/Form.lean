import DispatchLisp.Form.Control

/-! # Special forms

The names of the special forms and what each of them does with its unevaluated arguments. -/

namespace DispatchLisp.SpecialForm

/-- Carries out a special form on its arguments in the caller's scope. -/
def run (form : SpecialForm) (args : List Node) (scope : Scope) : Eval Value :=
  match form with
  | .sequence => Form.sequence args scope
  | .cond => Form.cond args scope
  | .consStream => Form.consStream args scope
  | .define => Form.define args scope
  | .defineMacro => Form.defineMacro args scope
  | .defineVariadic => Form.defineVariadic args scope
  | .delay => Form.delay args scope
  | .branch => Form.branch args scope
  | .lambda => Form.lambda args scope
  | .letParallel => Form.letParallel args scope
  | .letSequential => Form.letSequential args scope
  | .quote => Form.quote args
  | .assign => Form.set args scope
  | .assignVariadic => Form.setVariadic args scope
  | .switch => Form.switch args scope
  | .undefine => Form.undefine args scope
  | .loop => Form.loop args scope
  | .expansion name params templates => Form.expand name params templates args scope
  | .host f => Eval.onHeap (f args)

/-- The special forms of the language, by name. -/
def table : List (String × SpecialForm) := [
  ("begin", .sequence),
  ("cond", .cond),
  ("cons-stream", .consStream),
  ("def", .define),
  ("def-symbol", .defineMacro),
  ("def-variable", .defineVariadic),
  ("delay", .delay),
  ("if", .branch),
  ("lambda", .lambda),
  ("let", .letParallel),
  ("let*", .letSequential),
  ("quote", .quote),
  ("set", .assign),
  ("set-variable", .assignVariadic),
  ("switch", .switch),
  ("undef", .undefine),
  ("while", .loop)]

end DispatchLisp.SpecialForm
