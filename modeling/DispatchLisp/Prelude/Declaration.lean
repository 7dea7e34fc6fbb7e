import DispatchLisp.Function.Overload

/-! # Declaring prelude functions

Abbreviations for the overloads of the prelude.  A prelude function takes its arguments apart by
pattern matching on what its declared kinds allow; overload selection rules out everything else, and
the remaining case is refused with `misuse`. -/

namespace DispatchLisp.Prelude

/-- An overload with a fixed number of arguments. -/
def fixed (name : String) (params : List Kind) (run : List Value → HeapM Value) : Entry :=
  ⟨name, params, none, .native run⟩

/-- An overload that takes further arguments of one kind. -/
def variadic (name : String) (params : List Kind) (rest : Kind) (run : List Value → HeapM Value) :
    Entry :=
  ⟨name, params, some rest, .native run⟩

/-- An overload that is a routine. -/
def routine (name : String) (params : List Kind) (rest : Option Kind) (r : Routine) : Entry :=
  ⟨name, params, rest, .routine r⟩

/-- The arguments are not of the declared kinds. -/
def misuse (args : List Value) : Cause :=
  .kind "arguments of the declared kinds" (describeKinds args)

/-- Refuses arguments that are not of the declared kinds. -/
def refuse {α : Type} (args : List Value) : HeapM α := HeapM.fail (misuse args)

end DispatchLisp.Prelude
