/-! # Locks

A lock is held or free.  It has no owner: any thread may release it.  Taking a held lock is not a
step that can happen; the thread has to wait until the lock is free. -/

namespace DispatchLisp

/-- A lock. -/
structure Lock where
  held : Bool := false
deriving DecidableEq, Repr, Inhabited

namespace Lock

/-- Takes the lock, which is possible only if it is free. -/
def acquire? (l : Lock) : Option Lock := if l.held then none else some ⟨true⟩

/-- Frees the lock and says whether it was held. -/
def release (l : Lock) : Bool × Lock := (l.held, ⟨false⟩)

/-- The lock in words, for people. -/
def describe (l : Lock) : String := if l.held then "Lock(true)" else "Lock(false)"

end Lock

end DispatchLisp
