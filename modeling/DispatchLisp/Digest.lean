import DispatchLisp.Value

/-! # Digests of keys

A digest is a sequence of marks that stands for a key when a table looks for it.  Keys with
different digests are different keys; different keys may have the same digest. -/

namespace DispatchLisp

/-- A part of a digest. -/
inductive Mark where
  | kind (k : Kind)
  | truth (b : Bool)
  | number (n : Int)
  | text (t : String)
  | size (n : Nat)
  | identity (n : Nat)
deriving DecidableEq, Repr, Inhabited

/-- What stands for a key when a table looks for it. -/
abbrev Digest := List Mark

end DispatchLisp
