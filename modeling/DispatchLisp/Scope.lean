import DispatchLisp.Function

/-! # Scopes

Bindings of names to values.  The store holds one frame of bindings for each scope ever made; a
scope is known by the numbers of its own frame and of the frames around it.  A frame keeps its
bindings in the order of their first definition and binds each name at most once.

* `lookup` finds the value in the nearest frame that binds the name;
* `define` binds in the scope's own frame;
* `assign?` changes the nearest binding, if there is one;
* `remove?` removes a binding of the scope's own frame, if there is one;
* `names` lists what is visible, nearest frames first and each frame in alphabetical order. -/

namespace DispatchLisp

/-- The bindings of one scope. -/
abbrev Frame := List (String × Value)

namespace Frame

/-- Binds a name; a name that is bound keeps its place. -/
def put (name : String) (value : Value) : Frame → Frame
  | [] => [(name, value)]
  | (n, v) :: rest => if n = name then (n, value) :: rest else (n, v) :: put name value rest

/-- Removes the binding of a name. -/
def remove (name : String) : Frame → Frame
  | [] => []
  | (n, v) :: rest => if n = name then rest else (n, v) :: remove name rest

/-- The name is bound. -/
def binds (name : String) (f : Frame) : Bool := f.any fun b => b.1 == name

/-- The value of a name. -/
def get? (name : String) : Frame → Option Value
  | [] => none
  | (n, v) :: rest => if n = name then some v else get? name rest

/-- The names that are bound, in alphabetical order (by code point), whatever the order of their
definition. -/
def names (f : Frame) : List String := (f.map Prod.fst).mergeSort fun a b => decide (a ≤ b)

/-- Sorting neither adds nor loses a name. -/
theorem names_perm (f : Frame) : f.names.Perm (f.map Prod.fst) := List.mergeSort_perm _ _

/-- The names of a frame are those it binds. -/
theorem mem_names {f : Frame} {name : String} : name ∈ f.names ↔ f.binds name = true := by
  rw [f.names_perm.mem_iff]
  simp [binds]

end Frame

/-- The frames of all scopes. -/
structure Scopes where
  frames : Array Frame := #[]
deriving Inhabited

/-- The frames that are searched from a scope, innermost first. -/
def Scope.chain (scope : Scope) : List Nat := scope.frame :: scope.outer

/-- The outermost scope around a scope. -/
def Scope.root (scope : Scope) : Scope := ⟨scope.chain.getLastD scope.frame, []⟩

namespace Scopes

/-- The frame with a number. -/
def frame (s : Scopes) (i : Nat) : Frame := s.frames.getD i []

/-- Changes the frame with a number. -/
def modifyFrame (s : Scopes) (i : Nat) (f : Frame → Frame) : Scopes := ⟨s.frames.modify i f⟩

/-- A new scope with nothing around it. -/
def newRoot (s : Scopes) : Scope × Scopes := (⟨s.frames.size, []⟩, ⟨s.frames.push []⟩)

/-- A new scope inside another one. -/
def newChild (s : Scopes) (outer : Scope) : Scope × Scopes :=
  (⟨s.frames.size, outer.chain⟩, ⟨s.frames.push []⟩)

/-! ### Searching -/

/-- The value of a name in the first of the frames that binds it. -/
def lookupIn (s : Scopes) (name : String) : List Nat → Option Value
  | [] => none
  | i :: rest =>
    match (s.frame i).get? name with
    | some v => some v
    | none => lookupIn s name rest

/-- The value of a name as seen from a scope. -/
def lookup (s : Scopes) (scope : Scope) (name : String) : Option Value :=
  s.lookupIn name scope.chain

/-- The name is visible from a scope. -/
def contains (s : Scopes) (scope : Scope) (name : String) : Bool :=
  scope.chain.any fun i => (s.frame i).binds name

/-- The first of the frames that binds a name. -/
def ownerIn? (s : Scopes) (name : String) : List Nat → Option Nat
  | [] => none
  | i :: rest => if (s.frame i).binds name then some i else ownerIn? s name rest

/-- The nearest frame that binds a name. -/
def owner? (s : Scopes) (scope : Scope) (name : String) : Option Nat :=
  s.ownerIn? name scope.chain

/-- The names that are visible from a scope, those of nearer frames first, each once. -/
def names (s : Scopes) (scope : Scope) : List String :=
  (scope.chain.flatMap fun i => (s.frame i).names).eraseDups

/-- The number of bindings in a scope's own frame. -/
def size (s : Scopes) (scope : Scope) : Nat := (s.frame scope.frame).length

/-- The scope in words, for people: its own bindings, and the number of scopes around it. -/
def describe (s : Scopes) (scope : Scope) : String :=
  "Env \x7b bindings: " ++ toString (s.size scope) ++ ", depth: " ++ toString scope.outer.length ++
    " \x7d"

/-! ### Changing -/

/-- Binds a name in the scope's own frame. -/
def define (s : Scopes) (scope : Scope) (name : String) (value : Value) : Scopes :=
  s.modifyFrame scope.frame (Frame.put name value)

/-- Changes the binding of a name in a frame. -/
def rebind (s : Scopes) (i : Nat) (name : String) (value : Value) : Scopes :=
  s.modifyFrame i (Frame.put name value)

/-- Changes the nearest binding of a name. -/
def assign? (s : Scopes) (scope : Scope) (name : String) (value : Value) : Option Scopes :=
  (s.owner? scope name).map fun i => s.rebind i name value

/-- Removes the binding of a name from the scope's own frame. -/
def remove? (s : Scopes) (scope : Scope) (name : String) : Option (Value × Scopes) :=
  ((s.frame scope.frame).get? name).map fun v =>
    (v, s.modifyFrame scope.frame (Frame.remove name))

/-! ### Aliases -/

/-- The number of bindings that can be seen from a scope, shadowed ones included. -/
def reach (s : Scopes) (scope : Scope) : Nat :=
  scope.chain.foldl (fun n i => n + (s.frame i).length) 0

/-- Follows identifiers that are bound to identifiers, until a value of another sort, an unbound
name, or a name that was `seen` before. -/
def follow (s : Scopes) (scope : Scope) : Nat → List String → Value → Value
  | 0, _, v => v
  | fuel + 1, seen, v =>
    match v with
    | .ident name =>
      if seen.contains name then v
      else
        match s.lookup scope name with
        | some next => follow s scope fuel (name :: seen) next
        | none => v
    | v => v

/-- What a value stands for in a scope: an identifier stands for what it is bound to, an identifier
bound to an identifier for what that one stands for. -/
def resolve (s : Scopes) (scope : Scope) (v : Value) : Value :=
  match v with
  | .ident name =>
    match s.lookup scope name with
    | some (.ident next) => s.follow scope (s.reach scope + 1) [name] (.ident next)
    | some value => value
    | none => v
  | v => v

end Scopes

end DispatchLisp
