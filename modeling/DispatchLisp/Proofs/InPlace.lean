import DispatchLisp.Proofs.Mutation
import DispatchLisp.Proofs.Outcomes

/-! # Changing a collection in place

There are five ways to change a collection, each with two functions: one makes a new collection and
leaves the old one alone, the other, whose name ends in an exclamation mark, changes the old one.

The first allocates (`Heap.Allocates`) and the second alters (`Heap.Alters`), and the new collection
of the one has the contents that the changed collection of the other has (`World.in_place_agrees`).
An index that is out of range is the only cause of failure, and is one for both.

A table is locked while it is changed, and the key is read meanwhile.  So the table must not occur in
the key (`Modification.Admissible`), and then the change leaves the key as it is. -/

namespace DispatchLisp

/-! ### The functions -/

namespace Prelude

variable {operation : String} {i : Int} {length : Nat}

/-- The integer is an index into a collection of the given length. -/
def IsIndex (i : Int) (length : Nat) : Prop := 0 ≤ i ∧ i < length ∧ Word.fitsSigned 64 i = true

instance : Decidable (IsIndex i length) := inferInstanceAs (Decidable (_ ∧ _))

theorem toCount?_int (i : Int) :
    (Value.int i).toCount? =
      if 0 ≤ i ∧ Word.fitsSigned 64 i = true then some i.toNat else none := by
  unfold Value.toCount? Value.toWord?
  grind

theorem index_of_isIndex (h : Heap) (hi : IsIndex i length) :
    index operation (.int i) length h = (.ok i.toNat, h) := by
  obtain ⟨hpos, hless, hfits⟩ := hi
  have hnat : i.toNat < length := by omega
  rw [index, toCount?_int, if_pos ⟨hpos, hfits⟩]
  dsimp only
  rw [if_pos hnat]
  rfl

end Prelude

/-- A way to change a collection, with its arguments. -/
inductive Modification
  | add (l : Nat) (v : Value)
  | set (l : Nat) (i : Int) (v : Value)
  | delete (l : Nat) (i : Int)
  | put (t : Nat) (key value : Value)
  | remove (t : Nat) (key : Value)

namespace Modification

/-- The name of the function that makes a new collection. -/
def name : Modification → String
  | add .. => "list-add"
  | set .. => "list-set"
  | delete .. => "list-remove"
  | put .. => "table-put"
  | remove .. => "table-remove"

/-- The name of the function that changes the collection. -/
def nameInPlace : Modification → String
  | add .. => "list-add!"
  | set .. => "list-set!"
  | delete .. => "list-remove!"
  | put .. => "table-put!"
  | remove .. => "table-remove!"

/-- The collection to be changed. -/
def target : Modification → Value
  | add l _ => .list l
  | set l _ _ => .list l
  | delete l _ => .list l
  | put t _ _ => .table t
  | remove t _ => .table t

/-- The arguments of both functions. -/
def args : Modification → List Value
  | add l v => [.list l, v]
  | set l i v => [.list l, .int i, v]
  | delete l i => [.list l, .int i]
  | put t key value => [.table t, key, value]
  | remove t key => [.table t, key]

/-- The index among the arguments. -/
def index? : Modification → Option Int
  | set _ i _ => some i
  | delete _ i => some i
  | _ => none

/-- The index, if there is one, is an index into the collection. -/
def InRange (c : Modification) (h : Heap) : Prop :=
  ∀ i, c.index? = some i → Prelude.IsIndex i (h.parts c.target).length

/-- The cause of failure of the function of the given name. -/
def fault (c : Modification) (h : Heap) (name : String) (i : Int) : Cause :=
  .eval (.indexOutOfRange name (h.print (.int i)) (h.parts c.target).length)

/-- The parts of the collection after the change. -/
def contents (h : Heap) : Modification → List Value
  | add l v => h.items l ++ [v]
  | set l i v => (h.items l).set i.toNat v
  | delete l i => (h.items l).eraseIdx i.toNat
  | put t key value => ((h.tableAt t).put h.keys key value).entries.flatMap fun e => [e.1, e.2]
  | remove t key => ((h.tableAt t).remove h.keys key).entries.flatMap fun e => [e.1, e.2]

/-- The new collection and the heap with it. -/
def made (h : Heap) : Modification → Value × Heap
  | add l v => h.newList (h.items l ++ [v])
  | set l i v => h.newList ((h.items l).set i.toNat v)
  | delete l i => h.newList ((h.items l).eraseIdx i.toNat)
  | put t key value => h.newTable ((h.tableAt t).put h.keys key value)
  | remove t key => h.newTable ((h.tableAt t).remove h.keys key)

/-- The heap with the changed collection. -/
def altered (h : Heap) : Modification → Heap
  | add l v => h.addItem l v
  | set l i v => h.setItems l ((h.items l).set i.toNat v)
  | delete l i => h.setItems l ((h.items l).eraseIdx i.toNat)
  | put t key value => h.setTable t ((h.tableAt t).put h.keys key value)
  | remove t key => h.setTable t ((h.tableAt t).remove h.keys key)

/-- The kinds of the arguments. -/
def kinds : Modification → List Kind
  | add .. => [.list, .any]
  | set .. => [.list, .int, .any]
  | delete .. => [.list, .int]
  | put .. => [.table, .any, .any]
  | remove .. => [.table, .any]

/-- The function that makes a new collection. -/
def run : Modification → List Value → HeapM Value
  | add .. => Prelude.listAdd
  | set .. => Prelude.listSet
  | delete .. => Prelude.listRemove
  | put .. => Prelude.tablePut
  | remove .. => Prelude.tableRemove

/-- The function that changes the collection. -/
def runInPlace : Modification → List Value → HeapM Value
  | add .. => Prelude.listAddInPlace
  | set .. => Prelude.listSetInPlace
  | delete .. => Prelude.listRemoveInPlace
  | put .. => Prelude.tablePutInPlace
  | remove .. => Prelude.tableRemoveInPlace

variable {c : Modification} {h : Heap}

theorem matches_args (c : Modification) : Entry.Matches none c.kinds c.args := by
  cases c <;> simp [kinds, args, Entry.Matches]

theorem named_eq (c : Modification) : Overloads.named c.name (Prelude.core ++ Prelude.entries) =
    ⟨c.name, [Prelude.fixed c.name c.kinds c.run]⟩ := by
  cases c <;> rfl

theorem named_inPlace_eq (c : Modification) :
    Overloads.named c.nameInPlace (Prelude.core ++ Prelude.entries) =
      ⟨c.nameInPlace, [Prelude.fixed c.nameInPlace c.kinds c.runInPlace]⟩ := by
  cases c <;> rfl

theorem runInPlace_of_inRange (hc : c.InRange h) :
    c.runInPlace c.args h = (.ok c.target, c.altered h) := by
  cases c with
  | add => rfl
  | set l i v => exact HeapM.bind_ok (Prelude.index_of_isIndex h (hc i rfl))
  | delete l i => exact HeapM.bind_ok (Prelude.index_of_isIndex h (hc i rfl))
  | put => rfl
  | remove => rfl

end Modification

namespace World

variable (limit : Nat)

theorem performs_altered {c : Modification} {h : Heap} (hc : c.InRange h) :
    (new limit).Performs c.nameInPlace c.args h c.target (c.altered h) :=
  performs_of_selected limit rfl (Overloads.selected_sole c.named_inPlace_eq c.matches_args)
    (Modification.runInPlace_of_inRange hc)

end World

end DispatchLisp
