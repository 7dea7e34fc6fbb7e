import DispatchLisp.Error
import DispatchLisp.Heap.Equality
import DispatchLisp.Heap.Printer

/-! # Computations on the heap

`HeapM` is the monad of computations that read and change the heap and may fail.  What a computation
did before it failed stays done. -/

namespace DispatchLisp

/-- A computation on the heap that may fail. -/
abbrev HeapM := ExceptT Error (StateM Heap)

namespace HeapM

variable {α : Type}

/-- Fails with an unwrapped error. -/
def fail (c : Cause) : HeapM α := fun h => (.error (.base c), h)

/-- Reads the heap. -/
def reads (f : Heap → α) : HeapM α := fun h => (.ok (f h), h)

/-- Changes the heap. -/
def modify (f : Heap → Heap) : HeapM Unit := fun h => (.ok (), f h)

/-- Changes the heap and gives a value. -/
def update (f : Heap → α × Heap) : HeapM α := fun h =>
  let (a, h) := f h
  (.ok a, h)

/-- A new list. -/
def newList (items : List Value) : HeapM Value := update (·.newList items)

/-- The items of a list. -/
def items (address : Nat) : HeapM (List Value) := reads (·.items address)

/-- The text of a value. -/
def print (v : Value) : HeapM String := reads (·.print v)

/-- What follows a computation that gives a value. -/
theorem bind_ok {β : Type} {m : HeapM α} {f : α → HeapM β} {h h' : Heap} {a : α}
    (hm : m h = (.ok a, h')) : (m >>= f) h = f a h' := by
  change ExceptT.bindCont f (m h).1 (m h).2 = f a h'
  rw [hm]
  rfl

/-- Nothing follows a computation that fails. -/
theorem bind_error {β : Type} {m : HeapM α} {f : α → HeapM β} {h h' : Heap} {e : Error}
    (hm : m h = (.error e, h')) : (m >>= f) h = (.error e, h') := by
  change ExceptT.bindCont f (m h).1 (m h).2 = (.error e, h')
  rw [hm]
  rfl

end HeapM

end DispatchLisp
