import DispatchLisp.Lock
import DispatchLisp.Queue
import DispatchLisp.Table

/-! # The heap

Lists, tables and locks live at addresses in the heap, one array for each sort.  A list is the
sequence of its items.  A table is the sequence of its entries in the order in which their keys were
first put.

Addresses are handed out by the heap itself (`newList`, `newTable`, `newLock`), so a read at an
address that was never handed out has no meaning; it gives an empty collection or a free lock. -/

namespace DispatchLisp

/-- The collections and locks that values refer to. -/
structure Heap where
  lists : Array (Queue Value) := #[]
  tables : Array Table := #[]
  locks : Array Lock := #[]
deriving Repr, Inhabited

namespace Heap

/-! ### Lists -/

/-- The items of the list at an address. -/
def items (h : Heap) (address : Nat) : List Value := (h.lists.getD address {}).toList

/-- The number of items of the list at an address. -/
def itemCount (h : Heap) (address : Nat) : Nat := (h.lists.getD address {}).length

/-- A new list with the given items. -/
def newList (h : Heap) (items : List Value) : Value × Heap :=
  (.list h.lists.size, { h with lists := h.lists.push (.ofList items) })

theorem items_newList (h : Heap) (items : List Value) :
    (h.newList items).2.items h.lists.size = items := by
  simp [newList, Heap.items]

/-- Replaces the items of a list. -/
def setItems (h : Heap) (address : Nat) (items : List Value) : Heap :=
  { h with lists := h.lists.setIfInBounds address (.ofList items) }

/-- Adds an item to a list. -/
def addItem (h : Heap) (address : Nat) (item : Value) : Heap :=
  { h with lists := h.lists.modify address (·.push item) }

/-! ### Tables -/

/-- The table at an address. -/
def tableAt (h : Heap) (address : Nat) : Table := h.tables.getD address {}

/-- The entries of the table at an address. -/
def entries (h : Heap) (address : Nat) : Entries := (h.tableAt address).entries

/-- A new table. -/
def newTable (h : Heap) (table : Table) : Value × Heap :=
  (.table h.tables.size, { h with tables := h.tables.push table })

/-- Replaces the table at an address. -/
def setTable (h : Heap) (address : Nat) (table : Table) : Heap :=
  { h with tables := h.tables.setIfInBounds address table }

/-! ### Locks -/

/-- The lock at an address. -/
def lockAt (h : Heap) (address : Nat) : Lock := h.locks.getD address {}

/-- A new lock. -/
def newLock (h : Heap) (lock : Lock) : Value × Heap :=
  (.lock h.locks.size, { h with locks := h.locks.push lock })

/-- Replaces the lock at an address. -/
def setLock (h : Heap) (address : Nat) (lock : Lock) : Heap :=
  { h with locks := h.locks.setIfInBounds address lock }

/-- The number of collections; nothing is nested deeper unless it contains itself. -/
def nesting (h : Heap) : Nat := h.lists.size + h.tables.size + 1

end Heap

end DispatchLisp
