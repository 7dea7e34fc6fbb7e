/-! # Queues

A sequence of items that is cheap to extend at its end: the newest items are kept apart, last one
first.  `toList` is the sequence that a queue stands for. -/

namespace DispatchLisp

/-- A sequence of items. -/
structure Queue (α : Type) where
  /-- The items at the front, in order. -/
  front : List α := []
  /-- The items at the back, in the opposite order. -/
  back : List α := []
deriving Repr, Inhabited

namespace Queue

variable {α : Type}

/-- The queue with the given items. -/
def ofList (items : List α) : Queue α := ⟨items, []⟩

/-- The items of a queue. -/
def toList (q : Queue α) : List α :=
  match q.back with
  | [] => q.front
  | back => q.front ++ back.reverse

/-- The number of items. -/
def length (q : Queue α) : Nat := q.front.length + q.back.length

/-- Adds an item at the end. -/
def push (q : Queue α) (a : α) : Queue α := { q with back := a :: q.back }

theorem toList_eq (q : Queue α) : q.toList = q.front ++ q.back.reverse := by
  rw [toList]
  split <;> simp [*]

@[simp] theorem toList_ofList (items : List α) : (ofList items).toList = items := rfl

@[simp] theorem toList_push (q : Queue α) (a : α) : (q.push a).toList = q.toList ++ [a] := by
  simp [toList_eq, push]

@[simp] theorem length_toList (q : Queue α) : q.toList.length = q.length := by
  simp [toList_eq, length]

end Queue

end DispatchLisp
