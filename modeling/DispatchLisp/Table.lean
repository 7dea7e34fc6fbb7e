import DispatchLisp.Digest

/-! # Tables

A table is a sequence of entries, each a key with its value, in the order in which the keys were
first put (`entries`).  The operations take a test of keys as an argument, since it depends on the
heap which values are the same key.

Two values are the same key if they are equal and have like digests.  Digests are not looked at when
a key is looked for in a table with a single entry.

**Places.**  Equality of reals is not transitive, so that a key may be the same as two keys of a
table.  Then the order of search decides, which is not always the order of the entries.  Every entry
has a place, and a search meets the entries by their places (`Slot.first?`).  A new key goes behind
all others, unless a key with the same digest was removed before: then it takes the place that was
left (`vacant`).

**Room.**  A table has room for a number of entries.  When a key is put into a full table, it moves
into the next larger room, and places that are not taken are given up (`makeRoom`). -/

namespace DispatchLisp

/-- Entries, each a key with its value. -/
abbrev Entries := List (Value × Value)

/-- How keys are compared. -/
structure KeyTest where
  /-- The two values are equal. -/
  equal : Value → Value → Bool
  /-- What stands for a value in a search. -/
  digest : Value → Digest

namespace KeyTest

/-- The two values have the same digest. -/
def alike (t : KeyTest) (a b : Value) : Bool := t.digest a == t.digest b

/-- The two values are the same key. -/
def same (t : KeyTest) (a b : Value) : Bool := t.equal a b && t.alike a b

end KeyTest

/-! ### Slots -/

/-- An entry of a table with its place in the order of search. -/
structure Slot where
  key : Value
  value : Value
  place : Nat
deriving Repr, Inhabited

namespace Slot

/-- The entry in a slot. -/
def entry (s : Slot) : Value × Value := (s.key, s.value)

/-- The slot to keep of one that was found before and a next one: the next one if it comes first in
the order of search and its key passes the test. -/
def nearest (test : Value → Bool) (found : Option Slot) (s : Slot) : Option Slot :=
  if found.all (fun f => s.place < f.place) && test s.key then some s else found

/-- The slot with the first key in the order of search that passes a test. -/
def first? (test : Value → Bool) (slots : Array Slot) : Option Slot :=
  slots.foldl (nearest test) none

theorem foldl_nearest_eq_none {test : Value → Bool} {slots : List Slot} {found : Option Slot} :
    slots.foldl (nearest test) found = none ↔
      found = none ∧ ∀ s ∈ slots, test s.key = false := by
  induction slots generalizing found with
  | nil => simp
  | cons s rest ih =>
    rw [List.foldl_cons, ih]
    cases found <;> grind [nearest]

theorem foldl_nearest_eq_some {test : Value → Bool} {slots : List Slot} {found : Option Slot}
    {r : Slot} (h : slots.foldl (nearest test) found = some r) :
    found = some r ∨ r ∈ slots ∧ test r.key = true := by
  induction slots generalizing found with
  | nil => exact .inl h
  | cons s rest ih =>
    rw [List.foldl_cons] at h
    have := ih h
    grind [nearest]

/-- A search finds nothing if and only if no key passes the test. -/
theorem first?_eq_none_iff {test : Value → Bool} {slots : Array Slot} :
    first? test slots = none ↔ ∀ s ∈ slots, test s.key = false := by
  rw [first?, ← Array.foldl_toList, foldl_nearest_eq_none]
  simp

/-- What a search finds is one of the slots, and its key passes the test. -/
theorem mem_of_first? {test : Value → Bool} {slots : Array Slot} {s : Slot}
    (h : first? test slots = some s) : s ∈ slots ∧ test s.key = true := by
  rw [first?, ← Array.foldl_toList] at h
  simpa using foldl_nearest_eq_some h

end Slot

/-! ### Tables -/

/-- A table. -/
structure Table where
  /-- The slots of the entries, in the order in which their keys were first put. -/
  slots : Array Slot := #[]
  /-- Slots of removed entries, whose places may be taken again. -/
  vacant : Array Slot := #[]
  /-- The place behind all places. -/
  nextPlace : Nat := 0
  /-- The number of entries there is room for. -/
  room : Nat := 0
deriving Repr, Inhabited

namespace Table

/-- The entries of a table. -/
def entries (table : Table) : Entries := table.slots.toList.map Slot.entry

/-- The number of entries. -/
def size (table : Table) : Nat := table.slots.size

/-- The test by which a key is looked for in a table. -/
def lookupTest (t : KeyTest) (key : Value) (table : Table) : Value → Bool :=
  if table.size = 1 then t.equal key else t.same key

/-- The value at a key. -/
def find? (t : KeyTest) (key : Value) (table : Table) : Option Value :=
  (Slot.first? (table.lookupTest t key) table.slots).map Slot.value

/-! ### Room -/

/-- The room that follows a room in size: 3, 7, and then always the double. -/
def nextRoom (room : Nat) : Nat := if room < 3 then 3 else if room < 7 then 7 else 2 * room

/-- The smallest room for `n` entries that is not smaller than a given one, found in at most `steps`
steps. -/
def roomWithin (n : Nat) : Nat → Nat → Nat
  | 0, room => room
  | steps + 1, room => if n ≤ room then room else roomWithin n steps (nextRoom room)

/-- The smallest room for `n` entries. -/
def roomFor (n : Nat) : Nat := roomWithin n n 0

/-- Moves a full table into the next larger room, where only the places of entries are kept. -/
def makeRoom (table : Table) : Table :=
  if table.size < table.room then table
  else { table with vacant := #[], room := nextRoom table.room }

/-! ### Changing -/

/-- Adds an entry for a key that the table does not have: at the first place that a key with the
same digest has left, or else behind all others. -/
def add (t : KeyTest) (key value : Value) (table : Table) : Table :=
  let digest := t.digest key
  match Slot.first? (fun k => t.digest k == digest) table.vacant with
  | some left =>
    { table with
      slots := table.slots.push ⟨key, value, left.place⟩
      vacant := table.vacant.filter fun s => s.place != left.place }
  | none =>
    { table with
      slots := table.slots.push ⟨key, value, table.nextPlace⟩
      nextPlace := table.nextPlace + 1 }

/-- Sets the value of the entry at a place. -/
def setAt (place : Nat) (value : Value) (table : Table) : Table :=
  { table with
    slots := table.slots.map fun s => if s.place = place then { s with value } else s }

/-- Sets the value at a key.  A key that is present keeps its place and its first spelling; a new
key goes to the end of the entries. -/
def put (t : KeyTest) (key value : Value) (table : Table) : Table :=
  let table := table.makeRoom
  match Slot.first? (t.same key) table.slots with
  | some s => table.setAt s.place value
  | none => table.add t key value

/-- Removes the entry in a slot; the other entries keep their order.  Its place is kept free if a
key with the same digest comes after it in the order of search: otherwise a new one would come last
in any case. -/
def vacate (t : KeyTest) (slot : Slot) (table : Table) : Table :=
  let rest := table.slots.filter fun s => s.place != slot.place
  let digest := t.digest slot.key
  if rest.any fun s => slot.place < s.place && t.digest s.key == digest then
    { table with slots := rest, vacant := table.vacant.push slot }
  else { table with slots := rest }

/-- Removes a key. -/
def remove (t : KeyTest) (key : Value) (table : Table) : Table :=
  match Slot.first? (table.lookupTest t key) table.slots with
  | some slot => table.vacate t slot
  | none => table

/-- A table with room for the given pairs, and with their keys and values put one after the
other. -/
def ofPairs (t : KeyTest) (pairs : Entries) : Table :=
  pairs.foldl (fun table (key, value) => table.put t key value)
    { room := roomFor pairs.length }

/-! ### The entries after a change -/

@[simp] theorem entries_makeRoom (table : Table) : table.makeRoom.entries = table.entries := by
  rw [makeRoom]
  split <;> rfl

@[simp] theorem entries_add (t : KeyTest) (key value : Value) (table : Table) :
    (table.add t key value).entries = table.entries ++ [(key, value)] := by
  rw [add]
  split <;> simp [entries, Slot.entry]

theorem entries_vacate (t : KeyTest) (slot : Slot) (table : Table) :
    (table.vacate t slot).entries =
      (table.slots.toList.filter fun s => s.place != slot.place).map Slot.entry := by
  rw [vacate]
  split <;> simp [entries]

@[simp] theorem length_entries (table : Table) : table.entries.length = table.size := by
  simp [entries, size]

end Table

end DispatchLisp
