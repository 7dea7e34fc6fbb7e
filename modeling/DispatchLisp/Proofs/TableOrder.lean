import DispatchLisp.Proofs.Collections
import Mathlib.Data.List.Nodup

/-! # The entries of a table after a change

A table searches by place and keeps its entries in order; this module says what a change does to
the entries alone.  It rests on two facts.  No two entries are ever at the same place
(`Table.Placed`), so that a change at a place is a change of one entry.  And a key is the same as one
key of the table at most (`Table.Identifies`), so that the order of search does not matter.  Then
putting a key replaces the value of its entry or adds one at the end, and removing a key leaves all
other entries in order (`Table.Identifies.entries_put`, `entries_remove`). -/

namespace DispatchLisp

namespace Entries

/-- Sets the value of the entries whose key passes the test, or adds an entry if there is none. -/
def put (same : Value → Bool) (key value : Value) (es : Entries) : Entries :=
  if es.any fun e => same e.1 then es.map fun e => if same e.1 then (e.1, value) else e
  else es ++ [(key, value)]

/-- Removes the entries whose key passes the test. -/
def remove (same : Value → Bool) (es : Entries) : Entries := es.filter fun e => !same e.1

variable {same : Value → Bool} {key value : Value} {es : Entries}

theorem keys_put : (es.put same key value).map Prod.fst =
    es.map Prod.fst ++ if es.any fun e => same e.1 then [] else [key] := by
  unfold put
  split
  · rw [List.map_map, List.append_nil]
    refine List.map_congr_left fun e _ => ?_
    simp only [Function.comp]
    split <;> rfl
  · simp

/-- The entry of the key has the value. -/
theorem value_of_mem_put {e : Value × Value} (he : e ∈ es.put same key value)
    (hsame : same e.1 = true) : e.2 = value := by
  unfold put at he
  split at he
  case isTrue =>
    obtain ⟨e', -, rfl⟩ := List.mem_map.mp he
    grind
  case isFalse hnone =>
    rcases List.mem_append.mp he with hmem | hnew
    · exact absurd (List.any_eq_true.mpr ⟨e, hmem, hsame⟩) hnone
    · rw [List.mem_singleton.mp hnew]

/-- There is an entry of the key. -/
theorem exists_mem_put (hkey : same key = true) :
    ∃ e ∈ es.put same key value, same e.1 = true := by
  unfold put
  split
  case isTrue hany =>
    obtain ⟨e, he, hsame⟩ := List.any_eq_true.mp hany
    exact ⟨(e.1, value), List.mem_map.mpr ⟨e, he, if_pos hsame⟩, hsame⟩
  case isFalse => exact ⟨(key, value), by simp, hkey⟩

/-- The entries of other keys stay as they are. -/
theorem mem_put_iff {e : Value × Value} (hkey : same key = true) (he : same e.1 = false) :
    e ∈ es.put same key value ↔ e ∈ es := by
  unfold put
  split
  case isTrue =>
    rw [List.mem_map]
    constructor
    · rintro ⟨e', he', rfl⟩
      grind
    · intro hmem
      exact ⟨e, hmem, by simp [he]⟩
  case isFalse =>
    rw [List.mem_append, or_iff_left]
    rintro hnew
    rw [List.mem_singleton.mp hnew, hkey] at he
    cases he

end Entries

namespace Table

/-! ### Places -/

/-- Every entry has a place of its own, and no place that can be taken is an entry's. -/
structure Placed (table : Table) : Prop where
  distinct : (table.slots.toList.map Slot.place).Nodup
  free : ∀ r ∈ table.vacant, ∀ s ∈ table.slots, r.place ≠ s.place
  below : ∀ s ∈ table.slots, s.place < table.nextPlace
  freeBelow : ∀ r ∈ table.vacant, r.place < table.nextPlace

theorem placed_empty (room : Nat) : Placed { room := room } := ⟨.nil, by simp, by simp, by simp⟩

namespace Placed

variable {table : Table} (hp : table.Placed)
include hp

theorem eq_of_place {s s' : Slot} (hs : s ∈ table.slots) (hs' : s' ∈ table.slots)
    (hplace : s.place = s'.place) : s = s' :=
  List.inj_on_of_nodup_map hp.distinct (by simpa using hs) (by simpa using hs') hplace

theorem makeRoom : table.makeRoom.Placed := by
  rw [Table.makeRoom]
  split
  · exact hp
  · exact ⟨hp.distinct, by simp, hp.below, by simp⟩

/-- A new entry takes a place that is free. -/
theorem push {slot : Slot} (hfree : ∀ s ∈ table.slots, s.place ≠ slot.place) :
    ((table.slots.push slot).toList.map Slot.place).Nodup := by
  rw [Array.toList_push, List.map_append]
  refine hp.distinct.append (List.nodup_singleton _) fun place hplace hnew => ?_
  obtain ⟨s, hs, rfl⟩ := List.mem_map.mp hplace
  exact hfree s (by simpa using hs) (List.mem_singleton.mp hnew)

theorem add (t : KeyTest) (key value : Value) : (table.add t key value).Placed := by
  unfold Table.add
  dsimp only
  split
  case h_1 left hleft =>
    have hmem := (Slot.mem_of_first? hleft).1
    have hfree := hp.free left hmem
    refine ⟨hp.push fun s hs => (hfree s hs).symm, ?_, ?_, ?_⟩
    · intro r hr s hs
      obtain ⟨hr, hother⟩ : r ∈ table.vacant ∧ r.place ≠ left.place := by simpa using hr
      rcases Array.mem_push.mp hs with hs | rfl
      · exact hp.free r hr s hs
      · exact hother
    · intro s hs
      rcases Array.mem_push.mp hs with hs | rfl
      · exact hp.below s hs
      · exact hp.freeBelow left hmem
    · intro r hr
      exact hp.freeBelow r (Array.mem_filter.mp hr).1
  case h_2 =>
    refine ⟨hp.push fun s hs => Nat.ne_of_lt (hp.below s hs), ?_, ?_, ?_⟩
    · intro r hr s hs
      rcases Array.mem_push.mp hs with hs | rfl
      · exact hp.free r hr s hs
      · exact Nat.ne_of_lt (hp.freeBelow r hr)
    · intro s hs
      rcases Array.mem_push.mp hs with hs | rfl
      · exact Nat.lt_succ_of_lt (hp.below s hs)
      · exact Nat.lt_succ_self _
    · intro r hr
      exact Nat.lt_succ_of_lt (hp.freeBelow r hr)

theorem setAt (place : Nat) (value : Value) : (table.setAt place value).Placed := by
  have hplace (s : Slot) : (if s.place = place then { s with value } else s).place = s.place := by
    split <;> rfl
  refine ⟨?_, ?_, ?_, hp.freeBelow⟩
  · simp only [Table.setAt, Array.toList_map, List.map_map, Function.comp_def, hplace]
    exact hp.distinct
  · intro r hr s' hs'
    obtain ⟨s, hs, rfl⟩ := Array.mem_map.mp hs'
    rw [hplace]
    exact hp.free r hr s hs
  · intro s' hs'
    obtain ⟨s, hs, rfl⟩ := Array.mem_map.mp hs'
    rw [hplace]
    exact hp.below s hs

theorem vacate (t : KeyTest) {slot : Slot} (hslot : slot ∈ table.slots) :
    (table.vacate t slot).Placed := by
  have hrest :
      ((table.slots.filter fun s => s.place != slot.place).toList.map Slot.place).Nodup := by
    rw [Array.toList_filter]
    exact hp.distinct.sublist (List.filter_sublist.map _)
  unfold Table.vacate
  dsimp only
  split
  · refine ⟨hrest, ?_, ?_, ?_⟩
    · intro r hr s hs
      obtain ⟨hs, hother⟩ : s ∈ table.slots ∧ s.place ≠ slot.place := by simpa using hs
      rcases Array.mem_push.mp hr with hr | rfl
      · exact hp.free r hr s hs
      · exact hother.symm
    · intro s hs
      exact hp.below s (Array.mem_filter.mp hs).1
    · intro r hr
      rcases Array.mem_push.mp hr with hr | rfl
      · exact hp.freeBelow r hr
      · exact hp.below r hslot
  · refine ⟨hrest, ?_, ?_, hp.freeBelow⟩
    · intro r hr s hs
      exact hp.free r hr s (Array.mem_filter.mp hs).1
    · intro s hs
      exact hp.below s (Array.mem_filter.mp hs).1

theorem put (t : KeyTest) (key value : Value) : (table.put t key value).Placed := by
  unfold Table.put
  dsimp only
  split
  · exact hp.makeRoom.setAt _ _
  · exact hp.makeRoom.add t key value

theorem remove (t : KeyTest) (key : Value) : (table.remove t key).Placed := by
  rw [Table.remove]
  split
  case h_1 slot hslot => exact hp.vacate t (Slot.mem_of_first? hslot).1
  case h_2 => exact hp

end Placed

/-- It does not matter by which of two keys an entry is removed, if the table cannot tell them
apart. -/
theorem remove_congr {table : Table} {t : KeyTest} {key key' : Value}
    (hequal : ∀ s ∈ table.slots, t.equal key s.key = t.equal key' s.key)
    (hdigest : t.digest key = t.digest key') : table.remove t key = table.remove t key' := by
  have hfirst : Slot.first? (table.lookupTest t key) table.slots =
      Slot.first? (table.lookupTest t key') table.slots := by
    refine Slot.first?_congr fun s hs => ?_
    unfold lookupTest KeyTest.same KeyTest.alike
    split
    · exact hequal s hs
    · simp only [hequal s hs, hdigest]
  rw [remove, remove, hfirst]

/-! ### Entries -/

/-- The keys of the table that the test finds to be the same as a key are those that pass `same`,
and there is one at most. -/
structure Identifies (table : Table) (t : KeyTest) (key : Value) (same : Value → Bool) : Prop where
  equal : ∀ s ∈ table.slots, t.equal key s.key = same s.key
  digest : ∀ s ∈ table.slots, same s.key = true → t.digest key = t.digest s.key
  unique : ∀ s ∈ table.slots, ∀ s' ∈ table.slots, same s.key = true → same s'.key = true → s = s'

namespace Identifies

variable {table : Table} {t : KeyTest} {key : Value} {same : Value → Bool}

theorem any_eq_false (h : ∀ s ∈ table.slots, same s.key = false) :
    (table.entries.any fun e => same e.1) = false := by
  rw [List.any_eq_false]
  intro e he
  obtain ⟨s, hs, rfl⟩ := List.mem_map.mp he
  simpa [Slot.entry] using h s (by simpa using hs)

variable (hi : table.Identifies t key same)
include hi

theorem same_eq {s : Slot} (hs : s ∈ table.slots) : t.same key s.key = same s.key := by
  rw [KeyTest.same, KeyTest.alike, hi.equal s hs]
  cases hsame : same s.key with
  | false => rfl
  | true => simp [hi.digest s hs hsame]

theorem lookupTest_eq {s : Slot} (hs : s ∈ table.slots) :
    table.lookupTest t key s.key = same s.key := by
  rw [lookupTest]
  split
  · exact hi.equal s hs
  · exact hi.same_eq hs

theorem entries_put (hp : table.Placed) (value : Value) :
    (table.put t key value).entries = table.entries.put same key value := by
  have hslots : table.makeRoom.slots = table.slots := by
    rw [makeRoom]
    split <;> rfl
  rw [put, hslots]
  split
  case h_1 s hs =>
    obtain ⟨hmem, htest⟩ := Slot.mem_of_first? hs
    rw [hi.same_eq hmem] at htest
    have hany : (table.entries.any fun e => same e.1) = true :=
      List.any_eq_true.mpr ⟨s.entry, mem_entries hmem, htest⟩
    rw [Entries.put, if_pos hany]
    simp only [setAt, entries, hslots, Array.toList_map, List.map_map]
    refine List.map_congr_left fun s' hs' => ?_
    have hs' : s' ∈ table.slots := by simpa using hs'
    by_cases hplace : s'.place = s.place
    · obtain rfl := hp.eq_of_place hs' hmem hplace
      simp [Slot.entry, htest]
    · have hsame : same s'.key = false := by
        by_contra htrue
        exact hplace (by rw [hi.unique s' hs' s hmem (by simpa using htrue) htest])
      simp [Slot.entry, hplace, hsame]
  case h_2 hnone =>
    have hall := Slot.first?_eq_none_iff.mp hnone
    have hany := any_eq_false fun s hs => (hi.same_eq hs).symm.trans (hall s hs)
    rw [entries_add, entries_makeRoom, Entries.put, hany]
    rfl

theorem entries_remove (hp : table.Placed) :
    (table.remove t key).entries = table.entries.remove same := by
  rw [remove]
  split
  case h_1 slot hslot =>
    obtain ⟨hmem, htest⟩ := Slot.mem_of_first? hslot
    rw [hi.lookupTest_eq hmem] at htest
    rw [entries_vacate, Entries.remove, entries, List.filter_map]
    congr 1
    refine List.filter_congr fun s hs => ?_
    have hs : s ∈ table.slots := by simpa using hs
    by_cases hplace : s.place = slot.place
    · obtain rfl := hp.eq_of_place hs hmem hplace
      simp [Slot.entry, htest]
    · have hsame : same s.key = false := by
        by_contra htrue
        exact hplace (by rw [hi.unique s hs slot hmem (by simpa using htrue) htest])
      simp [Slot.entry, hplace, hsame]
  case h_2 hnone =>
    have hall := Slot.first?_eq_none_iff.mp hnone
    have hany := any_eq_false fun s hs => (hi.lookupTest_eq hs).symm.trans (hall s hs)
    rw [Entries.remove, List.filter_eq_self.mpr]
    intro e he
    simpa using List.any_eq_false.mp hany e he

end Identifies

end Table

end DispatchLisp
