import DispatchLisp.Proofs.Equality
import DispatchLisp.Proofs.InPlace
import DispatchLisp.Proofs.NumberText
import DispatchLisp.Proofs.TableOrder

/-! # Tables are maps in the order of insertion

A table is what the changes of its history have made of it.  The history alone says which value a
key has (`Heap.latest?`: what the last change of an equal key has set) and which keys there are, in
which order (`Heap.presentKeys`: those that were put when they were absent and have not been removed
since).

`Heap.Tracks` says that a table is as its history says.  One change keeps it (`Heap.Tracks.apply`),
and so every history does (`World.TableHistory.tracks`).  Other things may happen between the
changes, as long as they leave the table and its keys alone.  Then all keys are compared as they are
in the heap at the end, whatever the heap was when they were put. -/

namespace DispatchLisp

/-- A change of a table. -/
inductive TableChange
  | put (key value : Value)
  | remove (key : Value)

namespace TableChange

/-- The key that is changed. -/
def key : TableChange → Value
  | put key _ => key
  | remove key => key

/-- The value that the key has then. -/
def value? : TableChange → Option Value
  | put _ value => some value
  | remove _ => none

/-- The change does not remove the key. -/
def spares (h : Heap) (c : TableChange) (key : Value) : Bool :=
  c.value?.isSome || !h.equal c.key key

@[simp] theorem spares_put (h : Heap) (key value : Value) :
    (put key value).spares h = fun _ => true := rfl

@[simp] theorem spares_remove (h : Heap) (key : Value) :
    (remove key).spares h = fun k => !h.equal key k := rfl

/-- The function that makes the change. -/
def name : TableChange → String
  | put .. => "table-put!"
  | remove .. => "table-remove!"

/-- The arguments of the function. -/
def args (t : Nat) : TableChange → List Value
  | put key value => [.table t, key, value]
  | remove key => [.table t, key]

/-- The table after the change. -/
def apply (test : KeyTest) : TableChange → Table → Table
  | put key value, table => table.put test key value
  | remove key, table => table.remove test key

end TableChange

namespace Heap

/-! ### What a history says -/

variable (h : Heap)

/-- The value that the last change of an equal key has set. -/
def latest? (changes : List TableChange) (key : Value) : Option Value :=
  (changes.reverse.find? fun c => h.equal c.key key).bind TableChange.value?

/-- The key that is put by a change, if it was absent before and has not been removed since. -/
def firstPut? (changes : List TableChange) (i : Nat) : Option Value :=
  match changes[i]? with
  | some (.put key _) =>
    if (h.latest? (changes.take i) key).isNone && (changes.drop (i + 1)).all (·.spares h key)
    then some key else none
  | _ => none

/-- The keys that there are, in the order in which they were first put since they were absent. -/
def presentKeys (changes : List TableChange) : List Value :=
  (List.range changes.length).filterMap (h.firstPut? changes)

variable {h} {changes : List TableChange} {c : TableChange}

theorem latest?_concat (k : Value) :
    h.latest? (changes ++ [c]) k = if h.equal c.key k then c.value? else h.latest? changes k := by
  rw [latest?, List.reverse_append, List.reverse_singleton, List.singleton_append, List.find?_cons]
  cases h.equal c.key k <;> rfl

theorem firstPut?_concat {i : Nat} (hi : i < changes.length) :
    h.firstPut? (changes ++ [c]) i = (h.firstPut? changes i).filter (c.spares h) := by
  unfold firstPut?
  rw [List.getElem?_append_left hi, List.take_append_of_le_length (Nat.le_of_lt hi),
    List.drop_append_of_le_length hi]
  split
  · simp only [List.all_append, List.all_cons, List.all_nil, Bool.and_true, ← Bool.and_assoc]
    grind
  · rfl

theorem firstPut?_last :
    h.firstPut? (changes ++ [c]) changes.length =
      if (h.latest? changes c.key).isNone then c.value?.map fun _ => c.key else none := by
  unfold firstPut?
  rw [List.getElem?_concat_length]
  cases c with
  | put key value => simp [TableChange.key, TableChange.value?]
  | remove key => simp [TableChange.value?]

theorem presentKeys_concat :
    h.presentKeys (changes ++ [c]) = (h.presentKeys changes).filter (c.spares h) ++
      (h.firstPut? (changes ++ [c]) changes.length).toList := by
  rw [presentKeys, List.length_append, List.length_singleton, List.range_succ,
    List.filterMap_append, presentKeys, List.filter_filterMap]
  congr 1
  exact List.filterMap_congr fun i hi => firstPut?_concat (List.mem_range.mp hi)

theorem presentKeys_put (key value : Value) :
    h.presentKeys (changes ++ [.put key value]) =
      h.presentKeys changes ++ if (h.latest? changes key).isNone then [key] else [] := by
  rw [presentKeys_concat, firstPut?_last, TableChange.spares_put, List.filter_true]
  split <;> simp_all [TableChange.key, TableChange.value?]

theorem presentKeys_remove (key : Value) :
    h.presentKeys (changes ++ [.remove key]) =
      (h.presentKeys changes).filter fun k => !h.equal key k := by
  rw [presentKeys_concat, firstPut?_last]
  simp [TableChange.value?]

/-- The keys are among those that were put. -/
theorem mem_presentKeys {k : Value} (hk : k ∈ h.presentKeys changes) :
    ∃ c ∈ changes, c.key = k := by
  obtain ⟨i, -, hi⟩ := List.mem_filterMap.mp hk
  unfold firstPut? at hi
  split at hi
  case h_1 key value hget =>
    obtain ⟨-, hkey⟩ := Option.ite_none_right_eq_some.mp hi
    exact ⟨_, List.mem_of_getElem? hget, Option.some.inj hkey⟩
  case h_2 => cases hi

/-! ### Tables with a history -/

/-- The table is as its history says, keys being compared as in the heap. -/
structure Tracks (h : Heap) (p : Value → Prop) (changes : List TableChange) (table : Table) :
    Prop where
  placed : table.Placed
  keys : table.entries.map Prod.fst = h.presentKeys changes
  apart : (h.presentKeys changes).Pairwise fun k k' => h.equal k k' = false
  values : ∀ k, p k → ∀ v, h.latest? changes k = some v ↔
    ∃ e ∈ table.entries, h.equal k e.1 = true ∧ e.2 = v

theorem tracks_empty (h : Heap) (p : Value → Prop) (room : Nat) :
    h.Tracks p [] { room := room } where
  placed := Table.placed_empty room
  keys := rfl
  apart := .nil
  values k _ v := by simp [latest?, Table.entries]

namespace Tracks

variable {h : Heap} {p q : Value → Prop} {changes : List TableChange} {table : Table}
  (ht : h.Tracks p changes table)
include ht

theorem mem_presentKeys {e : Value × Value} (he : e ∈ table.entries) :
    e.1 ∈ h.presentKeys changes := by
  rw [← ht.keys]
  exact List.mem_map_of_mem he

theorem known (hknown : ∀ c ∈ changes, q c.key) {e : Value × Value} (he : e ∈ table.entries) :
    q e.1 := by
  obtain ⟨c, hc, hkey⟩ := Heap.mem_presentKeys (ht.mem_presentKeys he)
  exact hkey ▸ hknown c hc

theorem isNone_latest?_iff {k : Value} (hk : p k) :
    (h.latest? changes k).isNone = true ↔ (table.entries.any fun e => h.equal k e.1) = false := by
  rw [Option.isNone_iff_eq_none, Option.eq_none_iff_forall_ne_some, List.any_eq_false]
  constructor
  · intro hnone e he hequal
    exact hnone e.2 ((ht.values k hk e.2).mpr ⟨e, he, hequal, rfl⟩)
  · intro hall v hv
    obtain ⟨e, he, hequal, -⟩ := (ht.values k hk v).mp hv
    exact hall e he hequal

/-- A key is the same as one key of the table at most. -/
theorem identifies (hp : h.Coherent p) (hknown : ∀ c ∈ changes, p c.key ∧ q c.key) {test : KeyTest}
    (htest : test.Agree h.keys q) {key : Value} (hkey : p key ∧ q key) :
    table.Identifies test key (h.equal key) := by
  have hslot {s : Slot} (hs : s ∈ table.slots) : p s.key ∧ q s.key :=
    ht.known (q := fun k => p k ∧ q k) hknown (Table.mem_entries hs)
  refine ⟨fun s hs => htest.equal key s.key hkey.2 (hslot hs).2, fun s hs hsame => ?_, ?_⟩
  · rw [htest.digest key hkey.2, htest.digest s.key (hslot hs).2]
    exact hp.digest hkey.1 (hslot hs).1 hsame
  · intro s hs s' hs' hsame hsame'
    have hequal {r r' : Slot} (hr : r ∈ table.slots) (hr' : r' ∈ table.slots)
        (h₁ : h.equal key r.key = true) (h₂ : h.equal key r'.key = true) :
        h.equal r.key r'.key = true :=
      hp.trans (hslot hr).1 hkey.1 (hslot hr').1 (hp.symm hkey.1 (hslot hr).1 h₁) h₂
    have hslots : table.slots.toList.Pairwise fun s s' =>
        h.equal s.key s'.key = false ∨ h.equal s'.key s.key = false := by
      have hapart := ht.apart
      rw [← ht.keys, Table.entries, List.map_map, List.pairwise_map] at hapart
      exact hapart.imp Or.inl
    have hsymm : Std.Symm fun s s' : Slot =>
        h.equal s.key s'.key = false ∨ h.equal s'.key s.key = false := ⟨fun _ _ => Or.symm⟩
    by_contra hne
    rcases hslots.forall (Array.mem_toList_iff.mpr hs) (Array.mem_toList_iff.mpr hs') hne
      with hdiffer | hdiffer
    · rw [hequal hs hs' hsame hsame'] at hdiffer
      cases hdiffer
    · rw [hequal hs' hs hsame' hsame] at hdiffer
      cases hdiffer

section

variable (hp : h.Coherent p) (hknown : ∀ c ∈ changes, p c.key) {key k : Value} (hkey : p key)
  (hk : p k)
include hp hknown hkey hk

theorem latest?_put_iff (value v : Value) :
    h.latest? (changes ++ [.put key value]) k = some v ↔
      ∃ e ∈ table.entries.put (h.equal key) key value, h.equal k e.1 = true ∧ e.2 = v := by
  have hself := h.equal_self key
  have hold {e : Value × Value} (he : e ∈ table.entries) : p e.1 := ht.known hknown he
  have hnew {e : Value × Value} (he : e ∈ table.entries.put (h.equal key) key value) : p e.1 := by
    have hmem := List.mem_map_of_mem (f := Prod.fst) he
    rw [Entries.keys_put, List.mem_append] at hmem
    rcases hmem with hmem | hmem
    · obtain ⟨e', he', hfst⟩ := List.mem_map.mp hmem
      exact hfst ▸ hold he'
    · obtain ⟨-, hmem⟩ := List.mem_ite_nil_left.mp hmem
      exact List.mem_singleton.mp hmem ▸ hkey
  have hlatest : h.latest? (changes ++ [.put key value]) k =
      if h.equal key k then some value else h.latest? changes k := latest?_concat k
  rw [hlatest]
  split
  case isTrue hsame =>
    constructor
    · rintro ⟨⟩
      obtain ⟨e, he, hequal⟩ : ∃ e ∈ table.entries.put (h.equal key) key value,
          h.equal key e.1 = true := Entries.exists_mem_put hself
      refine ⟨e, he, ?_, Entries.value_of_mem_put he hequal⟩
      exact hp.trans hk hkey (hnew he) (hp.symm hkey hk hsame) hequal
    · rintro ⟨e, he, hequal, rfl⟩
      rw [Entries.value_of_mem_put he (hp.trans hkey hk (hnew he) hsame hequal)]
  case isFalse hdiffer =>
    have hother {e : Value × Value} (he : p e.1) (hequal : h.equal k e.1 = true) :
        e ∈ table.entries.put (h.equal key) key value ↔ e ∈ table.entries := by
      refine Entries.mem_put_iff hself ?_
      by_contra hsame
      exact hdiffer (hp.trans hkey he hk (by simpa using hsame) (hp.symm hk he hequal))
    rw [ht.values k hk v]
    constructor
    · rintro ⟨e, he, hequal, hv⟩
      exact ⟨e, (hother (hold he) hequal).mpr he, hequal, hv⟩
    · rintro ⟨e, he, hequal, hv⟩
      exact ⟨e, (hother (hnew he) hequal).mp he, hequal, hv⟩

theorem latest?_remove_iff (v : Value) :
    h.latest? (changes ++ [.remove key]) k = some v ↔
      ∃ e ∈ table.entries.remove (h.equal key), h.equal k e.1 = true ∧ e.2 = v := by
  have hold {e : Value × Value} (he : e ∈ table.entries) : p e.1 := ht.known hknown he
  have hlatest : h.latest? (changes ++ [.remove key]) k =
      if h.equal key k then none else h.latest? changes k := latest?_concat k
  rw [hlatest]
  split
  case isTrue hsame =>
    refine iff_of_false (by simp) ?_
    rintro ⟨e, he, hequal, -⟩
    obtain ⟨he, hdiffer⟩ := List.mem_filter.mp he
    rw [hp.trans hkey hk (hold he) hsame hequal] at hdiffer
    cases hdiffer
  case isFalse hdiffer =>
    rw [ht.values k hk v]
    constructor
    · rintro ⟨e, he, hequal, hv⟩
      refine ⟨e, List.mem_filter.mpr ⟨he, ?_⟩, hequal, hv⟩
      by_contra hsame
      have hback := hp.symm hk (hold he) hequal
      exact hdiffer (hp.trans hkey (hold he) hk (by simpa using hsame) hback)
    · rintro ⟨e, he, hequal, hv⟩
      exact ⟨e, (List.mem_filter.mp he).1, hequal, hv⟩

end

section

variable (hp : h.Coherent p) (hknown : ∀ c ∈ changes, p c.key ∧ q c.key) {test : KeyTest}
  (htest : test.Agree h.keys q) {key : Value} (hkey : p key ∧ q key)
include hp hknown htest hkey

theorem put (value : Value) :
    h.Tracks p (changes ++ [.put key value]) (table.put test key value) := by
  have hentries := (ht.identifies hp hknown htest hkey).entries_put ht.placed value
  have habsent := ht.isNone_latest?_iff hkey.1
  refine ⟨ht.placed.put test key value, ?_, ?_, fun k hk v => ?_⟩
  · rw [hentries, Entries.keys_put, ht.keys, presentKeys_put]
    cases hany : table.entries.any fun e => h.equal key e.1 <;> simp_all
  · rw [presentKeys_put]
    refine List.pairwise_append.mpr ⟨ht.apart, by split <;> simp, fun k hk k' hk' => ?_⟩
    obtain ⟨hnone, hk'⟩ := List.mem_ite_nil_right.mp hk'
    obtain rfl := List.mem_singleton.mp hk'
    rw [← ht.keys] at hk
    obtain ⟨e, he, rfl⟩ := List.mem_map.mp hk
    by_contra hequal
    have he' := ht.known (fun c hc => (hknown c hc).1) he
    have hback := hp.symm he' hkey.1 (by simpa using hequal)
    exact List.any_eq_false.mp (habsent.mp hnone) e he hback
  · rw [hentries]
    exact ht.latest?_put_iff hp (fun c hc => (hknown c hc).1) hkey.1 hk value v

theorem remove : h.Tracks p (changes ++ [.remove key]) (table.remove test key) := by
  have hentries := (ht.identifies hp hknown htest hkey).entries_remove ht.placed
  refine ⟨ht.placed.remove test key, ?_, ?_, fun k hk v => ?_⟩
  · rw [hentries, Entries.remove, presentKeys_remove, ← ht.keys, List.filter_map]
    rfl
  · rw [presentKeys_remove]
    exact ht.apart.filter _
  · rw [hentries]
    exact ht.latest?_remove_iff hp (fun c hc => (hknown c hc).1) hkey.1 hk v

end

end Tracks

/-- **One change** is made as the history says. -/
theorem Tracks.apply {h : Heap} {p q : Value → Prop} {changes : List TableChange} {table : Table}
    {c : TableChange} (ht : h.Tracks p changes table) (hp : h.Coherent p) {test : KeyTest}
    (htest : test.Agree h.keys q) (hknown : ∀ c' ∈ changes ++ [c], p c'.key ∧ q c'.key) :
    h.Tracks p (changes ++ [c]) (c.apply test table) := by
  obtain ⟨hold, hnew⟩ := List.forall_mem_append.mp hknown
  have hkey := hnew c (List.mem_singleton_self c)
  cases c with
  | put key value => exact ht.put hp hold htest hkey value
  | remove key => exact ht.remove hp hold htest hkey

/-- A list of changes is made as the history says. -/
theorem Tracks.foldl {h : Heap} {p q : Value → Prop} {changes more : List TableChange}
    {table : Table} (ht : h.Tracks p changes table) (hp : h.Coherent p) {test : KeyTest}
    (htest : test.Agree h.keys q) (hknown : ∀ c ∈ changes ++ more, p c.key ∧ q c.key) :
    h.Tracks p (changes ++ more) (more.foldl (fun table c => c.apply test table) table) := by
  induction more generalizing changes table with
  | nil => simpa using ht
  | cons c more ih =>
      rw [List.append_cons] at hknown ⊢
      exact ih (ht.apply hp htest (List.forall_mem_append.mp hknown).1) hknown

/-- What a search finds is what the history says. -/
theorem Tracks.find?_eq {h : Heap} {p : Value → Prop} {changes : List TableChange} {t : Nat}
    (ht : h.Tracks p changes (h.tableAt t)) (hp : h.Coherent p)
    (hknown : ∀ c ∈ changes, p c.key) {k : Value} (hk : p k) :
    (h.tableAt t).find? h.keys k = h.latest? changes k := by
  refine Option.ext fun v => ?_
  rw [ht.values k hk v]
  constructor
  · exact Table.exists_of_find?
  · rintro ⟨e, he, hequal, rfl⟩
    have hapart := ht.apart
    rw [← ht.keys, List.pairwise_map] at hapart
    exact hp.find?_eq (fun e he => ht.known hknown he) hapart hk he hequal

/-! ### Keys in a changed heap -/

/-- What is intact stays plain. -/
theorem Intact.plain {h h' : Heap} {numbers : Decimal → Prop} {v : Value} (hv : h.Intact h' v)
    (hplain : h.Plain numbers v) : h'.Plain numbers v where
  acyclic := hv.symm.acyclic hplain.acyclic
  reals d hd := hplain.reals d (hv.occurs_iff.mp hd)
  keys i hi := by
    have hi : h.Occurs v (.table i) := hv.occurs_iff.mp hi
    have htable : h'.tableAt i = h.tableAt i := hv (.table i) hi
    rw [entries, htable]
    refine (hplain.keys i hi).imp_of_mem fun {e e'} he he' hdiffer => ?_
    have hkey {e : Value × Value} (he : e ∈ h.entries i) : h'.Intact h e.1 ∧ h.Acyclic e.1 := by
      have hin : h.Occurs v e.1 := hi.tail (hasPart_of_mem_entries he).1
      exact ⟨Intact.symm fun w hw => hv w (hin.trans hw),
        fun w hw => hplain.acyclic w (hin.trans hw)⟩
    rw [← hdiffer]
    exact (agree_of_intact h' h).equal e.1 e'.1 (hkey he) (hkey he')

end Heap

theorem Prelude.pairs?_flatMap (pairs : Entries) :
    pairs? (pairs.flatMap fun e => [e.1, e.2]) = some pairs := by
  induction pairs with
  | nil => rfl
  | cons e pairs ih =>
      change (pairs? (pairs.flatMap fun e => [e.1, e.2])).map (e :: ·) = some (e :: pairs)
      rw [ih]
      rfl

/-- Arguments of an even number are keys and values in turn. -/
theorem Prelude.exists_pairs : ∀ args : List Value, args.length % 2 = 0 →
    ∃ pairs : Entries, args = pairs.flatMap fun e => [e.1, e.2]
  | [], _ => ⟨[], rfl⟩
  | [_], hodd => by simp at hodd
  | key :: value :: rest, heven => by
      have hrest : rest.length % 2 = 0 := by
        simp only [List.length_cons] at heven
        omega
      obtain ⟨pairs, hpairs⟩ := exists_pairs rest hrest
      exact ⟨(key, value) :: pairs, by rw [hpairs]; rfl⟩

namespace World

/-! ### Histories of calls -/

/-- The table at an address has been made by these changes.  It was built from keys and values, and
then changed by calls, with plain keys.  Other things may have happened in between; but no key was
changed after it had been put.  What was given to remove a key may be changed afterwards: another
value, which was equal to it at the time of the call, stands for it. -/
inductive TableHistory (w : World) (numbers : Decimal → Prop) (t : Nat) :
    List TableChange → Heap → Prop
  | create {pairs : Entries} {h h' : Heap} :
      w.Performs "table" (pairs.flatMap fun e => [e.1, e.2]) h (.table t) h' →
      (∀ e ∈ pairs, h.Plain numbers e.1 ∧ h.Intact h' e.1) →
      TableHistory w numbers t (pairs.map fun e => .put e.1 e.2) h'
  | put {changes : List TableChange} {key value : Value} {h h' : Heap} :
      TableHistory w numbers t changes h → h.Plain numbers key →
      w.Performs "table-put!" [.table t, key, value] h (.table t) h' →
      (∀ c ∈ changes ++ [.put key value], h.Intact h' c.key) →
      TableHistory w numbers t (changes ++ [.put key value]) h'
  | remove {changes : List TableChange} {given key : Value} {h h' : Heap} :
      TableHistory w numbers t changes h → h.Plain numbers given → h.Plain numbers key →
      h.equal given key = true →
      w.Performs "table-remove!" [.table t, given] h (.table t) h' →
      (∀ c ∈ changes ++ [.remove key], h.Intact h' c.key) →
      TableHistory w numbers t (changes ++ [.remove key]) h'
  | meanwhile {changes : List TableChange} {h h' : Heap} :
      TableHistory w numbers t changes h → .table t ∈ h'.collections →
      h.Unchanged h' (.table t) → (∀ c ∈ changes, h.Intact h' c.key) →
      TableHistory w numbers t changes h'

section

variable (limit : Nat) (h : Heap) (t : Nat) (k : Value)

theorem performs_table (pairs : Entries) :
    (new limit).Performs "table" (pairs.flatMap fun e => [e.1, e.2]) h (.table h.tables.size)
      (h.newTable (.ofPairs h.keys pairs)).2 := by
  refine performs_of_selected limit (e := Prelude.variadic "table" [] .any Prelude.table) rfl
    (Overloads.selected_sole rfl (by simp [Prelude.variadic, Entry.Matches])) ?_
  rw [Prelude.table, Prelude.pairs?_flatMap]
  rfl

theorem performs_change (c : TableChange) :
    (new limit).Performs c.name (c.args t) h (.table t)
      (h.setTable t (c.apply h.keys (h.tableAt t))) := by
  cases c with
  | put key value => exact performs_altered limit (c := .put t key value) fun _ hi => nomatch hi
  | remove key => exact performs_altered limit (c := .remove t key) fun _ hi => nomatch hi

theorem performs_tableGet :
    (new limit).Performs "table-get" [.table t, k] h
      (((h.tableAt t).find? h.keys k).getD .nil) h := by
  have hnamed : Overloads.named "table-get" (Prelude.core ++ Prelude.entries) =
      ⟨"table-get", [] ++ Prelude.fixed "table-get" [.table, .any] Prelude.tableGet ::
        [Prelude.fixed "table-get" [.table, .any, .any] Prelude.tableGet]⟩ := rfl
  refine performs_of_selected limit rfl (Overloads.selected_only hnamed ?_ ?_) rfl
  · simp [Prelude.fixed, Entry.Matches]
  · simp [Prelude.fixed, Entry.Matches]

theorem performs_tableGet_default (d : Value) :
    (new limit).Performs "table-get" [.table t, k, d] h
      (((h.tableAt t).find? h.keys k).getD d) h := by
  have hnamed : Overloads.named "table-get" (Prelude.core ++ Prelude.entries) =
      ⟨"table-get", [Prelude.fixed "table-get" [.table, .any] Prelude.tableGet] ++
        Prelude.fixed "table-get" [.table, .any, .any] Prelude.tableGet :: []⟩ := rfl
  refine performs_of_selected limit rfl (Overloads.selected_only hnamed ?_ ?_) rfl
  · simp [Prelude.fixed, Entry.Matches]
  · simp [Prelude.fixed, Entry.Matches]

theorem performs_tableContains :
    (new limit).Performs "table-contains" [.table t, k] h
      (.bool ((h.tableAt t).find? h.keys k).isSome) h :=
  performs_of_selected limit
    (e := Prelude.fixed "table-contains" [.table, .any] Prelude.tableContains) rfl
    (Overloads.selected_sole rfl (by simp [Prelude.fixed, Entry.Matches])) rfl

theorem performs_tableKeys :
    (new limit).Performs "table-keys" [.table t] h (h.newList ((h.entries t).map Prod.fst)).1
      (h.newList ((h.entries t).map Prod.fst)).2 :=
  performs_of_selected limit (e := Prelude.fixed "table-keys" [.table] Prelude.tableKeys) rfl
    (Overloads.selected_sole rfl (by simp [Prelude.fixed, Entry.Matches])) rfl

theorem performs_tableValues :
    (new limit).Performs "table-values" [.table t] h (h.newList ((h.entries t).map Prod.snd)).1
      (h.newList ((h.entries t).map Prod.snd)).2 :=
  performs_of_selected limit (e := Prelude.fixed "table-values" [.table] Prelude.tableValues) rfl
    (Overloads.selected_sole rfl (by simp [Prelude.fixed, Entry.Matches])) rfl

theorem performs_length_table :
    (new limit).Performs "length" [.table t] h (.int (h.tableAt t).size) h :=
  performs_of_selected limit (e := Prelude.fixed "length" [.table] Prelude.length) rfl rfl rfl

end

/-- The keys of a history are plain in the heap at its end. -/
theorem TableHistory.plain {w : World} {numbers : Decimal → Prop} {t : Nat}
    {changes : List TableChange} {h : Heap} (hhistory : w.TableHistory numbers t changes h) :
    ∀ c ∈ changes, h.Plain numbers c.key := by
  have hmore {changes : List TableChange} {c : TableChange} {h h' : Heap}
      (hold : ∀ c' ∈ changes, h.Plain numbers c'.key) (hnew : h.Plain numbers c.key)
      (hintact : ∀ c' ∈ changes ++ [c], h.Intact h' c'.key) :
      ∀ c' ∈ changes ++ [c], h'.Plain numbers c'.key := by
    have hall : ∀ c' ∈ changes ++ [c], h.Plain numbers c'.key :=
      List.forall_mem_append.mpr ⟨hold, List.forall_mem_singleton.mpr hnew⟩
    exact fun c' hc' => (hintact c' hc').plain (hall c' hc')
  induction hhistory with
  | create _ hkeys => exact List.forall_mem_map.mpr fun e he => (hkeys e he).2.plain (hkeys e he).1
  | put _ hkey _ hintact ih => exact hmore ih hkey hintact
  | remove _ _ hkey _ _ hintact ih => exact hmore ih hkey hintact
  | meanwhile _ _ _ hintact ih => exact fun c hc => (hintact c hc).plain (ih c hc)

/-- **Every history is kept.**  The table is as its history says, with keys compared as in any later
heap in which they are intact. -/
theorem TableHistory.tracks {limit t : Nat} {changes : List TableChange} {h g : Heap}
    {numbers : Decimal → Prop} (hnumbers : Heap.ByValue numbers)
    (hhistory : (new limit).TableHistory numbers t changes h)
    (hkeys : ∀ c ∈ changes, h.Intact g c.key) :
    .table t ∈ h.collections ∧ g.Tracks (g.Plain numbers) changes (h.tableAt t) := by
  have hp : g.Coherent (g.Plain numbers) := Heap.coherent_plain hnumbers
  -- A change was made with the keys as they were before it, when they were intact already.
  have hbefore {changes : List TableChange} {h h' : Heap}
      (hplain : ∀ c ∈ changes, h'.Plain numbers c.key) (hintact : ∀ c ∈ changes, h.Intact h' c.key)
      (hkeys : ∀ c ∈ changes, h'.Intact g c.key) :
      ∀ c ∈ changes, g.Plain numbers c.key ∧ h.Intact g c.key ∧ g.Acyclic c.key := by
    intro c hc
    have hg := (hkeys c hc).plain (hplain c hc)
    exact ⟨hg, (hintact c hc).trans (hkeys c hc), hg.acyclic⟩
  have hstep {changes : List TableChange} {c : TableChange} {h : Heap}
      (hknown : ∀ c' ∈ changes ++ [c],
        g.Plain numbers c'.key ∧ h.Intact g c'.key ∧ g.Acyclic c'.key)
      (hh : .table t ∈ h.collections ∧ g.Tracks (g.Plain numbers) changes (h.tableAt t)) :
      .table t ∈ (h.setTable t (c.apply h.keys (h.tableAt t))).collections ∧
        g.Tracks (g.Plain numbers) (changes ++ [c])
          ((h.setTable t (c.apply h.keys (h.tableAt t))).tableAt t) := by
    refine ⟨by rw [(h.alters_setTable t _).collections]; exact hh.1, ?_⟩
    rw [Heap.tableAt_setTable (Heap.table_mem_collections.mp hh.1)]
    exact hh.2.apply hp (Heap.agree_of_intact h g) hknown
  have hplain := hhistory.plain
  induction hhistory with
  | @create pairs h h' hperforms hpairs =>
      obtain ⟨hsame, rfl⟩ := (performs_table limit h pairs).unique hperforms
      obtain rfl := Value.table.inj hsame
      have hintact : ∀ c ∈ pairs.map fun e => TableChange.put e.1 e.2, h.Intact _ c.key :=
        List.forall_mem_map.mpr fun e he => (hpairs e he).2
      have htracks := (g.tracks_empty (g.Plain numbers) (Table.roomFor pairs.length)).foldl hp
        (Heap.agree_of_intact h g) (hbefore hplain hintact hkeys)
      refine ⟨((h.allocates_newTable _).collections _).mpr (.inr rfl), ?_⟩
      rw [List.foldl_map] at htracks
      rw [Heap.tableAt_newTable]
      exact htracks
  | @put changes key value h h' hold _ hperforms hintact ih =>
      obtain ⟨-, rfl⟩ := (performs_change limit h t (.put key value)).unique hperforms
      have hknown := hbefore hplain hintact hkeys
      exact hstep hknown
        (ih (fun c hc => (hknown c (List.mem_append_left _ hc)).2.1) hold.plain)
  | @remove changes given key h h' hold hgiven hkey hequal hperforms hintact ih =>
      obtain ⟨-, rfl⟩ := (performs_change limit h t (.remove given)).unique hperforms
      have hknown := hbefore hplain hintact hkeys
      have hh := ih (fun c hc => (hknown c (List.mem_append_left _ hc)).2.1) hold.plain
      -- The table cannot tell the key that is given from the one that stands for it.
      have hcoherent : h.Coherent (h.Plain numbers) := Heap.coherent_plain hnumbers
      have hsame : (TableChange.remove given).apply h.keys (h.tableAt t) =
          (TableChange.remove key).apply h.keys (h.tableAt t) := by
        refine Table.remove_congr (fun s hs => ?_) (hcoherent.digest hgiven hkey hequal)
        have hs : h.Plain numbers s.key := hh.2.known hold.plain (Table.mem_entries hs)
        have hback := hcoherent.symm hgiven hkey hequal
        exact Bool.eq_iff_iff.mpr ⟨fun hg => hcoherent.trans hkey hgiven hs hback hg,
          fun hk => hcoherent.trans hgiven hkey hs hequal hk⟩
      rw [hsame]
      exact hstep hknown hh
  | @meanwhile changes h h' hold hmem hsame hintact ih =>
      have hknown := hbefore hplain hintact hkeys
      obtain ⟨-, htracks⟩ := ih (fun c hc => (hknown c hc).2.1) hold.plain
      have htable : h'.tableAt t = h.tableAt t := hsame
      exact ⟨hmem, htable ▸ htracks⟩

section

variable {limit t : Nat} {changes : List TableChange} {h : Heap} {numbers : Decimal → Prop}

/-- A history starts with plain keys that do not contain the new table. -/
theorem tableHistory_create {pairs : Entries}
    (hpairs : ∀ e ∈ pairs, h.Plain numbers e.1 ∧ ¬ h.Occurs e.1 (.table h.tables.size)) :
    (new limit).TableHistory numbers h.tables.size (pairs.map fun e => .put e.1 e.2)
      (h.newTable (.ofPairs h.keys pairs)).2 := by
  refine .create (performs_table limit h pairs) fun e he => ?_
  obtain ⟨hplain, houtside⟩ := hpairs e he
  exact ⟨hplain, (h.allocates_newTable _).intact houtside⟩

/-- A history goes on with a plain key, as long as no key contains the table. -/
theorem TableHistory.change {c : TableChange}
    (hhistory : (new limit).TableHistory numbers t changes h) (hkey : h.Plain numbers c.key)
    (houtside : ∀ c' ∈ changes ++ [c], ¬ h.Occurs c'.key (.table t)) :
    (new limit).TableHistory numbers t (changes ++ [c])
      (h.setTable t (c.apply h.keys (h.tableAt t))) := by
  have hperforms := performs_change limit h t c
  have hintact : ∀ c' ∈ changes ++ [c],
      h.Intact (h.setTable t (c.apply h.keys (h.tableAt t))) c'.key :=
    fun c' hc' => (h.alters_setTable t _).intact (houtside c' hc')
  cases c with
  | put key value => exact hhistory.put hkey hperforms hintact
  | remove key => exact hhistory.remove hkey hkey (h.equal_self key) hperforms hintact

end

/-- **Tables are maps in the order of insertion.**  Whatever the history of a table, if the numbers
in its keys are compared by value: its keys are different; a key has the value that was put last if
it has not been removed since, and otherwise `nil` or the default; the keys are listed in the order
in which they were first put since they were last removed, the values in the same order, and the
length is their number.

A table can be built from any even number of arguments with plain keys, which begins its history.  It
can be changed next for any plain key, and its history goes on, unless a key contains the table,
which is locked while it is changed. -/
theorem table_insertion_ordered (limit : Nat) {t : Nat} {changes : List TableChange} {h : Heap}
    {numbers : Decimal → Prop} (hnumbers : Heap.ByValue numbers)
    (hhistory : (new limit).TableHistory numbers t changes h) :
    (h.presentKeys changes).Pairwise (fun k k' => h.equal k k' = false) ∧
    (∀ k, h.Plain numbers k →
      (new limit).Performs "table-get" [.table t, k] h ((h.latest? changes k).getD .nil) h ∧
      (∀ d, (new limit).Performs "table-get" [.table t, k, d] h
        ((h.latest? changes k).getD d) h) ∧
      (new limit).Performs "table-contains" [.table t, k] h
        (.bool (h.latest? changes k).isSome) h ∧
      ((h.latest? changes k).isSome = true ↔
        ∃ k' ∈ h.presentKeys changes, h.equal k k' = true)) ∧
    (∃ values, List.Forall₂ (fun k v => h.latest? changes k = some v)
        (h.presentKeys changes) values ∧
      (new limit).Performs "table-keys" [.table t] h (h.newList (h.presentKeys changes)).1
        (h.newList (h.presentKeys changes)).2 ∧
      (new limit).Performs "table-values" [.table t] h (h.newList values).1
        (h.newList values).2 ∧
      (new limit).Performs "length" [.table t] h (.int (h.presentKeys changes).length) h) ∧
    (∀ args : List Value, args.length % 2 = 0 → ∃ (pairs : Entries) (t' : Nat),
      args = (pairs.flatMap fun e => [e.1, e.2]) ∧ .table t' ∉ h.collections ∧
      ((∀ e ∈ pairs, h.Plain numbers e.1 ∧ ¬ h.Occurs e.1 (.table t')) →
        ∃ h', (new limit).Performs "table" args h (.table t') h' ∧
          (new limit).TableHistory numbers t' (pairs.map fun e => .put e.1 e.2) h')) ∧
    ∀ c : TableChange, h.Plain numbers c.key →
      (∀ c' ∈ changes ++ [c], ¬ h.Occurs c'.key (.table t)) →
      ∃ h', (new limit).Performs c.name (c.args t) h (.table t) h' ∧
        (new limit).TableHistory numbers t (changes ++ [c]) h' := by
  have hp : h.Coherent (h.Plain numbers) := Heap.coherent_plain hnumbers
  have hkeys := hhistory.plain
  obtain ⟨-, ht⟩ := hhistory.tracks hnumbers fun c _ => .refl h c.key
  refine ⟨ht.apart, fun k hk => ?_, ⟨(h.entries t).map Prod.snd, ?_, ?_, ?_, ?_⟩, ?_, ?_⟩
  · have hfind := ht.find?_eq hp hkeys hk
    rw [← hfind]
    refine ⟨performs_tableGet limit h t k, performs_tableGet_default limit h t k,
      performs_tableContains limit h t k, ?_⟩
    rw [hfind, Option.isSome_iff_exists, ← ht.keys]
    simp only [ht.values k hk]
    grind
  · rw [← ht.keys, List.forall₂_map_left_iff, List.forall₂_map_right_iff]
    refine List.forall₂_same.mpr fun e he => ?_
    exact (ht.values e.1 (ht.known hkeys he) e.2).mpr ⟨e, he, h.equal_self e.1, rfl⟩
  · rw [← ht.keys]
    exact performs_tableKeys limit h t
  · exact performs_tableValues limit h t
  · rw [← ht.keys, List.length_map, Table.length_entries]
    exact performs_length_table limit h t
  · intro args heven
    obtain ⟨pairs, rfl⟩ := Prelude.exists_pairs args heven
    refine ⟨pairs, h.tables.size, rfl, by simp, fun hpairs => ?_⟩
    exact ⟨_, performs_table limit h pairs, tableHistory_create hpairs⟩
  · intro c hkey houtside
    exact ⟨_, performs_change limit h t c, hhistory.change hkey houtside⟩

/-- A key is put again in another spelling; a list is a key and is removed by an equal list, which
is changed afterwards, and then it is put again. -/
theorem table_insertion_ordered_again :
    let before : Heap := { lists := #[.ofList [.int 1], .ofList [.int 1], .ofList [.int 1]] }
    let real : Value := .real ⟨15, 1⟩
    let changes : List TableChange := [.put real (.int 1), .put (.list 0) (.int 2),
      .put (.real ⟨150, 2⟩) (.int 3), .remove (.list 0), .put (.str "k") (.int 4),
      .put (.list 0) (.int 5)]
    let numbers : Decimal → Prop := fun d => 0 ≤ d.scale ∧ d.scale ≤ 9
    ∃ h h' : Heap,
      (new 10).Performs "table" [real, .int 1, .list 0, .int 2] before (.table 0) h' ∧
      Heap.ByValue numbers ∧ (new 10).TableHistory numbers 0 changes h ∧
      (new 10).Performs "table-get" [.table 0, .list 1] h (.int 5) h ∧
      (new 10).Performs "table-get" [.table 0, .list 2, .int 0] h (.int 0) h ∧
      (new 10).Performs "table-keys" [.table 0] h (.list 3)
        (h.newList [real, .str "k", .list 0]).2 ∧
      (new 10).Performs "table-values" [.table 0] h (.list 3)
        (h.newList [.int 3, .int 4, .int 5]).2 ∧
      (new 10).Performs "length" [.table 0] h (.int 3) h := by
  intro before real changes numbers
  let keys : List Value := [real, .real ⟨150, 2⟩, .str "k", .list 0]
  let known : List Value := [real, .real ⟨150, 2⟩, .str "k", .list 0, .list 1, .list 2, .int 1,
    .nil]
  let step (h : Heap) (c : TableChange) : Heap := h.setTable 0 (c.apply h.keys (h.tableAt 0))
  let h₁ : Heap := (before.newTable (.ofPairs before.keys [(real, .int 1), (.list 0, .int 2)])).2
  let h₂ : Heap := step h₁ (.put (.real ⟨150, 2⟩) (.int 3))
  let h₃ : Heap := step h₂ (.remove (.list 2))
  let h₄ : Heap := h₃.addItem 2 .nil
  let h₅ : Heap := step h₄ (.put (.str "k") (.int 4))
  let h : Heap := step h₅ (.put (.list 0) (.int 5))
  -- The list at address 0 is the same at all times, and no other key can be changed.
  have hintact (h h' : Heap) (hlist : h.items 0 = [.int 1]) (hlist' : h'.items 0 = [.int 1])
      {v : Value} (hv : v ∈ keys) : h.Intact h' v := by
    have hmem : v ∈ Value.int 1 :: keys := List.mem_cons_of_mem _ hv
    refine Heap.intact_of_closed ?_ ?_ hmem
    · simp [keys, real, Heap.parts, hlist]
    · simp [keys, real, Heap.Unchanged, hlist, hlist']
  have hplain (h : Heap) (hclosed : ∀ v ∈ known, ∀ w ∈ h.parts v, w ∈ known)
      (hdepth : ∀ v ∈ known, h.NestedWithin h.nesting v) {v : Value} (hv : v ∈ known) :
      h.Plain numbers v := by
    refine Heap.plain_of_closed hclosed hdepth ?_ ?_ hv
    · intro i hi
      simp [known, real] at hi
    · intro d hd
      have hd : d = ⟨15, 1⟩ ∨ d = ⟨150, 2⟩ := by simpa [known, real] using hd
      rcases hd with rfl | rfl <;> exact ⟨by decide, by decide⟩
  have hperforms : (new 10).Performs "table" [real, .int 1, .list 0, .int 2] before (.table 0) h₁ :=
    performs_table 10 before [(real, .int 1), (.list 0, .int 2)]
  have hkeys : ∀ c ∈ changes, c.key ∈ keys := by decide
  have hkept (h h' : Heap) (hlist : h.items 0 = [.int 1]) (hlist' : h'.items 0 = [.int 1])
      (n : Nat) : ∀ c ∈ changes.take n, h.Intact h' c.key :=
    fun c hc => hintact h h' hlist hlist' (hkeys c (List.mem_of_mem_take hc))
  have hhistory : (new 10).TableHistory numbers 0 changes h := by
    have hcreated : (new 10).TableHistory numbers 0 (changes.take 2) h₁ := by
      refine .create (performs_table 10 before [(real, .int 1), (.list 0, .int 2)]) ?_
      have hall : ∀ e ∈ [(real, Value.int 1), (.list 0, .int 2)], e.1 ∈ keys ∧ e.1 ∈ known := by
        decide
      exact fun e he => ⟨hplain before (by decide) (by decide) (hall e he).2,
        hintact before h₁ rfl rfl (hall e he).1⟩
    have hput : (new 10).TableHistory numbers 0 (changes.take 3) h₂ :=
      hcreated.put (hplain h₁ (by decide) (by decide) (by decide))
        (performs_change 10 h₁ 0 (.put (.real ⟨150, 2⟩) (.int 3)))
        (hkept h₁ h₂ rfl rfl 3)
    have hremoved : (new 10).TableHistory numbers 0 (changes.take 4) h₃ :=
      hput.remove (hplain h₂ (by decide) (by decide) (by decide))
        (hplain h₂ (by decide) (by decide) (by decide)) (by decide)
        (performs_change 10 h₂ 0 (.remove (.list 2)))
        (hkept h₂ h₃ rfl rfl 4)
    have hchanged : (new 10).TableHistory numbers 0 (changes.take 4) h₄ :=
      hremoved.meanwhile (by decide) rfl (hkept h₃ h₄ rfl rfl 4)
    have hput' : (new 10).TableHistory numbers 0 (changes.take 5) h₅ :=
      hchanged.put (hplain h₄ (by decide) (by decide) (by decide))
        (performs_change 10 h₄ 0 (.put (.str "k") (.int 4)))
        (hkept h₄ h₅ rfl rfl 5)
    exact hput'.put (hplain h₅ (by decide) (by decide) (by decide))
      (performs_change 10 h₅ 0 (.put (.list 0) (.int 5))) (hkept h₅ h rfl rfl 6)
  have hnumbers : Heap.ByValue numbers := by
    intro x y hx hy
    exact Decimal.equal_eq_same (by grind)
  obtain ⟨-, hget, ⟨values, hvalues, hlisted, hlistedValues, hlength⟩, -⟩ :=
    table_insertion_ordered 10 hnumbers hhistory
  have hpresent : h.presentKeys changes = [real, .str "k", .list 0] := by decide +kernel
  have hexpected : List.Forall₂ (fun k v => h.latest? changes k = some v) [real, .str "k", .list 0]
      [.int 3, .int 4, .int 5] :=
    .cons (by decide +kernel) (.cons (by decide +kernel) (.cons (by decide +kernel) .nil))
  rw [hpresent] at hvalues hlisted hlength
  obtain rfl : values = [.int 3, .int 4, .int 5] :=
    List.right_unique_forall₂' (fun _ _ _ h₁ h₂ => Option.some.inj (h₁.symm.trans h₂)) hvalues
      hexpected
  have hlatest : h.latest? changes (.list 1) = some (.int 5) := by decide +kernel
  have habsent : h.latest? changes (.list 2) = none := by decide +kernel
  have hend {v : Value} (hv : v ∈ known) : h.Plain numbers v :=
    hplain h (by decide +kernel) (by decide +kernel) hv
  refine ⟨h, h₁, hperforms, hnumbers, hhistory, ?_, ?_, hlisted, hlistedValues, hlength⟩
  · have hgot := (hget (.list 1) (hend (by decide))).1
    rwa [hlatest] at hgot
  · have hgot := (hget (.list 2) (hend (by decide))).2.1 (.int 0)
    rwa [habsent] at hgot

/-- Two keys that are different, and both are equal to a third: the value that is found for it is
not the one that was put last. -/
theorem table_get_misses_last_put :
    let a : Value := .real ⟨-7922816251510649634, 9⟩
    let b : Value := .real ⟨-79228162515106496340000000000, 19⟩
    let u : Value := .real ⟨-792281625151064963400, 11⟩
    let changes : List TableChange := [.put a (.int 1), .put b (.int 2)]
    ∃ h : Heap, (new 10).Performs "table" [a, .int 1, b, .int 2] {} (.table 0) h ∧
      (new 10).TableHistory (fun _ => True) 0 changes h ∧ (new 10).Gives "=" [b, u] (.bool true) ∧
      h.latest? changes u = some (.int 2) ∧
      (new 10).Performs "table-get" [.table 0, u] h (.int 1) h := by
  intro a b u changes
  let h : Heap := (Heap.newTable {} (.ofPairs (Heap.keys {}) [(a, .int 1), (b, .int 2)])).2
  have hperforms : (new 10).Performs "table" [a, .int 1, b, .int 2] {} (.table 0) h :=
    performs_table 10 {} [(a, .int 1), (b, .int 2)]
  have hfind : (h.tableAt 0).find? h.keys u = some (.int 1) := by decide +kernel
  have hequal : Decimal.equal ⟨-79228162515106496340000000000, 19⟩ ⟨-792281625151064963400, 11⟩ =
      true := by decide +kernel
  have hkeys : ∀ e ∈ [(a, Value.int 1), (b, .int 2)],
      Heap.Plain {} (fun _ => True) e.1 ∧ Heap.Intact {} h e.1 := by
    intro e he
    have hmem : e.1 ∈ [a, b] := List.mem_map_of_mem (f := Prod.fst) he
    refine ⟨Heap.plain_of_closed (by decide) (by decide) ?_ (fun _ _ => trivial) hmem, ?_⟩
    · intro i hi
      simp [a, b] at hi
    · exact Heap.intact_of_closed (by decide) (by simp [a, b, Heap.Unchanged]) hmem
  refine ⟨h, hperforms, .create (performs_table 10 {} [(a, .int 1), (b, .int 2)]) hkeys, ?_, ?_, ?_⟩
  · exact hequal ▸ gives_equal_real 10 _ _
  · decide +kernel
  · have hget := performs_tableGet 10 h 0 u
    rwa [hfind] at hget

end World

end DispatchLisp
