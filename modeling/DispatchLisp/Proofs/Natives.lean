import DispatchLisp.Proofs.Datum
import DispatchLisp.Proofs.Mutation
import DispatchLisp.Proofs.Registry
import DispatchLisp.Proofs.Signatures
import DispatchLisp.Proofs.Untraced

/-! # The functions of the prelude keep to their signatures

A function of the prelude takes its arguments apart on the strength of the kinds that its overload
declares.  Selection makes sure of them, so the functions on numbers, truth values, lists, tables
and kinds are never called with arguments that they would refuse: all that can go wrong is in the
values themselves (`Error.Expected`).

There is one lemma for each function, which begins with the form that arguments of the declared
kinds have.  The table of overloads is then gone through once (`Prelude.sound_values`), and it is also
computed that overloads of one name are apart (`Prelude.apart_of_name_eq`).

Reading a value that contains itself has no end, and while a table is changed in place it is locked,
so that a key inside which it stands cannot be read.  Calls without such arguments come to an end
(`Prelude.Ends`): nothing that they read depends on how deep they may read, or on a table that is
locked. -/

namespace DispatchLisp

/-- The faults of functions on numbers, lists and tables: division by zero, a list without items, an
index out of range, a text that is not a number, a key without a value. -/
inductive EvalFault.Expected : EvalFault → Prop
  | divisionByZero (operation : String) : Expected (.divisionByZero operation)
  | emptyList (operation : String) : Expected (.emptyList operation)
  | indexOutOfRange (operation index : String) (length : Nat) :
      Expected (.indexOutOfRange operation index length)
  | notAnInteger (text : String) : Expected (.notAnInteger text)
  | notANumber (text : String) : Expected (.notANumber text)
  | oddEntries : Expected .oddEntries

/-- The error says no more than one of these faults. -/
def Error.Expected (e : Error) : Prop := ∃ fault, e = .base (.eval fault) ∧ fault.Expected

/-- The computation gives a value or fails as it is expected to. -/
abbrev HeapM.Safe {α : Type} (m : HeapM α) : Prop := m.FailsOnly Error.Expected

theorem HeapM.Safe.fail {α : Type} {fault : EvalFault} (h : fault.Expected) :
    Safe (HeapM.fail (.eval fault) : HeapM α) := FailsOnly.fail ⟨fault, rfl, h⟩

/-- The overload is native, and on arguments of the declared kinds it gives a value or fails as it
is expected to. -/
def Entry.Sound (e : Entry) : Prop :=
  ∃ run, e.body = .native run ∧ ∀ args, Matches e.variadic e.params args → (run args).Safe

/-- A function in the option monad succeeds on a list if it does on every item. -/
theorem mapM_eq_some_iff {α β : Type} {f : α → Option β} {l : List α} {m : List β} :
    l.mapM f = some m ↔ List.Forall₂ (fun a b => f a = some b) l m := by
  induction l generalizing m with
  | nil => simp [eq_comm]
  | cons a l ih =>
      simp only [List.mapM_cons, Option.bind_eq_bind, Option.bind_eq_some_iff, ih, Option.pure_def,
        Option.some.injEq, List.forall₂_cons_left_iff, eq_comm (b := m)]
      constructor
      · rintro ⟨b, hb, bs, hbs, rfl⟩
        exact ⟨b, bs, hb, hbs, rfl⟩
      · rintro ⟨b, bs, hb, hbs, rfl⟩
        exact ⟨b, hb, bs, hbs, rfl⟩

theorem exists_mapM {α β : Type} {f : α → Option β} {l : List α} (h : ∀ a ∈ l, ∃ b, f a = some b) :
    ∃ m, l.mapM f = some m := by
  obtain ⟨m, hm⟩ := exists_forall₂ h
  exact ⟨m, mapM_eq_some_iff.mpr hm⟩

/-- The integer that a value is. -/
def Value.integer : Value → Int
  | .int n => n
  | _ => 0

/-- The decimal that a number is. -/
def Value.decimal (v : Value) : Decimal := v.toDecimal?.getD (.ofInt 0)

namespace Prelude

open Entry HeapM

theorem sound_fixed {name : String} {ks : List Kind} {run : List Value → HeapM Value} :
    (fixed name ks run).Sound ↔ ∀ args, Matches none ks args → (run args).Safe := by
  simp [Sound, fixed]

theorem sound_variadic {name : String} {ks : List Kind} {k : Kind}
    {run : List Value → HeapM Value} :
    (variadic name ks k run).Sound ↔ ∀ args, Matches (some k) ks args → (run args).Safe := by
  simp [Sound, variadic]

/-! ### Arithmetic -/

section

variable {args : List Value}

theorem ints?_eq (h : ∀ v ∈ args, Kind.int.Admits v) :
    ints? args = some (args.map Value.integer) := by
  refine mapM_eq_some_iff.mpr (List.forall₂_map_right_iff.mpr (List.forall₂_same.mpr ?_))
  intro v hv
  obtain ⟨n, rfl⟩ := Kind.admits_int.mp (h v hv)
  rfl

theorem decimals?_eq (h : ∀ v ∈ args, Kind.num.Admits v) :
    decimals? args = some (args.map Value.decimal) := by
  refine mapM_eq_some_iff.mpr (List.forall₂_map_right_iff.mpr (List.forall₂_same.mpr ?_))
  intro v hv
  rcases Kind.admits_num.mp (h v hv) with ⟨n, rfl⟩ | ⟨d, rfl⟩ <;> rfl

/-- Arguments that all have one kind, at least one. -/
theorem exists_cons_of_matches {k : Kind} {ks : List Kind} (hks : ∀ k' ∈ k :: ks, k' = k)
    (h : Matches (some k) (k :: ks) args) :
    ∃ v vs, args = v :: vs ∧ ∀ w ∈ v :: vs, k.Admits w := by
  obtain ⟨-, hadmits⟩ := (matches_all hks).mp h
  cases args with
  | nil => exact h.elim
  | cons v vs => exact ⟨v, vs, rfl, hadmits⟩

end

/-- An operation on integers that is defined wherever there is at least one. -/
theorem sound_onInts (name : String) {f : List Int → Option Int}
    (hf : ∀ n ns, ∃ m, f (n :: ns) = some m) : (variadic name [.int] .int (onInts f)).Sound := by
  refine sound_variadic.mpr fun args hargs => ?_
  obtain ⟨v, vs, rfl, hints⟩ := exists_cons_of_matches (by simp) hargs
  obtain ⟨m, hm⟩ := hf v.integer (vs.map Value.integer)
  rw [onInts, ints?_eq hints, Option.bind_some, List.map_cons, hm]
  exact .pure _

theorem sound_onDecimals (name : String) {f : List Decimal → Option Decimal}
    (hf : ∀ d ds, ∃ r, f (d :: ds) = some r) :
    (variadic name [.num] .num (onDecimals f)).Sound := by
  refine sound_variadic.mpr fun args hargs => ?_
  obtain ⟨v, vs, rfl, hnums⟩ := exists_cons_of_matches (by simp) hargs
  obtain ⟨r, hr⟩ := hf v.decimal (vs.map Value.decimal)
  rw [onDecimals, decimals?_eq hnums, Option.bind_some, List.map_cons, hr]
  exact .pure _

theorem sound_divide : (variadic "/" [.num, .num] .num divide).Sound := by
  refine sound_variadic.mpr fun args hargs => ?_
  obtain ⟨v, vs, rfl, hnums⟩ := exists_cons_of_matches (by simp) hargs
  rw [divide, decimals?_eq hnums, List.map_cons]
  dsimp only
  split
  · exact .pure _
  · exact Safe.fail (.divisionByZero "/")

theorem safe_modulo (a b : Int) : (modulo [.int a, .int b]).Safe := by
  rw [modulo]
  split
  · exact Safe.fail (.divisionByZero "mod")
  · exact .pure _

theorem safe_toInt (text : String) : (toInt [.str text]).Safe := by
  rw [toInt]
  split
  · exact .pure _
  · exact Safe.fail (.notAnInteger _)

theorem safe_toReal (text : String) : (toReal [.str text]).Safe := by
  rw [toReal]
  split
  · exact .pure _
  · exact Safe.fail (.notANumber _)

theorem sound_arithmetic : ∀ e ∈ arithmetic, e.Sound := by
  simp only [arithmetic, List.forall_mem_cons, List.not_mem_nil, false_imp_iff, implies_true,
    and_true]
  refine ⟨sound_onInts _ fun n ns => ⟨_, rfl⟩, sound_onDecimals _ fun d ds => ⟨_, rfl⟩,
    sound_onInts _ fun n ns => ?_, sound_onDecimals _ fun d ds => ?_,
    sound_onInts _ fun n ns => ⟨_, rfl⟩, sound_onDecimals _ fun d ds => ⟨_, rfl⟩, sound_divide, ?_⟩
  · cases ns <;> exact ⟨_, rfl⟩
  · cases ds <;> exact ⟨_, rfl⟩
  · simp only [sound_fixed, forall_matches_cons, forall_matches_nil]
    simp only [Kind.admits_any, Kind.admits_num, Kind.admits_int, Kind.admits_real, Kind.admits_str,
      or_imp, forall_and, forall_exists_index, forall_eq_apply_imp_iff, forall_const]
    exact ⟨fun a b => safe_modulo a b, fun _ => .pure _, fun _ => .pure _, fun _ => .reads _,
      fun _ => .pure _, fun _ => .pure _, safe_toInt, ⟨fun _ => .pure _, fun _ => .pure _⟩,
      safe_toReal⟩

/-! ### Comparison and kinds -/

theorem compareValues_of_admits {a b : Value} (ha : Kind.num.Admits a) (hb : Kind.num.Admits b) :
    ∃ o, compareValues a b = some o := by
  rcases Kind.admits_num.mp ha with ⟨x, rfl⟩ | ⟨x, rfl⟩ <;>
    rcases Kind.admits_num.mp hb with ⟨y, rfl⟩ | ⟨y, rfl⟩ <;> exact ⟨_, rfl⟩

/-- Numbers can be compared. -/
theorem exists_chainHolds (operation : String) (wanted : Ordering → Bool) {args : List Value}
    (h : ∀ v ∈ args, Kind.num.Admits v) : ∃ b, chainHolds operation wanted args = .ok b := by
  fun_induction chainHolds operation wanted args with
  | case1 a b rest o ho hwanted ih => exact ih (List.forall_mem_cons.mp h).2
  | case2 a b rest o ho hwanted => exact ⟨false, rfl⟩
  | case3 a b rest hnone =>
      obtain ⟨ha, hb, -⟩ := List.forall_mem_cons.mp h |>.imp_right List.forall_mem_cons.mp
      obtain ⟨o, ho⟩ := compareValues_of_admits ha hb
      rw [hnone] at ho
      cases ho
  | case4 => exact ⟨true, rfl⟩

theorem sound_chain (name : String) (wanted : Ordering → Bool) :
    (variadic name [.num, .num] .num (chain name wanted)).Sound := by
  refine sound_variadic.mpr fun args hargs => ?_
  obtain ⟨-, hnums⟩ := (matches_all (by simp)).mp hargs
  obtain ⟨b, hb⟩ := exists_chainHolds name wanted hnums
  rw [chain, hb]
  exact .pure _

theorem sound_comparison : ∀ e ∈ comparison, e.Sound := by
  simp only [comparison, List.forall_mem_cons, sound_chain, true_and, sound_fixed]
  simp only [sound_variadic, forall_matches_cons, forall_matches_nil]
  simp [equal, different, conjunction, disjunction, negation]

theorem sound_predicates : ∀ e ∈ predicates, e.Sound := by
  simp only [predicates, List.forall_mem_cons, sound_fixed, forall_matches_cons, forall_matches_nil]
  simp [hasKind]

/-! ### Lists -/

theorem safe_index (operation : String) (v : Value) (length : Nat) :
    (index operation v length).Safe := by
  unfold index
  split
  · split
    · exact .pure _
    · exact .bind (.reads _) fun text => Safe.fail (.indexOutOfRange operation text length)
  · exact .bind (.reads _) fun text => Safe.fail (.indexOutOfRange operation text length)

section

variable (l : Nat) (v i : Value)

theorem safe_cons : (cons [v, .list l]).Safe := .bind (.reads _) fun _ => .update _

theorem safe_first (operation : String) : (first operation [.list l]).Safe := by
  refine .bind (.reads _) fun items => ?_
  split
  · exact .pure _
  · exact Safe.fail (.emptyList operation)

theorem safe_rest : (rest [.list l]).Safe := by
  refine .bind (.reads _) fun items => ?_
  split
  · exact .update _
  · exact Safe.fail (.emptyList "cdr")

theorem safe_last : (last [.list l]).Safe := by
  refine .bind (.reads _) fun items => ?_
  split
  · exact .pure _
  · exact Safe.fail (.emptyList "last")

theorem safe_listRef : (listRef [.list l, i]).Safe :=
  .bind (.reads _) fun _ => .bind (safe_index _ _ _) fun _ => .pure _

theorem safe_listAdd : (listAdd [.list l, v]).Safe := .bind (.reads _) fun _ => .update _

theorem safe_listAddInPlace : (listAddInPlace [.list l, v]).Safe :=
  .bind (.modify _) fun _ => .pure _

theorem safe_listSet : (listSet [.list l, i, v]).Safe :=
  .bind (.reads _) fun _ => .bind (safe_index _ _ _) fun _ => .update _

theorem safe_listSetInPlace : (listSetInPlace [.list l, i, v]).Safe :=
  .bind (.reads _) fun _ => .bind (safe_index _ _ _) fun _ => .bind (.modify _) fun _ => .pure _

theorem safe_listRemove : (listRemove [.list l, i]).Safe :=
  .bind (.reads _) fun _ => .bind (safe_index _ _ _) fun _ => .update _

theorem safe_listRemoveInPlace : (listRemoveInPlace [.list l, i]).Safe :=
  .bind (.reads _) fun _ => .bind (safe_index _ _ _) fun _ => .bind (.modify _) fun _ => .pure _

theorem safe_reverse : (reverse [.list l]).Safe := .bind (.reads _) fun _ => .update _

end

theorem sound_joinTexts : (variadic "++" [.str, .str] .str joinTexts).Sound := by
  refine sound_variadic.mpr fun args hargs => ?_
  obtain ⟨-, hstrs⟩ := (matches_all (by simp)).mp hargs
  have hexists : ∃ texts, texts? args = some texts := by
    refine exists_mapM fun v hv => ?_
    obtain ⟨text, rfl⟩ := Kind.admits_str.mp (hstrs v hv)
    exact ⟨text, rfl⟩
  obtain ⟨texts, htexts⟩ := hexists
  rw [joinTexts, htexts]
  exact .pure _

theorem sound_joinLists : (variadic "++" [.list, .list] .list joinLists).Sound := by
  refine sound_variadic.mpr fun args hargs => ?_
  obtain ⟨-, hlists⟩ := (matches_all (by simp)).mp hargs
  have hexists : ∃ ls, addresses? args = some ls := by
    refine exists_mapM fun v hv => ?_
    obtain ⟨l, rfl⟩ := Kind.admits_list.mp (hlists v hv)
    exact ⟨l, rfl⟩
  obtain ⟨ls, hls⟩ := hexists
  rw [joinLists, hls]
  exact .update _

theorem sound_lists : ∀ e ∈ lists, e.Sound := by
  simp only [lists, List.forall_mem_cons, sound_joinTexts, sound_joinLists, true_and, sound_fixed]
  simp only [sound_variadic, forall_matches_cons, forall_matches_nil]
  simp [list, safe_cons, safe_first, safe_rest, safe_last, length, safe_listRef, safe_listAdd,
    safe_listAddInPlace, safe_listSet, safe_listSetInPlace, safe_listRemove, safe_listRemoveInPlace,
    listContains, safe_reverse, range, newList]

/-! ### Tables -/

theorem safe_table (args : List Value) : (table args).Safe := by
  unfold table
  split
  · exact .update _
  · exact Safe.fail .oddEntries

theorem safe_tablePutInPlace (t : Nat) (key value : Value) :
    (tablePutInPlace [.table t, key, value]).Safe := .bind (.modify _) fun _ => .pure _

theorem safe_tableRemoveInPlace (t : Nat) (key : Value) :
    (tableRemoveInPlace [.table t, key]).Safe := .bind (.modify _) fun _ => .pure _

theorem sound_tables : ∀ e ∈ tables, e.Sound := by
  simp only [tables, List.forall_mem_cons, sound_fixed, sound_variadic, forall_matches_cons,
    forall_matches_nil]
  simp [safe_table, tablePut, safe_tablePutInPlace, tableGet, tableRemove, safe_tableRemoveInPlace,
    tableKeys, tableValues, tableContains]

/-- The overloads of one name are apart. -/
theorem apart_of_name_eq :
    (core ++ entries).Pairwise fun e e' => e.name = e'.name → e.apart e' = true := by
  decide +kernel

/-- The functions on numbers, truth values, lists, tables and kinds. -/
def values : List Entry := arithmetic ++ comparison ++ lists ++ tables ++ predicates

theorem sound_values : ∀ e ∈ values, e.Sound := by
  simp only [values, List.forall_mem_append]
  exact ⟨⟨⟨⟨sound_arithmetic, sound_comparison⟩, sound_lists⟩, sound_tables⟩, sound_predicates⟩

theorem mem_of_mem_values {e : Entry} (h : e ∈ values) : e ∈ core ++ entries := by
  simp only [entries, values, List.mem_append] at h ⊢
  tauto

/-- No other function has the name of one of these. -/
theorem name_ne_of_mem_values :
    ∀ e ∈ core ++ streams ++ higherOrder ++ reflection ++ output ++ concurrency,
      ∀ e' ∈ values, e.name ≠ e'.name := by
  decide +kernel

theorem mem_values_of_name_eq {e e' : Entry} (he : e ∈ core ++ entries) (he' : e' ∈ values)
    (hname : e.name = e'.name) : e ∈ values := by
  by_contra hother
  refine name_ne_of_mem_values e ?_ e' he' hname
  simp only [entries, values, List.mem_append] at he hother ⊢
  tauto

end Prelude

namespace Prelude

/-- Of a function that changes a table in place: the table, which is locked meanwhile, and the key
that is looked for in it. -/
def locked? (name : String) : List Value → Option (Nat × Value)
  | .table t :: key :: _ => if name ∈ ["table-put!", "table-remove!"] then some (t, key) else none
  | _ => none

/-- The call comes to an end: no argument contains itself, and a table that is locked does not occur
in the key. -/
structure Ends (name : String) (args : List Value) (h : Heap) : Prop where
  acyclic : ∀ v ∈ args, h.Acyclic v
  key : ∀ t key, locked? name args = some (t, key) → ¬ h.Occurs key (.table t)

theorem table_mem_of_locked? {name : String} {args : List Value} {t : Nat} {key : Value}
    (h : locked? name args = some (t, key)) : .table t ∈ args := by
  unfold locked? at h
  split at h
  · split at h
    · cases h
      exact List.mem_cons_self
    · cases h
  · cases h

/-- The keys that are compared while a table is locked do not depend on the table. -/
theorem Ends.intact {name : String} {args : List Value} {h : Heap} (hends : Ends name args h)
    {t : Nat} {key v : Value} (hlocked : locked? name args = some (t, key))
    (hv : v = key ∨ v ∈ (h.entries t).map Prod.fst) (table : Table) :
    h.Intact (h.setTable t table) v := by
  apply (h.alters_setTable t table).intact
  rcases hv with rfl | hv
  · exact hends.key t v hlocked
  · obtain ⟨e, he, rfl⟩ := List.mem_map.mp hv
    intro hinside
    refine hends.acyclic _ (table_mem_of_locked? hlocked) _ .refl ?_
    exact Relation.TransGen.head' (Heap.hasPart_of_mem_entries he).1 hinside

end Prelude

/-- A native overload that is sound runs at once, and all that can go wrong is expected. -/
theorem Entry.Sound.run {e : Entry} (h : e.Sound) {args : List Value}
    (hargs : Matches e.variadic e.params args) (scope : Scope) (s : State) :
    ∃ r t, e.run args scope s = .done r t ∧ ∀ error, r = .error error → error.Expected := by
  obtain ⟨run, hbody, hsafe⟩ := h
  refine ⟨(run args s.heap).1, { s with heap := (run args s.heap).2 }, ?_,
    fun error herror => hsafe args hargs s.heap error herror⟩
  rw [Entry.run, hbody]
  rfl

/-- A native overload that only looks at its arguments leaves the state as it is. -/
theorem Entry.run_native {e : Entry} {args : List Value} {v : Value}
    {run : List Value → HeapM Value} (hbody : e.body = .native run)
    (hrun : ∀ h, run args h = (.ok v, h)) (scope : Scope) (s : State) :
    e.run args scope s = .done (.ok v) s := by
  simp only [Entry.run, hbody, Eval.onHeap, Eval.attempt, State.onHeap, hrun]

namespace World

variable (limit : Nat)

/-- Wherever and whenever it is called, the function of this name gives the value for the arguments
and changes nothing. -/
def Gives (w : World) (name : String) (args : List Value) (v : Value) : Prop :=
  ∃ f, w.state.scopes.lookup w.prelude name = some (.function f) ∧
    ∀ scope s, (w.state.overloads f).call args scope s = .done (.ok v) s

theorem Gives.unique {w : World} {name : String} {args : List Value} {v v' : Value}
    (h : w.Gives name args v) (h' : w.Gives name args v') : v = v' := by
  obtain ⟨f, hlookup, hcall⟩ := h
  obtain ⟨f', hlookup', hcall'⟩ := h'
  rw [hlookup, Option.some.injEq, Value.function.injEq] at hlookup'
  subst hlookup'
  have hsame := (hcall w.prelude w.state).symm.trans (hcall' w.prelude w.state)
  simpa using hsame

/-- What a function gives can be seen from the overload that is selected. -/
theorem gives_of_selected {name : String} {args : List Value} {e : Entry} {v : Value}
    {run : List Value → HeapM Value} (hbody : e.body = .native run)
    (hselected : (Overloads.named name (Prelude.core ++ Prelude.entries)).selected args = .ok e)
    (hrun : ∀ h, run args h = (.ok v, h)) : (new limit).Gives name args v := by
  obtain ⟨i, -, hi⟩ := (Overloads.selected_eq_ok_iff _ args).mp hselected
  obtain ⟨he, rfl⟩ := Overloads.mem_named.mp (List.mem_of_getElem? hi)
  obtain ⟨f, hlookup, -, hset⟩ := (registered_new limit).found e he
  refine ⟨f, hlookup, fun scope s => ?_⟩
  rw [hset, Overloads.call, hselected]
  simp only [Entry.call, Eval.framed, Eval.atEnd, Entry.run_native hbody hrun]
  rfl

/-- **The prelude's overloads are unambiguous and sound.**  No call of a function of a new world is
ambiguous.  An overload of a function on numbers, truth values, lists, tables or kinds that is
selected for some arguments fails only for one of the reasons that are expected of it, in any state.

If no argument contains itself, and no key contains the table in which it is changed, then the
overload does give a value or fail.  Reading its arguments comes to an end by itself: comparisons,
digests and texts are the same at every greater depth, and the keys that are compared while a table
is locked are the same whatever becomes of the table. -/
theorem prelude_unambiguous_sound :
    (∀ e ∈ Prelude.core ++ Prelude.entries, ∃ f,
      (new limit).state.scopes.lookup (new limit).prelude e.name = some (.function f) ∧
      ∀ args name kinds,
        ((new limit).state.overloads f).select args ≠ .error (.ambiguous name kinds)) ∧
    ∀ e ∈ Prelude.values, ∃ f,
      (new limit).state.scopes.lookup (new limit).prelude e.name = some (.function f) ∧
      ∀ args i, ((new limit).state.overloads f).select args = .ok i →
        ∃ chosen, ((new limit).state.overloads f).entries[i]? = some chosen ∧
          (∀ scope s r t, chosen.run args scope s = .done r t →
            ∀ error, r = .error error → error.Expected) ∧
          ∀ scope s, Prelude.Ends chosen.name args s.heap →
            (∃ r t, chosen.run args scope s = .done r t) ∧ s.heap.ReadsEnd args ∧
            ∀ t key, Prelude.locked? chosen.name args = some (t, key) →
              ∀ v, v = key ∨ v ∈ (s.heap.entries t).map Prod.fst →
                ∀ table, s.heap.Intact (s.heap.setTable t table) v := by
  have hregistered := registered_new limit
  constructor
  · intro e he
    obtain ⟨f, hlookup, -, hset⟩ := hregistered.found e he
    refine ⟨f, hlookup, fun args name kinds => ?_⟩
    rw [hset]
    exact Overloads.select_ne_ambiguous (Overloads.pairwise_named Prelude.apart_of_name_eq _)
      args name kinds
  · intro e he
    obtain ⟨f, hlookup, -, hset⟩ := hregistered.found e (Prelude.mem_of_mem_values he)
    refine ⟨f, hlookup, fun args i hselect => ?_⟩
    rw [hset] at hselect ⊢
    obtain ⟨chosen, hi, hmatches⟩ := Overloads.matches_of_select hselect
    obtain ⟨hchosen, hname⟩ := Overloads.mem_named.mp (List.mem_of_getElem? hi)
    have hsound := Prelude.sound_values chosen (Prelude.mem_values_of_name_eq hchosen he hname)
    refine ⟨chosen, hi, fun scope s r t hrun => ?_, fun scope s hends => ?_⟩
    · obtain ⟨r', t', hrun', hexpected⟩ := hsound.run hmatches scope s
      obtain ⟨rfl, rfl⟩ : r' = r ∧ t' = t := by simpa [hrun'] using hrun
      exact hexpected
    · obtain ⟨r, t, hrun, -⟩ := hsound.run hmatches scope s
      refine ⟨⟨r, t, hrun⟩, Heap.readsEnd_of_acyclic hends.acyclic, ?_⟩
      intro t key hlocked v hv table
      exact hends.intact hlocked hv table

/-- An integer and a real are added by the second overload of `+`; and a list is put as a key into a
table that holds another list. -/
theorem prelude_unambiguous_sound_sum_put :
    (∃ f, (new 10).state.scopes.lookup (new 10).prelude "+" = some (.function f) ∧
      (∀ args name kinds,
        ((new 10).state.overloads f).select args ≠ .error (.ambiguous name kinds)) ∧
      ((new 10).state.overloads f).select [.int 1, .real ⟨25, 1⟩] = .ok 1) ∧
    let h : Heap :=
      { lists := #[.ofList [.int 1], .ofList [.list 0]]
        tables := #[{ slots := #[⟨.list 0, .int 7, 0⟩], nextPlace := 1, room := 3 }] }
    let args : List Value := [.table 0, .list 1, .int 8]
    Prelude.Ends "table-put!" args h ∧ h.ReadsEnd args ∧
      (∀ table, h.Intact (h.setTable 0 table) (.list 1)) ∧
      ∃ f chosen, (new 10).state.scopes.lookup (new 10).prelude "table-put!" = some (.function f) ∧
        ((new 10).state.overloads f).select args = .ok 0 ∧
        ((new 10).state.overloads f).entries[0]? = some chosen ∧
        ∀ scope s, s.heap = h → ∃ r t, chosen.run args scope s = .done r t ∧
          ∀ error, r = .error error → error.Expected := by
  constructor
  · have hplus : Prelude.variadic "+" [.num] .num (Prelude.onDecimals Prelude.sumDecimals) ∈
        Prelude.values := by simp [Prelude.values, Prelude.arithmetic]
    have hmem := Prelude.mem_of_mem_values hplus
    obtain ⟨f, hlookup, hclear⟩ := (prelude_unambiguous_sound 10).1 _ hmem
    obtain ⟨f', hlookup', -, hset⟩ := (registered_new 10).found _ hmem
    obtain rfl : f = f' := by simpa [hlookup] using hlookup'
    refine ⟨f, hlookup, hclear, ?_⟩
    rw [hset]
    decide +kernel
  · intro h args
    have hput : Prelude.fixed "table-put!" [.table, .any, .any] Prelude.tablePutInPlace ∈
        Prelude.values := by simp [Prelude.values, Prelude.tables]
    have hends : Prelude.Ends "table-put!" args h := by
      have hnested : ∀ v ∈ args, h.NestedWithin 3 v := by decide
      refine ⟨fun v hv => (hnested v hv).acyclic, ?_⟩
      rintro _ _ ⟨⟩ hinside
      have hmem := hinside.mem_of_closed (l := [.list 1, .list 0, .int 1]) (by decide)
        List.mem_cons_self
      exact absurd hmem (by decide)
    obtain ⟨f, hlookup, hsound⟩ := (prelude_unambiguous_sound 10).2 _ hput
    obtain ⟨f', hlookup', -, hset⟩ :=
      (registered_new 10).found _ (Prelude.mem_of_mem_values hput)
    obtain rfl : f = f' := by simpa [hlookup] using hlookup'
    have hselect : ((new 10).state.overloads f).select args = .ok 0 := by
      rw [hset]
      decide +kernel
    obtain ⟨chosen, hi, hsafe, htotal⟩ := hsound args 0 hselect
    have hname : chosen.name = "table-put!" := by
      rw [hset] at hi
      exact (Overloads.mem_named.mp (List.mem_of_getElem? hi)).2
    rw [hname] at htotal
    obtain ⟨-, hreads, hkeys⟩ :=
      htotal (new 10).prelude { (new 10).state with heap := h } hends
    refine ⟨hends, hreads, hkeys 0 (.list 1) rfl (.list 1) (.inl rfl), f, chosen, hlookup,
      hselect, hi, ?_⟩
    rintro scope s hs
    obtain ⟨⟨r, t, hrun⟩, -⟩ := htotal scope s (hs ▸ hends)
    exact ⟨r, t, hrun, hsafe scope s r t hrun⟩

end World

end DispatchLisp
