import DispatchLisp.Proofs.Bindings
import DispatchLisp.Session

/-! # What a world begins with

Overloads are registered one at a time, and each of them goes to the function that its name stands
for at that moment.  At the end every name stands for the set of all overloads that were registered
under it, in the order of registration (`Overloads.named`), and no other name stands for a function
(`State.Registered`).

One registration keeps this (`State.Registered.register`), so a whole list of them does
(`State.Registered.install`), and so it holds of the core and the prelude of every new world
(`World.registered_new`). -/

namespace DispatchLisp

/-- The overloads of one name, in the order of registration. -/
def Overloads.named (name : String) (entries : List Entry) : Overloads :=
  ⟨name, entries.filter fun e => e.name == name⟩

theorem Overloads.named_append_self (entries : List Entry) (e : Entry) :
    named e.name (entries ++ [e]) = (named e.name entries).extend e := by
  simp [named, extend]

theorem Overloads.named_append_of_ne {name : String} {e : Entry} (h : e.name ≠ name)
    (entries : List Entry) : named name (entries ++ [e]) = named name entries := by
  simp [named, h]

theorem Overloads.named_append_new {entries : List Entry} {e : Entry}
    (h : ∀ e' ∈ entries, e'.name ≠ e.name) : named e.name (entries ++ [e]) = single e := by
  have hnone : entries.filter (fun e' => e'.name == e.name) = [] := by
    simpa [List.filter_eq_nil_iff] using h
  rw [named, List.filter_append, hnone]
  simp [single]

theorem Overloads.mem_named {name : String} {entries : List Entry} {e : Entry} :
    e ∈ (named name entries).entries ↔ e ∈ entries ∧ e.name = name := by
  simp [named]

/-- What relates overloads of the same name relates the overloads of one name. -/
theorem Overloads.pairwise_named {r : Entry → Entry → Prop} {entries : List Entry}
    (h : entries.Pairwise fun e e' => e.name = e'.name → r e e') (name : String) :
    (named name entries).entries.Pairwise r := by
  refine List.Pairwise.imp_of_mem ?_ (h.filter fun e => e.name == name)
  intro e e' he he' hr
  exact hr ((mem_named.mp he).2.trans (mem_named.mp he').2.symm)

theorem Scopes.lookup_define_of_ne {s : Scopes} {scope : Scope}
    (hbound : ∀ i ∈ scope.chain, i < s.frames.size) {name x : String} (hx : x ≠ name) (v : Value) :
    (s.define scope name v).lookup scope x = s.lookup scope x := by
  have hchanges := changes_modifyFrame hbound name scope.frame (f := Frame.put name v)
    fun y hy => by rw [Frame.get?_put, if_neg hy.symm]
  exact hchanges.lookupIn_other fun h => hx h.1

theorem Scopes.lookup_newChild {s : Scopes} {scope : Scope}
    (hbound : ∀ i ∈ scope.chain, i < s.frames.size) (name : String) :
    (s.newChild scope).2.lookup (s.newChild scope).1 name = s.lookup scope name := by
  have hempty : ((s.newChild scope).2.frame s.frames.size).get? name = none := by
    simp [newChild, frame, Frame.get?]
  have hframes : ∀ chain : List Nat, (∀ i ∈ chain, i < s.frames.size) →
      (s.newChild scope).2.lookupIn name chain = s.lookupIn name chain := by
    intro chain hchain
    induction chain with
    | nil => rfl
    | cons i chain ih =>
        obtain ⟨hi, hothers⟩ := List.forall_mem_cons.mp hchain
        rw [lookupIn, lookupIn, frame_newChild scope hi, ih hothers]
  change (s.newChild scope).2.lookupIn name (s.frames.size :: scope.chain) = _
  rw [lookupIn, hempty]
  exact hframes scope.chain hbound

/-- From the scope, the name of each overload stands for the set of all overloads of this name, and
no other name stands for a function. -/
structure State.Registered (s : State) (scope : Scope) (entries : List Entry) : Prop where
  bound : ∀ i ∈ scope.chain, i < s.scopes.frames.size
  found : ∀ e ∈ entries, ∃ f, s.scopes.lookup scope e.name = some (.function f) ∧
    f.id < s.functions.size ∧ s.overloads f = .named e.name entries
  others : ∀ name f, s.scopes.lookup scope name = some (.function f) → ∃ e ∈ entries, e.name = name

namespace State.Registered

variable {s : State} {scope : Scope} {entries : List Entry}

/-- An overload that is registered joins those of its name. -/
theorem register_eq (h : s.Registered scope entries) (e : Entry) :
    s.register scope e =
      (s.newFunction (.named e.name (entries ++ [e]))).2.define scope e.name
        (.function ⟨s.functions.size, e.name⟩) := by
  by_cases hold : ∃ e' ∈ entries, e'.name = e.name
  · obtain ⟨e', he', hname⟩ := hold
    obtain ⟨f, hlookup, -, hset⟩ := h.found e' he'
    rw [hname] at hlookup hset
    rw [Overloads.named_append_self, ← hset]
    simp only [State.register, hlookup, hset]
    rfl
  · have hnew : ∀ e' ∈ entries, e'.name ≠ e.name := fun e' he' hname => hold ⟨e', he', hname⟩
    rw [Overloads.named_append_new hnew]
    unfold State.register
    split
    case h_1 f hlookup => exact absurd (h.others _ f hlookup) hold
    case h_2 => rfl

/-- **One registration** adds the overload to the set of its name and keeps the other sets. -/
theorem register (h : s.Registered scope entries) (e : Entry) :
    (s.register scope e).Registered scope (entries ++ [e]) := by
  have hframe : scope.frame < s.scopes.frames.size := h.bound _ List.mem_cons_self
  have hscopes : (s.register scope e).scopes =
      s.scopes.define scope e.name (.function ⟨s.functions.size, e.name⟩) := by
    rw [h.register_eq e]
    rfl
  have hfunctions : (s.register scope e).functions =
      s.functions.push (.named e.name (entries ++ [e])) := by
    rw [h.register_eq e]
    rfl
  have hsame : (s.register scope e).scopes.lookup scope e.name =
      some (.function ⟨s.functions.size, e.name⟩) := by
    rw [hscopes, Scopes.lookup_define hframe]
  have hother {x : String} (hx : x ≠ e.name) :
      (s.register scope e).scopes.lookup scope x = s.scopes.lookup scope x := by
    rw [hscopes, Scopes.lookup_define_of_ne h.bound hx]
  constructor
  case bound =>
    intro i hi
    rw [hscopes, Scopes.define, Scopes.modifyFrame, Array.size_modify]
    exact h.bound i hi
  case found =>
    intro e' he'
    by_cases hname : e'.name = e.name
    · rw [hname, hsame]
      refine ⟨_, rfl, by simp [hfunctions], ?_⟩
      rw [State.overloads, hfunctions]
      simp
    · have hold : e' ∈ entries := by
        rcases List.mem_append.mp he' with hold | hnew
        · exact hold
        · exact absurd (congrArg Entry.name (List.mem_singleton.mp hnew)) hname
      obtain ⟨f, hlookup, hf, hset⟩ := h.found e' hold
      refine ⟨f, by rw [hother hname, hlookup], by rw [hfunctions, Array.size_push]; omega, ?_⟩
      rw [Overloads.named_append_of_ne (Ne.symm hname), ← hset, State.overloads, State.overloads,
        hfunctions]
      simp [Array.getElem?_push, Nat.ne_of_lt hf]
  case others =>
    intro name f hlookup
    by_cases hname : name = e.name
    · exact ⟨e, List.mem_append_right _ List.mem_cons_self, hname.symm⟩
    · obtain ⟨e', he', hname'⟩ := h.others name f ((hother hname).symm.trans hlookup)
      exact ⟨e', List.mem_append_left _ he', hname'⟩

/-- **Registrations one after the other** collect the overloads of each name. -/
theorem install (h : s.Registered scope entries) (more : List Entry) :
    (Prelude.install scope more s).Registered scope (entries ++ more) := by
  induction more generalizing s entries with
  | nil =>
      rw [List.append_nil]
      exact h
  | cons e more ih =>
      have hrest := ih (h.register e)
      rwa [List.append_assoc, List.singleton_append] at hrest

/-- A name that is no function's may be bound to anything but a function. -/
theorem define (h : s.Registered scope entries) {name : String} {v : Value}
    (hname : ∀ e ∈ entries, e.name ≠ name) (hv : ∀ f, v ≠ .function f) :
    (s.define scope name v).Registered scope entries := by
  have hframe : scope.frame < s.scopes.frames.size := h.bound _ List.mem_cons_self
  have hsame : (s.define scope name v).scopes.lookup scope name = some v :=
    Scopes.lookup_define hframe name v
  have hother {x : String} (hx : x ≠ name) :
      (s.define scope name v).scopes.lookup scope x = s.scopes.lookup scope x :=
    Scopes.lookup_define_of_ne h.bound hx v
  constructor
  case bound =>
    intro i hi
    change i < (s.scopes.frames.modify scope.frame (Frame.put name v)).size
    rw [Array.size_modify]
    exact h.bound i hi
  case found =>
    intro e he
    rw [hother (hname e he)]
    exact h.found e he
  case others =>
    intro x f hlookup
    by_cases hx : x = name
    · rw [hx, hsame] at hlookup
      exact absurd (Option.some.inj hlookup) (hv f)
    · exact h.others x f ((hother hx).symm.trans hlookup)

/-- A fresh scope inside sees the same functions. -/
theorem newChild (h : s.Registered scope entries) :
    (s.onScopes (·.newChild scope)).2.Registered (s.scopes.newChild scope).1 entries := by
  have hlookup (name : String) :
      (s.onScopes (·.newChild scope)).2.scopes.lookup (s.scopes.newChild scope).1 name =
        s.scopes.lookup scope name := Scopes.lookup_newChild h.bound name
  constructor
  case bound =>
    intro i hi
    change i < (s.scopes.frames.push []).size
    rw [Array.size_push]
    rcases List.mem_cons.mp hi with rfl | hi
    · exact Nat.lt_succ_self _
    · exact Nat.lt_succ_of_lt (h.bound i hi)
  case found =>
    intro e he
    rw [hlookup]
    exact h.found e he
  case others =>
    intro name f hname
    exact h.others name f ((hlookup name).symm.trans hname)

/-- In a root scope there is nothing at the beginning. -/
theorem newRoot (s : State) :
    (s.onScopes Scopes.newRoot).2.Registered s.scopes.newRoot.1 [] where
  bound := by
    intro i hi
    obtain rfl := List.mem_singleton.mp hi
    exact (Array.size_push _).symm ▸ Nat.lt_succ_self _
  found := by simp
  others := by
    intro name f hlookup
    have hnone : (s.onScopes Scopes.newRoot).2.scopes.lookup s.scopes.newRoot.1 name = none := by
      simp [State.onScopes, Scopes.newRoot, Scopes.lookup, Scope.chain, Scopes.lookupIn,
        Scopes.frame, Frame.get?]
    rw [hnone] at hlookup
    cases hlookup

end State.Registered

/-- **In a new world every name of the core and the prelude stands for its overloads.** -/
theorem World.registered_new (limit : Nat) :
    (World.new limit).state.Registered (World.new limit).prelude
      (Prelude.core ++ Prelude.entries) := by
  have hstream : ∀ e ∈ Prelude.core, e.name ≠ "empty-stream" := by decide
  unfold World.new
  generalize Prelude.entries = entries
  revert hstream
  generalize Prelude.core = core
  intro hstream
  have hcore := (State.Registered.newRoot { limit := max limit 1 }).install core
  rw [List.nil_append] at hcore
  exact (hcore.newChild.define hstream (by simp)).install entries

end DispatchLisp
