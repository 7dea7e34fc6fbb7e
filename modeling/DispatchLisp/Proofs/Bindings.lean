import DispatchLisp.State
import Mathlib.Data.List.TFAE
import Mathlib.Tactic.TFAE

/-! # Bindings in scopes

The scopes that are made one after the other form a tree (`Scopes.Forest`): a scope sees its own
frame and then the frames that the scope around it sees, and no frame twice.

* **Views.**  Whether a name is visible, what it is bound to, which names there are and whether a
  name can be assigned all come down to the same question: does a frame of the chain bind it
  (`Scopes.exists_lookupIn_iff` and the lemmas beside it).
* **Changes.**  Every change concerns one name in one frame (`Scopes.Changes`).  It is seen from the
  scopes whose search for the name comes to that frame, and from no others
  (`Scopes.Changes.lookupIn_exposed`, `Scopes.Changes.lookupIn_other`).

`State.views_agree_updates_local` puts this together for every state that the operations on scopes
can lead to (`State.Grown`). -/

namespace DispatchLisp

/-! ### Frames -/

namespace Frame

theorem binds_put (name x : String) (v : Value) (f : Frame) :
    (f.put name v).binds x = (f.binds x || name == x) := by
  induction f with
  | nil => simp [put, binds]
  | cons b rest ih =>
      obtain ⟨n, w⟩ := b
      unfold put
      split
      case isTrue h =>
        subst h
        simp only [binds, List.any_cons]
        cases (n == x) <;> simp
      case isFalse h =>
        simp only [binds, List.any_cons] at ih ⊢
        rw [ih, Bool.or_assoc]

theorem isSome_get? (name : String) (f : Frame) : (f.get? name).isSome = f.binds name := by
  induction f with
  | nil => rfl
  | cons b rest ih =>
      obtain ⟨n, w⟩ := b
      by_cases hn : n = name
      · simp [get?, binds, hn]
      · have hrest : binds name ((n, w) :: rest) = binds name rest := by simp [binds, hn]
        rw [hrest, ← ih, get?, if_neg hn]

theorem get?_eq_none_iff {name : String} {f : Frame} : f.get? name = none ↔ f.binds name = false := by
  rw [← isSome_get?, Option.isSome_eq_false_iff, Option.isNone_iff_eq_none]

theorem get?_put (name x : String) (v : Value) (f : Frame) :
    (f.put name v).get? x = if name = x then some v else f.get? x := by
  induction f with
  | nil => rfl
  | cons b rest ih =>
      obtain ⟨n, w⟩ := b
      unfold put
      split
      case isTrue h =>
        subst h
        by_cases hx : n = x
        · simp [get?, hx]
        · simp [get?, hx]
      case isFalse h =>
        by_cases hx : n = x
        · subst hx
          have hne : ¬ name = n := fun heq => h heq.symm
          simp [get?, hne]
        · simp only [get?, if_neg hx, ih]

/-- Every name is bound at most once. -/
def Distinct (f : Frame) : Prop := (f.map Prod.fst).Nodup

theorem mem_names_put {name x : String} {v : Value} {f : Frame}
    (h : x ∈ (f.put name v).map Prod.fst) : x = name ∨ x ∈ f.map Prod.fst := by
  have hbinds : (f.put name v).binds x = true := by simpa [binds] using h
  rw [binds_put, Bool.or_eq_true, beq_iff_eq] at hbinds
  rcases hbinds with hx | hx
  · exact .inr (by simpa [binds] using hx)
  · exact .inl hx.symm

theorem Distinct.put {f : Frame} (h : f.Distinct) (name : String) (v : Value) :
    (f.put name v).Distinct := by
  unfold Distinct at h ⊢
  induction f with
  | nil => simp [Frame.put]
  | cons b rest ih =>
      obtain ⟨n, w⟩ := b
      obtain ⟨hn, hrest⟩ := List.nodup_cons.mp h
      unfold Frame.put
      split
      case isTrue => exact List.nodup_cons.mpr ⟨hn, hrest⟩
      case isFalse hne =>
        refine List.nodup_cons.mpr ⟨fun hmem => ?_, ih hrest⟩
        rcases mem_names_put hmem with heq | hmem
        · exact hne heq
        · exact hn hmem

theorem remove_sublist (name : String) (f : Frame) : (f.remove name).Sublist f := by
  induction f with
  | nil => exact List.Sublist.refl _
  | cons b rest ih =>
      obtain ⟨n, w⟩ := b
      unfold Frame.remove
      split
      · exact List.sublist_cons_self _ _
      · exact ih.cons_cons _

theorem Distinct.remove {f : Frame} (h : f.Distinct) (name : String) : (f.remove name).Distinct :=
  h.sublist ((remove_sublist name f).map Prod.fst)

/-- A name is gone once it is removed, since it was bound only once. -/
theorem Distinct.get?_remove {f : Frame} (h : f.Distinct) (name x : String) :
    (f.remove name).get? x = if name = x then none else f.get? x := by
  unfold Distinct at h
  induction f with
  | nil => simp [Frame.remove, get?]
  | cons b rest ih =>
      obtain ⟨n, w⟩ := b
      obtain ⟨hn, hrest⟩ := List.nodup_cons.mp h
      unfold Frame.remove
      split
      case isTrue heq =>
        subst heq
        by_cases hx : n = x
        · subst hx
          have hgone : binds n rest = false := by
            rw [Bool.eq_false_iff]
            intro hbinds
            exact hn (by simpa [binds] using hbinds)
          rw [if_pos rfl, get?_eq_none_iff.mpr hgone]
        · rw [if_neg hx, get?, if_neg hx]
      case isFalse hne =>
        by_cases hx : n = x
        · subst hx
          have hname : ¬ name = n := fun heq => hne heq.symm
          rw [if_neg hname, get?, get?, if_pos rfl, if_pos rfl]
        · rw [get?, get?, if_neg hx, if_neg hx, ih hrest]

end Frame

namespace Scopes

/-! ### Searching along a chain -/

theorem frame_modifyFrame {s : Scopes} (i : Nat) (f : Frame → Frame) {j : Nat}
    (hj : j < s.frames.size) :
    (s.modifyFrame i f).frame j = if i = j then f (s.frame j) else s.frame j := by
  simp [frame, modifyFrame, hj, Array.getElem_modify]

theorem frame_newChild {s : Scopes} (outer : Scope) {i : Nat} (hi : i < s.frames.size) :
    (s.newChild outer).2.frame i = s.frame i := by
  simp [frame, newChild, Array.getElem?_push, Nat.ne_of_lt hi]

section

variable {s : Scopes} {name : String} {chain : List Nat}

theorem exists_lookupIn_iff :
    (∃ v, s.lookupIn name chain = some v) ↔ ∃ i ∈ chain, (s.frame i).binds name = true := by
  induction chain with
  | nil => simp [lookupIn]
  | cons i chain ih =>
      unfold lookupIn
      cases hget : (s.frame i).get? name with
      | some v =>
          have hbinds : (s.frame i).binds name = true := by rw [← Frame.isSome_get?, hget]; rfl
          exact ⟨fun _ => ⟨i, List.mem_cons_self, hbinds⟩, fun _ => ⟨v, rfl⟩⟩
      | none =>
          have hbinds := Frame.get?_eq_none_iff.mp hget
          simpa [hbinds] using ih

theorem exists_ownerIn?_iff :
    (∃ i, s.ownerIn? name chain = some i) ↔ ∃ i ∈ chain, (s.frame i).binds name = true := by
  induction chain with
  | nil => simp [ownerIn?]
  | cons i chain ih =>
      unfold ownerIn?
      split
      case isTrue hbinds => exact ⟨fun _ => ⟨i, List.mem_cons_self, hbinds⟩, fun _ => ⟨i, rfl⟩⟩
      case isFalse hbinds => simpa [hbinds] using ih

/-- The nearest frame of the chain that binds the name. -/
def Nearest (s : Scopes) (name : String) (chain : List Nat) (i : Nat) : Prop :=
  ∃ inner outer, chain = inner ++ i :: outer ∧ (s.frame i).binds name = true ∧
    ∀ j ∈ inner, (s.frame j).binds name = false

theorem ownerIn?_eq_some_iff {i : Nat} :
    s.ownerIn? name chain = some i ↔ s.Nearest name chain i := by
  constructor
  · intro h
    induction chain with
    | nil => cases h
    | cons j chain ih =>
        unfold ownerIn? at h
        split at h
        case isTrue hbinds =>
          cases h
          exact ⟨[], chain, rfl, hbinds, fun _ hj => nomatch hj⟩
        case isFalse hbinds =>
          obtain ⟨inner, outer, rfl, hi, hinner⟩ := ih h
          refine ⟨j :: inner, outer, rfl, hi, List.forall_mem_cons.mpr ⟨?_, hinner⟩⟩
          exact Bool.eq_false_iff.mpr hbinds
  · rintro ⟨inner, outer, rfl, hi, hinner⟩
    induction inner with
    | nil => simp [ownerIn?, hi]
    | cons j inner ih =>
        obtain ⟨hj, hinner⟩ := List.forall_mem_cons.mp hinner
        simp [ownerIn?, hj, ih hinner]

theorem ownerIn?_binds {i : Nat} (h : s.ownerIn? name chain = some i) :
    (s.frame i).binds name = true := by
  obtain ⟨-, -, -, hbinds, -⟩ := ownerIn?_eq_some_iff.mp h
  exact hbinds

/-- The nearest frame depends on the names of the frames alone. -/
theorem ownerIn?_congr {s' : Scopes}
    (h : ∀ i ∈ chain, (s'.frame i).binds name = (s.frame i).binds name) :
    s'.ownerIn? name chain = s.ownerIn? name chain := by
  induction chain with
  | nil => rfl
  | cons i chain ih =>
      obtain ⟨hi, hchain⟩ := List.forall_mem_cons.mp h
      rw [ownerIn?, ownerIn?, hi, ih hchain]

theorem lookupIn_append_of_not_binds {inner outer : List Nat}
    (h : ∀ j ∈ inner, (s.frame j).binds name = false) :
    s.lookupIn name (inner ++ outer) = s.lookupIn name outer := by
  induction inner with
  | nil => rfl
  | cons j inner ih =>
      obtain ⟨hj, hinner⟩ := List.forall_mem_cons.mp h
      rw [List.cons_append, lookupIn, Frame.get?_eq_none_iff.mpr hj]
      exact ih hinner

/-- A name is found in the nearest frame that binds it. -/
theorem lookupIn_of_ownerIn? {i : Nat} (h : s.ownerIn? name chain = some i) :
    s.lookupIn name chain = (s.frame i).get? name := by
  obtain ⟨inner, outer, rfl, hbinds, hinner⟩ := ownerIn?_eq_some_iff.mp h
  obtain ⟨v, hv⟩ := Option.isSome_iff_exists.mp ((Frame.isSome_get? name (s.frame i)).trans hbinds)
  rw [lookupIn_append_of_not_binds hinner, lookupIn, hv]

/-- Only frames that exist bind names. -/
theorem lt_size_of_binds {i : Nat} (h : (s.frame i).binds name = true) : i < s.frames.size := by
  refine Nat.lt_of_not_le fun hi => ?_
  rw [frame, Array.getD_eq_getD_getElem?, Array.getElem?_eq_none hi] at h
  cases h

/-- The name that is bound in a frame is the only one to change. -/
theorem get?_rebind {i : Nat} (hi : i < s.frames.size) (v : Value) (j : Nat) (x : String) :
    ((s.rebind i name v).frame j).get? x =
      if i = j ∧ name = x then some v else (s.frame j).get? x := by
  by_cases hj : j < s.frames.size
  · rw [rebind, frame_modifyFrame i _ hj]
    by_cases hij : i = j
    · simp only [hij, if_true, true_and, Frame.get?_put]
    · simp only [hij, if_false, false_and]
  · have hij : i ≠ j := fun heq => hj (heq ▸ hi)
    simp [frame, rebind, modifyFrame, Nat.le_of_not_lt hj, hij]

/-- Binding a name again neither adds nor removes a name. -/
theorem binds_rebind {i : Nat} (h : (s.frame i).binds name = true) (v : Value) (j : Nat)
    (x : String) : ((s.rebind i name v).frame j).binds x = (s.frame j).binds x := by
  rw [← Frame.isSome_get?, ← Frame.isSome_get?, get?_rebind (lt_size_of_binds h)]
  split
  case isTrue heq =>
    obtain ⟨rfl, rfl⟩ := heq
    rw [Frame.isSome_get?, h]
    rfl
  case isFalse => rfl

end

theorem lookup_define {s : Scopes} {e : Scope} (h : e.frame < s.frames.size) (name : String)
    (v : Value) : (s.define e name v).lookup e name = some v := by
  have hget : ((s.rebind e.frame name v).frame e.frame).get? name = some v := by
    rw [get?_rebind h, if_pos ⟨rfl, rfl⟩]
  change (s.rebind e.frame name v).lookupIn name (e.frame :: e.outer) = some v
  rw [lookupIn, hget]

theorem contains_iff {s : Scopes} {e : Scope} {name : String} :
    s.contains e name = true ↔ ∃ i ∈ e.chain, (s.frame i).binds name = true := by
  rw [contains, List.any_eq_true]

/-! ### Names -/

theorem nodup_eraseDups : (l : List String) → l.eraseDups.Nodup
  | [] => by simp
  | a :: l => by
      rw [List.eraseDups_cons, List.nodup_cons, List.mem_eraseDups]
      exact ⟨by simp, nodup_eraseDups (l.filter fun b => !b == a)⟩
termination_by l => l.length
decreasing_by
  have hle := List.length_filter_le (fun b => !b == a) l
  rw [List.length_cons]
  omega

theorem mem_flatMap_names {s : Scopes} {x : String} {chain : List Nat} :
    x ∈ chain.flatMap (fun i => (s.frame i).names) ↔
      ∃ i ∈ chain, (s.frame i).binds x = true := by
  rw [List.mem_flatMap]
  exact exists_congr fun i => and_congr_right fun _ => Frame.mem_names

theorem mem_names_iff {s : Scopes} {e : Scope} {name : String} :
    name ∈ s.names e ↔ ∃ i ∈ e.chain, (s.frame i).binds name = true := by
  rw [names, List.mem_eraseDups, mem_flatMap_names]

/-- Wherever the chain is cut, the names of the nearer frames come first, and then those that only
the farther ones bind. -/
theorem names_split {s : Scopes} {e : Scope} {inner outer : List Nat}
    (h : e.chain = inner ++ outer) :
    ∃ near far, s.names e = near ++ far ∧
      (∀ x, x ∈ near ↔ ∃ i ∈ inner, (s.frame i).binds x = true) ∧
      ∀ x, x ∈ far ↔ (∃ i ∈ outer, (s.frame i).binds x = true) ∧
        ∀ i ∈ inner, (s.frame i).binds x = false := by
  refine ⟨(inner.flatMap fun i => (s.frame i).names).eraseDups,
    ((outer.flatMap fun i => (s.frame i).names).removeAll
      (inner.flatMap fun i => (s.frame i).names)).eraseDups, ?_, fun x => ?_, fun x => ?_⟩
  · rw [names, h, List.flatMap_append, List.eraseDups_append]
  · rw [List.mem_eraseDups, mem_flatMap_names]
  · rw [List.mem_eraseDups, List.removeAll, List.mem_filter, mem_flatMap_names]
    refine and_congr_right fun _ => ?_
    have hnot : (x ∉ inner.flatMap fun i => (s.frame i).names) ↔
        ∀ i ∈ inner, (s.frame i).binds x = false := by
      rw [mem_flatMap_names]
      simp
    rw [← hnot]
    simp

/-! ### One name in one frame -/

/-- The search for the name along the chain comes to the frame `i`. -/
def Exposed (s : Scopes) (name : String) (i : Nat) (chain : List Nat) : Prop :=
  ∃ inner outer, chain = inner ++ i :: outer ∧ ∀ j ∈ inner, (s.frame j).binds name = false

theorem exposed_iff_nearest {s : Scopes} {name : String} {chain chain' : List Nat} {i : Nat}
    (h : s.Nearest name chain i) : s.Exposed name i chain' ↔ s.Nearest name chain' i := by
  obtain ⟨-, -, -, hbinds, -⟩ := h
  refine exists_congr fun inner => exists_congr fun outer => and_congr_right fun _ => ?_
  exact ⟨fun hinner => ⟨hbinds, hinner⟩, fun hinner => hinner.2⟩

/-- The frames differ at most in what the frame `i` says about the name. -/
structure Changes (s s' : Scopes) (name : String) (i : Nat) (chain : List Nat) : Prop where
  frames : ∀ j ∈ chain, j ≠ i → s'.frame j = s.frame j
  others : ∀ x, x ≠ name → i ∈ chain → (s'.frame i).get? x = (s.frame i).get? x

namespace Changes

variable {s s' : Scopes} {name : String} {i : Nat}

theorem tail {j : Nat} {chain : List Nat} (h : s.Changes s' name i (j :: chain)) :
    s.Changes s' name i chain where
  frames k hk := h.frames k (List.mem_cons_of_mem _ hk)
  others x hx hi := h.others x hx (List.mem_cons_of_mem _ hi)

/-- What is not searched for in that frame is found as before. -/
theorem lookupIn_other {chain : List Nat} (h : s.Changes s' name i chain) {x : String}
    (hx : ¬ (x = name ∧ s.Exposed name i chain)) :
    s'.lookupIn x chain = s.lookupIn x chain := by
  induction chain with
  | nil => rfl
  | cons j chain ih =>
      -- The search passes the first frame only if that does not bind the name.
      have htail : (s.frame j).get? x = none → s'.lookupIn x chain = s.lookupIn x chain := by
        intro hget
        refine ih h.tail ?_
        rintro ⟨rfl, inner, outer, rfl, hinner⟩
        refine hx ⟨rfl, j :: inner, outer, rfl, List.forall_mem_cons.mpr ⟨?_, hinner⟩⟩
        exact Frame.get?_eq_none_iff.mp hget
      have hfirst : (s'.frame j).get? x = (s.frame j).get? x := by
        by_cases hj : j = i
        · subst hj
          have hne : x ≠ name := by
            rintro rfl
            exact hx ⟨rfl, [], chain, rfl, fun _ hj => nomatch hj⟩
          exact h.others x hne List.mem_cons_self
        · rw [h.frames j List.mem_cons_self hj]
      unfold lookupIn
      rw [hfirst]
      cases hget : (s.frame j).get? x with
      | some v => rfl
      | none => exact htail hget

/-- What is searched for in that frame is found there, or else farther out as before. -/
theorem lookupIn_exposed {inner outer : List Nat}
    (h : s.Changes s' name i (inner ++ i :: outer)) (hnodup : (inner ++ i :: outer).Nodup)
    (hinner : ∀ j ∈ inner, (s.frame j).binds name = false) :
    s'.lookupIn name (inner ++ i :: outer) =
      ((s'.frame i).get? name).or (s.lookupIn name outer) := by
  have hi : i ∉ inner ∧ i ∉ outer := by
    rw [List.nodup_append] at hnodup
    obtain ⟨-, hright, hdisjoint⟩ := hnodup
    refine ⟨fun hmem => hdisjoint i hmem i List.mem_cons_self rfl, ?_⟩
    exact (List.nodup_cons.mp hright).1
  have hsame : ∀ j ∈ inner, (s'.frame j).binds name = false := by
    intro j hj
    have hne : j ≠ i := fun heq => hi.1 (heq ▸ hj)
    rw [h.frames j (List.mem_append_left _ hj) hne]
    exact hinner j hj
  have houter : s'.lookupIn name outer = s.lookupIn name outer := by
    have hchanges : s.Changes s' name i outer :=
      ⟨fun j hj => h.frames j (List.mem_append_right _ (List.mem_cons_of_mem _ hj)),
        fun _ _ hmem => absurd hmem hi.2⟩
    refine hchanges.lookupIn_other ?_
    rintro ⟨-, inner', outer', rfl, -⟩
    exact hi.2 (List.mem_append_right _ List.mem_cons_self)
  rw [lookupIn_append_of_not_binds hsame, lookupIn, houter]
  cases (s'.frame i).get? name <;> rfl

end Changes

theorem changes_modifyFrame {s : Scopes} {chain : List Nat}
    (hbound : ∀ j ∈ chain, j < s.frames.size) (name : String) (i : Nat) {f : Frame → Frame}
    (hf : ∀ x, x ≠ name → (f (s.frame i)).get? x = (s.frame i).get? x) :
    s.Changes (s.modifyFrame i f) name i chain where
  frames j hj hne := by rw [frame_modifyFrame i f (hbound j hj), if_neg hne.symm]
  others x hx hi := by
    rw [frame_modifyFrame i f (hbound i hi), if_pos rfl]
    exact hf x hx

/-! ### Trees of scopes -/

/-- The scopes that have been made, each with the frames of the scope around it. -/
structure Forest (s : Scopes) (made : List Scope) : Prop where
  bound : ∀ e ∈ made, ∀ i ∈ e.chain, i < s.frames.size
  nodup : ∀ e ∈ made, e.chain.Nodup
  /-- Whoever sees the frame of a scope sees the same frames beyond it as that scope. -/
  around : ∀ e ∈ made, ∀ e' ∈ made, ∀ inner outer,
    e'.chain = inner ++ e.frame :: outer → outer = e.outer
  distinct : ∀ i, (s.frame i).Distinct

/-- The scope `e'` is `e` or lies inside it, with no binding of the name in between. -/
def Sees (s : Scopes) (name : String) (e e' : Scope) : Prop :=
  ∃ inner, e'.chain = inner ++ e.chain ∧ ∀ j ∈ inner, (s.frame j).binds name = false

/-- From the scopes `seen` the name is now found to be `value`; every other name, and the name from
every other scope, is looked up as before. -/
def LocalUpdate (s s' : Scopes) (made : List Scope) (name : String) (seen : Scope → Prop)
    (value : Option Value) : Prop :=
  ∀ e ∈ made, (seen e → s'.lookup e name = value) ∧
    ∀ x, ¬ (x = name ∧ seen e) → s'.lookup e x = s.lookup e x

theorem LocalUpdate.congr {s s' : Scopes} {made : List Scope} {name : String}
    {seen seen' : Scope → Prop} {value : Option Value}
    (h : s.LocalUpdate s' made name seen value) (hseen : ∀ e ∈ made, seen e ↔ seen' e) :
    s.LocalUpdate s' made name seen' value := by
  intro e he
  rw [← hseen e he]
  exact h e he

namespace Forest

variable {s : Scopes} {made : List Scope}

theorem nil : Forest {} [] where
  bound _ he := nomatch he
  nodup _ he := nomatch he
  around _ he := nomatch he
  distinct _ := List.nodup_nil

/-- A new scope, which stands alone or inside one of the others. -/
theorem add (h : s.Forest made) {outer : List Nat}
    (houter : outer = [] ∨ ∃ p ∈ made, outer = p.chain) :
    Forest ⟨s.frames.push []⟩ (⟨s.frames.size, outer⟩ :: made) := by
  have hold : ∀ e ∈ made, s.frames.size ∉ e.chain := by
    intro e he hmem
    exact absurd (h.bound e he _ hmem) (Nat.lt_irrefl _)
  have hnew : ∀ i ∈ outer, i < s.frames.size := by
    intro i hi
    rcases houter with rfl | ⟨p, hp, rfl⟩
    · cases hi
    · exact h.bound p hp i hi
  have hfresh : s.frames.size ∉ outer := fun hmem => absurd (hnew _ hmem) (Nat.lt_irrefl _)
  constructor
  case bound =>
    intro e he i hi
    rw [Array.size_push]
    rcases List.mem_cons.mp he with rfl | he
    · rcases List.mem_cons.mp hi with rfl | hi
      · exact Nat.lt_succ_self _
      · exact Nat.lt_succ_of_lt (hnew i hi)
    · exact Nat.lt_succ_of_lt (h.bound e he i hi)
  case nodup =>
    intro e he
    rcases List.mem_cons.mp he with rfl | he
    · refine List.nodup_cons.mpr ⟨hfresh, ?_⟩
      rcases houter with rfl | ⟨p, hp, rfl⟩
      · exact List.nodup_nil
      · exact h.nodup p hp
    · exact h.nodup e he
  case around =>
    intro e he e' he' inner rest hchain
    rcases List.mem_cons.mp he with rfl | hmade <;> rcases List.mem_cons.mp he' with rfl | hmade'
    · cases inner with
      | nil => exact (List.cons.inj hchain).2.symm
      | cons j inner =>
          have htail : outer = inner ++ s.frames.size :: rest := (List.cons.inj hchain).2
          have hmem : s.frames.size ∈ outer := by simp [htail]
          exact absurd hmem hfresh
    · have hmem : s.frames.size ∈ e'.chain := by
        rw [hchain]
        exact List.mem_append_right _ List.mem_cons_self
      exact absurd hmem (hold e' hmade')
    · cases inner with
      | nil =>
          have hmem : s.frames.size ∈ e.chain := by
            rw [Scope.chain, ← (List.cons.inj hchain).1]
            exact List.mem_cons_self
          exact absurd hmem (hold e hmade)
      | cons j inner =>
          have htail : outer = inner ++ e.frame :: rest := (List.cons.inj hchain).2
          rcases houter with rfl | ⟨p, hp, rfl⟩
          · simp at htail
          · exact h.around e hmade p hp inner rest htail
    · exact h.around e hmade e' hmade' inner rest hchain
  case distinct =>
    intro i
    by_cases hi : i < s.frames.size
    · exact (frame_newChild (s := s) ⟨0, []⟩ hi).symm ▸ h.distinct i
    · have hnil : Scopes.frame ⟨s.frames.push []⟩ i = [] := by
        simp only [frame, Array.getD_eq_getD_getElem?, Array.getElem?_push]
        split
        case isTrue => rfl
        case isFalse => simp [Nat.le_of_not_lt hi]
      rw [hnil]
      exact List.nodup_nil

theorem modifyFrame (h : s.Forest made) (i : Nat) {f : Frame → Frame}
    (hf : (f (s.frame i)).Distinct) : (s.modifyFrame i f).Forest made where
  bound e he j hj := by
    rw [Scopes.modifyFrame, Array.size_modify]
    exact h.bound e he j hj
  nodup := h.nodup
  around := h.around
  distinct j := by
    by_cases hj : j < s.frames.size
    · rw [frame_modifyFrame i f hj]
      split
      case isTrue hij => exact hij ▸ hf
      case isFalse => exact h.distinct j
    · have hnil : (s.modifyFrame i f).frame j = [] := by
        simp [frame, Scopes.modifyFrame, Nat.le_of_not_lt hj]
      rw [hnil]
      exact List.nodup_nil

/-- A scope's own frame is searched from the scopes that see it. -/
theorem exposed_iff_sees (h : s.Forest made) {e e' : Scope} (he : e ∈ made) (he' : e' ∈ made)
    (name : String) : s.Exposed name e.frame e'.chain ↔ s.Sees name e e' := by
  constructor
  · rintro ⟨inner, outer, hchain, hinner⟩
    obtain rfl := h.around e he e' he' inner outer hchain
    exact ⟨inner, hchain, hinner⟩
  · rintro ⟨inner, hchain, hinner⟩
    exact ⟨inner, e.outer, hchain, hinner⟩

theorem changes (h : s.Forest made) {e : Scope} (he : e ∈ made) (name : String) (i : Nat)
    {f : Frame → Frame} (hf : ∀ x, x ≠ name → (f (s.frame i)).get? x = (s.frame i).get? x) :
    s.Changes (s.modifyFrame i f) name i e.chain :=
  changes_modifyFrame (h.bound e he) name i hf

/-- A binding made in a frame is found wherever the search comes to that frame. -/
theorem localUpdate_put (h : s.Forest made) (i : Nat) (name : String) (v : Value) :
    s.LocalUpdate (s.modifyFrame i (Frame.put name v)) made name
      (fun e => s.Exposed name i e.chain) (some v) := by
  intro e he
  have hchanges := h.changes he name i (f := Frame.put name v) fun x hx => by
    rw [Frame.get?_put, if_neg hx.symm]
  refine ⟨?_, fun x hx => hchanges.lookupIn_other hx⟩
  rintro ⟨inner, outer, hchain, hinner⟩
  have hi : i < s.frames.size := h.bound e he i (by simp [hchain])
  have hnodup := h.nodup e he
  rw [hchain] at hchanges hnodup
  rw [lookup, hchain, hchanges.lookupIn_exposed hnodup hinner, frame_modifyFrame _ _ hi,
    if_pos rfl, Frame.get?_put, if_pos rfl, Option.some_or]

/-- Once a scope's own binding is gone, what is around the scope can be seen through it. -/
theorem localUpdate_remove (h : s.Forest made) {e : Scope} (he : e ∈ made) (name : String) :
    s.LocalUpdate (s.modifyFrame e.frame (Frame.remove name)) made name (s.Sees name e)
      (s.lookupIn name e.outer) := by
  have hget := (h.distinct e.frame).get?_remove name
  refine LocalUpdate.congr (fun e' he' => ?_) fun e' he' => h.exposed_iff_sees he he' name
  have hchanges := h.changes he' name e.frame (f := Frame.remove name) fun x hx => by
    rw [hget, if_neg hx.symm]
  refine ⟨?_, fun x hx => hchanges.lookupIn_other hx⟩
  rintro ⟨inner, outer, hchain, hinner⟩
  have hi : e.frame < s.frames.size := h.bound e he _ List.mem_cons_self
  have hnodup := h.nodup e' he'
  obtain rfl := h.around e he e' he' inner outer hchain
  rw [hchain] at hchanges hnodup
  rw [lookup, hchain, hchanges.lookupIn_exposed hnodup hinner, frame_modifyFrame _ _ hi,
    if_pos rfl, hget, if_pos rfl, Option.none_or]

end Forest

end Scopes

/-- The scope that a scope was made in. -/
def Scope.parent? : Scope → Option Scope
  | ⟨_, []⟩ => none
  | ⟨_, i :: outer⟩ => some ⟨i, outer⟩

theorem Scopes.lookupIn_outer (s : Scopes) (e : Scope) (name : String) :
    s.lookupIn name e.outer = e.parent?.bind (s.lookup · name) := by
  obtain ⟨i, outer⟩ := e
  cases outer <;> rfl

namespace State

/-! ### Operations on scopes -/

/-- The states that operations on scopes lead to, with the scopes that have been made. -/
inductive Grown : State → List Scope → Prop
  | start : Grown {} []
  | root {s made} (h : Grown s made) :
      Grown (s.onScopes Scopes.newRoot).2 ((s.onScopes Scopes.newRoot).1 :: made)
  | child {s made} (h : Grown s made) {e : Scope} (he : e ∈ made) :
      Grown (s.onScopes (·.newChild e)).2 ((s.onScopes (·.newChild e)).1 :: made)
  | define {s made} (h : Grown s made) {e : Scope} (he : e ∈ made) (name : String) (v : Value) :
      Grown (s.define e name v) made
  | assign {s made} (h : Grown s made) {e : Scope} (he : e ∈ made) (name : String) (v : Value) :
      Grown (s.assign e name v).2 made
  | remove {s made} (h : Grown s made) {e : Scope} (he : e ∈ made) (name : String) :
      Grown (s.remove e name).2 made
  | register {s made} (h : Grown s made) {e : Scope} (he : e ∈ made) (entry : Entry) :
      Grown (s.register e entry) made
  /-- Whatever else happens to the state. -/
  | other {s s' made} (h : Grown s made) (hs : s'.scopes = s.scopes) : Grown s' made

/-- An assignment changes the nearest binding, or there is none and nothing changes. -/
theorem assign_cases (s : State) (e : Scope) (name : String) (v : Value) :
    (∃ i, s.scopes.Nearest name e.chain i ∧ s.assign e name v =
      (.ok (), { s with scopes := s.scopes.modifyFrame i (Frame.put name v) })) ∨
    ((¬ ∃ i ∈ e.chain, (s.scopes.frame i).binds name = true) ∧
      s.assign e name v = (.error (s.unboundError e name), s)) := by
  unfold State.assign
  split
  case h_1 i howner => exact .inl ⟨i, Scopes.ownerIn?_eq_some_iff.mp howner, rfl⟩
  case h_2 hnone =>
    refine .inr ⟨fun hbinds => ?_, rfl⟩
    obtain ⟨i, howner⟩ := Scopes.exists_ownerIn?_iff.mpr hbinds
    rw [Scopes.owner?, howner] at hnone
    cases hnone

/-- A removal takes away a binding of the scope's own frame, or there is none and nothing
changes. -/
theorem remove_cases (s : State) (e : Scope) (name : String) :
    (∃ w, (s.scopes.frame e.frame).get? name = some w ∧ s.remove e name =
      (.ok w, { s with scopes := s.scopes.modifyFrame e.frame (Frame.remove name) })) ∨
    ((s.scopes.frame e.frame).get? name = none ∧
      s.remove e name = (.error (s.unboundError e name), s)) := by
  unfold State.remove Scopes.remove?
  cases hget : (s.scopes.frame e.frame).get? name with
  | some w => exact .inl ⟨w, rfl, rfl⟩
  | none => exact .inr ⟨rfl, rfl⟩

namespace Grown

variable {s : State} {made : List Scope}

/-- Each operation keeps the tree. -/
theorem forest (h : s.Grown made) : s.scopes.Forest made := by
  induction h with
  | start => exact .nil
  | root _ ih => exact ih.add (.inl rfl)
  | child _ he ih => exact ih.add (.inr ⟨_, he, rfl⟩)
  | @define _ _ _ e _ name v ih => exact ih.modifyFrame e.frame ((ih.distinct _).put name v)
  | @assign s _ _ e _ name v ih =>
      obtain ⟨i, -, hassign⟩ | ⟨-, hassign⟩ := s.assign_cases e name v
      · rw [hassign]
        exact ih.modifyFrame i ((ih.distinct _).put name v)
      · rw [hassign]
        exact ih
  | @remove s _ _ e _ name ih =>
      obtain ⟨w, -, hremove⟩ | ⟨-, hremove⟩ := s.remove_cases e name
      · rw [hremove]
        exact ih.modifyFrame e.frame ((ih.distinct _).remove name)
      · rw [hremove]
        exact ih
  | register _ _ entry ih => exact ih.modifyFrame _ ((ih.distinct _).put entry.name _)
  | other _ hs ih => exact hs ▸ ih

end Grown

theorem views_agree (s : State) (e : Scope) (name : String) (v : Value) :
    [∃ w, s.scopes.lookup e name = some w, s.scopes.contains e name = true,
      ∃ w, s.get e name = .ok w, name ∈ s.scopes.names e, (s.assign e name v).1 = .ok ()].TFAE := by
  tfae_have 1 ↔ 2 := Scopes.exists_lookupIn_iff.trans Scopes.contains_iff.symm
  tfae_have 1 ↔ 3 := by
    unfold State.get
    cases s.scopes.lookup e name <;> simp
  tfae_have 4 ↔ 2 := Scopes.mem_names_iff.trans Scopes.contains_iff.symm
  tfae_have 5 ↔ 2 := by
    rw [Scopes.contains_iff]
    obtain ⟨i, ⟨inner, outer, hchain, hbinds, -⟩, hassign⟩ | ⟨hnone, hassign⟩ :=
      s.assign_cases e name v
    · have hmem : i ∈ e.chain := by simp [hchain]
      simp only [hassign, true_iff]
      exact ⟨i, hmem, hbinds⟩
    · simp [hassign, hnone]
  tfae_finish

/-- In every state that operations on scopes lead to, and for every scope and name:

* the ways to ask whether the name is visible agree, and the visible names are listed once each,
  wherever the chain is cut those of the nearer frames first;
* an assignment that succeeds changes what is found from the scopes with the same nearest owner, a
  definition what is found from the scopes that see the scope's own frame, and nothing else;
* a removal succeeds for the scope's own names and lets the binding around the scope be seen;
* what fails changes nothing. -/
theorem views_agree_updates_local {s : State} {made : List Scope} (h : s.Grown made) {e : Scope}
    (he : e ∈ made) (name : String) (v : Value) :
    [∃ w, s.scopes.lookup e name = some w, s.scopes.contains e name = true,
      ∃ w, s.get e name = .ok w, name ∈ s.scopes.names e,
      (s.assign e name v).1 = .ok ()].TFAE ∧
    (s.scopes.names e).Nodup ∧
    (∀ inner outer, e.chain = inner ++ outer → ∃ near far, s.scopes.names e = near ++ far ∧
      (∀ x, x ∈ near ↔ ∃ i ∈ inner, (s.scopes.frame i).binds x = true) ∧
      ∀ x, x ∈ far ↔ (∃ i ∈ outer, (s.scopes.frame i).binds x = true) ∧
        ∀ i ∈ inner, (s.scopes.frame i).binds x = false) ∧
    ((s.assign e name v).1 = .ok () → ∃ i, s.scopes.Nearest name e.chain i ∧
      s.scopes.LocalUpdate (s.assign e name v).2.scopes made name
        (fun e' => s.scopes.Nearest name e'.chain i) (some v)) ∧
    s.scopes.LocalUpdate (s.define e name v).scopes made name (s.scopes.Sees name e) (some v) ∧
    ((∃ w, (s.remove e name).1 = .ok w) ↔ (s.scopes.frame e.frame).binds name = true) ∧
    (∀ w, (s.remove e name).1 = .ok w → s.scopes.lookup e name = some w ∧
      s.scopes.LocalUpdate (s.remove e name).2.scopes made name (s.scopes.Sees name e)
        (e.parent?.bind (s.scopes.lookup · name))) ∧
    ((s.assign e name v).1 ≠ .ok () → (s.assign e name v).2 = s) ∧
    ((¬ ∃ w, (s.remove e name).1 = .ok w) → (s.remove e name).2 = s) := by
  have hforest := h.forest
  have hassign := s.assign_cases e name v
  have hremove := s.remove_cases e name
  refine ⟨s.views_agree e name v, Scopes.nodup_eraseDups _, fun _ _ => Scopes.names_split,
    fun hok => ?_, ?_, ?_, fun w hw => ?_, fun hfail => ?_, fun hfail => ?_⟩
  · obtain ⟨i, hi, hassign⟩ | ⟨-, hassign⟩ := hassign
    · rw [hassign]
      refine ⟨i, hi, (hforest.localUpdate_put i name v).congr fun e' _ => ?_⟩
      exact Scopes.exposed_iff_nearest hi
    · rw [hassign] at hok
      cases hok
  · exact (hforest.localUpdate_put e.frame name v).congr fun e' he' =>
      hforest.exposed_iff_sees he he' name
  · rw [← Frame.isSome_get?]
    obtain ⟨w, hget, hremove⟩ | ⟨hget, hremove⟩ := hremove <;> simp [hremove, hget]
  · obtain ⟨w', hget, hremove⟩ | ⟨-, hremove⟩ := hremove
    · rw [hremove] at hw ⊢
      cases hw
      rw [← Scopes.lookupIn_outer]
      refine ⟨?_, hforest.localUpdate_remove he name⟩
      rw [Scopes.lookup, Scope.chain, Scopes.lookupIn, hget]
    · rw [hremove] at hw
      cases hw
  · obtain ⟨i, -, hassign⟩ | ⟨-, hassign⟩ := hassign
    · exact absurd (by rw [hassign]) hfail
    · rw [hassign]
  · obtain ⟨w, -, hremove⟩ | ⟨-, hremove⟩ := hremove
    · exact absurd ⟨w, by rw [hremove]⟩ hfail
    · rw [hremove]

/-- Two scopes side by side, of which the first has an `x` of its own: it shares `y` with the other,
is not concerned by the `x` around it, and sees that one when its own is gone. -/
theorem views_agree_updates_local_siblings :
    ∃ s : State, s.Grown [⟨2, [0]⟩, ⟨1, [0]⟩, ⟨0, []⟩] ∧ "y" ∈ s.scopes.names ⟨1, [0]⟩ ∧
      (s.assign ⟨1, [0]⟩ "y" (.int 5)).2.scopes.lookup ⟨2, [0]⟩ "y" = some (.int 5) ∧
      (s.define ⟨0, []⟩ "x" (.int 6)).scopes.lookup ⟨2, [0]⟩ "x" = some (.int 6) ∧
      (s.define ⟨0, []⟩ "x" (.int 6)).scopes.lookup ⟨1, [0]⟩ "x" = some (.int 3) ∧
      (s.remove ⟨1, [0]⟩ "x").2.scopes.lookup ⟨1, [0]⟩ "x" = some (.int 1) := by
  have houter := (Grown.start.root.define (e := ⟨0, []⟩) (by decide) "x" (.int 1)).define
    (e := ⟨0, []⟩) (by decide) "y" (.int 2)
  have hfirst := (houter.child (e := ⟨0, []⟩) (by decide)).define
    (e := ⟨1, [0]⟩) (by decide) "x" (.int 3)
  have hgrown := hfirst.child (e := ⟨0, []⟩) (by decide)
  refine ⟨_, hgrown, ?_, ?_, ?_, ?_, ?_⟩
  · have hviews := (views_agree_updates_local hgrown (e := ⟨1, [0]⟩) (by decide) "y" (.int 5)).1
    exact (hviews.out 1 3).mp rfl
  · obtain ⟨-, -, -, hassign, -⟩ :=
      views_agree_updates_local hgrown (e := ⟨1, [0]⟩) (by decide) "y" (.int 5)
    obtain ⟨i, hi, hupdate⟩ := hassign rfl
    obtain rfl : 0 = i := Option.some.inj (Scopes.ownerIn?_eq_some_iff.mpr hi)
    refine (hupdate ⟨2, [0]⟩ (by decide)).1 ⟨[2], [], rfl, rfl, by decide⟩
  · obtain ⟨-, -, -, -, hdefine, -⟩ :=
      views_agree_updates_local hgrown (e := ⟨0, []⟩) (by decide) "x" (.int 6)
    exact (hdefine ⟨2, [0]⟩ (by decide)).1 ⟨[2], rfl, by decide⟩
  · obtain ⟨-, -, -, -, hdefine, -⟩ :=
      views_agree_updates_local hgrown (e := ⟨0, []⟩) (by decide) "x" (.int 6)
    refine (hdefine ⟨1, [0]⟩ (by decide)).2 "x" ?_
    rintro ⟨-, inner, hchain, hinner⟩
    obtain rfl : [1] = inner := List.append_cancel_right hchain
    exact absurd (hinner 1 List.mem_cons_self) (by decide)
  · obtain ⟨-, -, -, -, -, -, hremove, -⟩ :=
      views_agree_updates_local hgrown (e := ⟨1, [0]⟩) (by decide) "x" (.int 0)
    exact ((hremove (.int 3) rfl).2 ⟨1, [0]⟩ (by decide)).1 ⟨[], rfl, by decide⟩

end State

end DispatchLisp
