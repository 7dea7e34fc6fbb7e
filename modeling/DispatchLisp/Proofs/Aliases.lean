import DispatchLisp.Evaluation
import DispatchLisp.Proofs.Bindings
import Mathlib.Data.List.Perm.Subperm
import Mathlib.Logic.Relation

/-! # Aliases

A name that is bound to a name is an alias of it (`Scopes.Alias`).  What a name stands for is found
by a walk from alias to alias, which looks up one name after the other and stops at a value that is
no name, at an unbound name, or at a name that it has passed before (`Scopes.Walk`).

* **The walk ends.**  The names that it passes are visible and all different, so there are not more
  of them than visible names (`Scopes.Walk.length_le`).  The bound on the steps of `Scopes.follow`
  is therefore never felt, and `Scopes.resolve` gives the end of the walk (`Scopes.walk_resolve`).
* **The end is final.**  A walk from the end of a walk comes back to it: a name that was passed
  before is the one where the walk entered a cycle, and the rest of the walk goes once round the
  cycle (`Scopes.Walk.settled`).
* **The aliases form a functional graph,** so what a chain of aliases leads to is determined by its
  last name (`Scopes.resolve_of_chain`). -/

namespace DispatchLisp

namespace Scopes

open Relation

/-! ### Walks -/

/-- The name `x` is bound to the name `y`. -/
def Alias (s : Scopes) (e : Scope) (x y : String) : Prop := s.lookup e x = some (.ident y)

/-- Following aliases from the name leads back to it. -/
def OnCycle (s : Scopes) (e : Scope) (x : String) : Prop := TransGen (s.Alias e) x x

/-- `s.Walk e seen v asked r`: the walk that has passed the names `seen` and has come to the value
`v` looks up the names `asked`, in this order, and ends with `r`. -/
inductive Walk (s : Scopes) (e : Scope) : List String → Value → List String → Value → Prop
  | value {seen : List String} {v : Value} : (∀ x, v ≠ .ident x) → Walk s e seen v [] v
  | again {seen : List String} {x : String} : x ∈ seen → Walk s e seen (.ident x) [] (.ident x)
  | unbound {seen : List String} {x : String} : x ∉ seen → s.lookup e x = none →
      Walk s e seen (.ident x) [x] (.ident x)
  | bound {seen asked : List String} {x : String} {v r : Value} : x ∉ seen →
      s.lookup e x = some v → Walk s e (x :: seen) v asked r →
      Walk s e seen (.ident x) (x :: asked) r

section

variable {s : Scopes} {e : Scope} {seen asked : List String} {v r : Value} {x y : String}

/-- There is only one way to walk. -/
theorem Walk.unique {asked' : List String} {r' : Value} (h : s.Walk e seen v asked r)
    (h' : s.Walk e seen v asked' r') : asked = asked' ∧ r = r' := by
  induction h generalizing asked' r' with
  | value hv =>
      cases h' with
      | value _ => exact ⟨rfl, rfl⟩
      | again _ => exact absurd rfl (hv _)
      | unbound _ _ => exact absurd rfl (hv _)
      | bound _ _ _ => exact absurd rfl (hv _)
  | again hx =>
      cases h' with
      | value hv => exact absurd rfl (hv _)
      | again _ => exact ⟨rfl, rfl⟩
      | unbound hnew _ => exact absurd hx hnew
      | bound hnew _ _ => exact absurd hx hnew
  | unbound hnew hnone =>
      cases h' with
      | value hv => exact absurd rfl (hv _)
      | again hx => exact absurd hx hnew
      | unbound _ _ => exact ⟨rfl, rfl⟩
      | bound _ hsome _ => cases hnone.symm.trans hsome
  | bound hnew hsome _ ih =>
      cases h' with
      | value hv => exact absurd rfl (hv _)
      | again hx => exact absurd hx hnew
      | unbound _ hnone => cases hnone.symm.trans hsome
      | bound _ hsome' hrest =>
          cases hsome.symm.trans hsome'
          obtain ⟨rfl, rfl⟩ := ih hrest
          exact ⟨rfl, rfl⟩

/-! ### The walk ends -/

theorem mem_names_of_lookup (h : s.lookup e x = some v) : x ∈ s.names e :=
  mem_names_iff.mpr (exists_lookupIn_iff.mp ⟨v, h⟩)

/-- The names that a walk has passed: visible ones, none of them twice. -/
structure Passed (s : Scopes) (e : Scope) (seen : List String) : Prop where
  nodup : seen.Nodup
  visible : ∀ x ∈ seen, x ∈ s.names e

theorem passed_nil : s.Passed e [] := ⟨List.nodup_nil, fun _ hx => nomatch hx⟩

theorem Passed.cons (h : s.Passed e seen) (hnew : x ∉ seen) (hsome : s.lookup e x = some v) :
    s.Passed e (x :: seen) :=
  ⟨List.nodup_cons.mpr ⟨hnew, h.nodup⟩,
    List.forall_mem_cons.mpr ⟨mem_names_of_lookup hsome, h.visible⟩⟩

/-- There are no more of them than visible names. -/
theorem Passed.length_le (h : s.Passed e seen) : seen.length ≤ (s.names e).length :=
  (List.subperm_of_subset h.nodup h.visible).length_le

/-- **All names that are looked up are visible and different,** but for the last one, which may be
unbound. -/
theorem Walk.length_le (h : s.Walk e seen v asked r) (hseen : s.Passed e seen) :
    asked.length + seen.length ≤ (s.names e).length + 1 := by
  induction h with
  | value _ =>
      have := hseen.length_le
      rw [List.length_nil]
      omega
  | again _ =>
      have := hseen.length_le
      rw [List.length_nil]
      omega
  | unbound _ _ =>
      have := hseen.length_le
      rw [List.length_singleton]
      omega
  | bound hnew hsome _ ih =>
      have := ih (hseen.cons hnew hsome)
      rw [List.length_cons] at this ⊢
      omega

theorem length_flatMap_names (s : Scopes) (chain : List Nat) (n : Nat) :
    n + (chain.flatMap fun i => (s.frame i).names).length =
      chain.foldl (fun n i => n + (s.frame i).length) n := by
  induction chain generalizing n with
  | nil => rfl
  | cons i chain ih =>
      have hframe : (s.frame i).names.length = (s.frame i).length := by
        rw [(s.frame i).names_perm.length_eq, List.length_map]
      rw [List.flatMap_cons, List.length_append, List.foldl_cons, ← ih, hframe, Nat.add_assoc]

theorem nodup_names (s : Scopes) (e : Scope) : (s.names e).Nodup := nodup_eraseDups _

/-- There are no more visible names than bindings. -/
theorem length_names_le_reach (s : Scopes) (e : Scope) : (s.names e).length ≤ s.reach e := by
  have hsubset : s.names e ⊆ e.chain.flatMap fun i => (s.frame i).names := by
    intro x hx
    rwa [names, List.mem_eraseDups] at hx
  have hle := (List.subperm_of_subset (s.nodup_names e) hsubset).length_le
  rw [reach, ← length_flatMap_names, Nat.zero_add]
  exact hle

/-- With more steps than there are visible names left, `follow` gives the end of the walk. -/
theorem walk_follow {fuel : Nat} (hseen : s.Passed e seen)
    (hfuel : (s.names e).length < fuel + seen.length) (v : Value) :
    ∃ asked, s.Walk e seen v asked (s.follow e fuel seen v) := by
  induction fuel generalizing seen v with
  | zero =>
      have := hseen.length_le
      omega
  | succ fuel ih =>
      unfold follow
      split
      case h_1 x =>
        split
        case isTrue hx => exact ⟨[], .again (List.contains_iff_mem.mp hx)⟩
        case isFalse hx =>
          have hnew : x ∉ seen := fun hmem => hx (List.contains_iff_mem.mpr hmem)
          split
          case h_1 next hsome =>
            have hmore : (s.names e).length < fuel + (x :: seen).length := by
              rw [List.length_cons]
              omega
            obtain ⟨asked, hwalk⟩ := ih (hseen.cons hnew hsome) hmore next
            exact ⟨x :: asked, .bound hnew hsome hwalk⟩
          case h_2 hnone => exact ⟨[x], .unbound hnew hnone⟩
      case h_2 hv => exact ⟨[], .value hv⟩

/-- **What a value stands for is the end of the walk.** -/
theorem walk_resolve (s : Scopes) (e : Scope) (v : Value) :
    ∃ asked, s.Walk e [] v asked (s.resolve e v) := by
  unfold resolve
  split
  case h_1 x =>
    split
    case h_1 next hsome =>
      have hfuel : (s.names e).length < s.reach e + 1 + [x].length := by
        have := s.length_names_le_reach e
        rw [List.length_singleton]
        omega
      obtain ⟨asked, hwalk⟩ :=
        walk_follow (passed_nil.cons List.not_mem_nil hsome) hfuel (.ident next)
      exact ⟨x :: asked, .bound List.not_mem_nil hsome hwalk⟩
    case h_2 value hvalue hsome =>
      exact ⟨[x], .bound List.not_mem_nil hsome (.value hvalue)⟩
    case h_3 hnone => exact ⟨[x], .unbound List.not_mem_nil hnone⟩
  case h_2 hv => exact ⟨[], .value hv⟩

theorem Walk.resolve_eq (h : s.Walk e [] v asked r) : s.resolve e v = r := by
  obtain ⟨_, hwalk⟩ := s.walk_resolve e v
  exact (hwalk.unique h).2

/-! ### The end is final -/

/-- A walk to a name that it has passed before could have begun anywhere before that name. -/
theorem Walk.later {seen' : List String} (h : s.Walk e seen v asked r) (hsubset : seen' ⊆ seen)
    (hend : ∀ x, r = .ident x → x ∈ seen → x ∈ seen') : s.Walk e seen' v asked r := by
  induction h generalizing seen' with
  | value hv => exact .value hv
  | again hx => exact .again (hend _ rfl hx)
  | unbound hnew hnone => exact .unbound (fun hmem => hnew (hsubset hmem)) hnone
  | @bound seen asked x v r hnew hsome _ ih =>
      refine .bound (fun hmem => hnew (hsubset hmem)) hsome (ih ?_ fun y hy hmem => ?_)
      · exact List.cons_subset_cons x hsubset
      · rcases List.mem_cons.mp hmem with rfl | hmem
        · exact List.mem_cons_self
        · exact List.mem_cons_of_mem _ (hend y hy hmem)

/-- A walk that begins with the value ends with it. -/
def Settled (s : Scopes) (e : Scope) (r : Value) : Prop := ∃ asked, s.Walk e [] r asked r

/-- The end of a walk is settled, unless it is a name that was passed before the walk began. -/
theorem Walk.settled_or_seen (h : s.Walk e seen v asked r) :
    s.Settled e r ∨ ∃ x ∈ seen, r = .ident x := by
  induction h with
  | value hv => exact .inl ⟨[], .value hv⟩
  | again hx => exact .inr ⟨_, hx, rfl⟩
  | unbound _ hnone => exact .inl ⟨_, .unbound List.not_mem_nil hnone⟩
  | @bound seen asked x v r hnew hsome hrest ih =>
      rcases ih with hsettled | ⟨y, hy, rfl⟩
      · exact .inl hsettled
      · rcases List.mem_cons.mp hy with rfl | hy
        · -- The walk has come back to this name, so the rest of it is one round of the cycle.
          have hround : s.Walk e [y] v asked (.ident y) := by
            refine hrest.later ?_ fun z hz _ => ?_
            · exact List.cons_subset_cons y (List.nil_subset _)
            · cases hz
              exact List.mem_singleton_self y
          exact .inl ⟨y :: asked, .bound List.not_mem_nil hsome hround⟩
        · exact .inr ⟨y, hy, rfl⟩

theorem Walk.settled (h : s.Walk e [] v asked r) : s.Settled e r := by
  rcases h.settled_or_seen with hsettled | ⟨x, hx, -⟩
  · exact hsettled
  · cases hx

/-- A walk from a name passes aliases only: to the name where it ends, or to the last name, which is
bound to the value where it ends. -/
theorem Walk.exists_path (h : s.Walk e seen (.ident x) asked r) :
    ∃ y, ReflTransGen (s.Alias e) x y ∧
      (r = .ident y ∨ s.lookup e y = some r ∧ ∀ z, r ≠ .ident z) := by
  generalize hv : Value.ident x = v at h
  induction h generalizing x with
  | value hno => exact absurd hv.symm (hno x)
  | again _ => exact ⟨x, .refl, .inl hv.symm⟩
  | unbound _ _ => exact ⟨x, .refl, .inl hv.symm⟩
  | @bound seen asked y v r hnew hsome hrest ih =>
      obtain rfl : x = y := Value.ident.inj hv
      cases hrest with
      | value hno => exact ⟨x, .refl, .inr ⟨hsome, hno⟩⟩
      | again _ => exact ⟨_, .single hsome, .inl rfl⟩
      | unbound _ _ => exact ⟨_, .single hsome, .inl rfl⟩
      | bound _ _ _ =>
          obtain ⟨z, hpath, hend⟩ := ih rfl
          exact ⟨z, .head hsome hpath, hend⟩

theorem Walk.path_to_ident (h : s.Walk e seen v asked (.ident y)) :
    ∃ x, v = .ident x ∧ ReflTransGen (s.Alias e) x y := by
  cases v with
  | ident x =>
      obtain ⟨z, hpath, heq | ⟨-, hno⟩⟩ := h.exists_path
      · cases heq
        exact ⟨x, rfl, hpath⟩
      · exact absurd rfl (hno y)
  | _ => cases h

/-- A settled value is no name, or an unbound name, or a name on a cycle. -/
theorem Settled.cases (h : s.Settled e r) :
    (∀ x, r ≠ .ident x) ∨ (∃ x, r = .ident x ∧ s.lookup e x = none) ∨
      ∃ x, r = .ident x ∧ s.OnCycle e x := by
  obtain ⟨asked, hwalk⟩ := h
  cases hwalk with
  | value hno => exact .inl hno
  | again hx => cases hx
  | @unbound _ x _ hnone => exact .inr (.inl ⟨x, rfl, hnone⟩)
  | @bound _ _ x v _ _ hsome hrest =>
      obtain ⟨y, rfl, hpath⟩ := hrest.path_to_ident
      exact .inr (.inr ⟨x, rfl, TransGen.head' hsome hpath⟩)

/-! ### Chains of aliases -/

/-- A name is an alias of at most one name. -/
theorem alias_rightUnique (s : Scopes) (e : Scope) : Relator.RightUnique (s.Alias e) := by
  intro x y z hy hz
  cases hy.symm.trans hz
  rfl

/-- A chain of aliases can end with this name: it is unbound, or bound to a value that is no name.
-/
def EndsChain (s : Scopes) (e : Scope) (y : String) : Prop := ∀ z, ¬ s.Alias e y z

theorem EndsChain.eq_of_path (h : s.EndsChain e y) (hpath : ReflTransGen (s.Alias e) y x) :
    x = y := by
  rcases hpath.cases_head with rfl | ⟨z, hz, -⟩
  · rfl
  · exact absurd hz (h z)

/-- No chain leads from a cycle to an end. -/
theorem OnCycle.not_endsChain (h : s.OnCycle e x) (hpath : ReflTransGen (s.Alias e) x y) :
    ¬ s.EndsChain e y := by
  -- All names that the chain passes are on the cycle.
  have hy : s.OnCycle e y := by
    induction hpath with
    | refl => exact h
    | @tail a b _ hab ih =>
        obtain ⟨c, hac, hback⟩ := TransGen.head'_iff.mp ih
        cases s.alias_rightUnique e hab hac
        exact TransGen.tail' hback hab
  obtain ⟨z, hyz, -⟩ := TransGen.head'_iff.mp hy
  exact fun hend => hend z hyz

theorem endsChain_of_unbound (h : s.lookup e y = none) : s.EndsChain e y := by
  intro z hz
  cases h.symm.trans hz

theorem endsChain_of_value (h : s.lookup e y = some v) (hv : ∀ x, v ≠ .ident x) :
    s.EndsChain e y := by
  intro z hz
  cases h.symm.trans hz
  exact hv z rfl

/-- Two ends of chains from one name are the same. -/
theorem EndsChain.unique {y' : String} (h : s.EndsChain e y) (h' : s.EndsChain e y')
    (hpath : ReflTransGen (s.Alias e) x y) (hpath' : ReflTransGen (s.Alias e) x y') : y = y' := by
  rcases hpath.total_of_right_unique (s.alias_rightUnique e) hpath' with hmeet | hmeet
  · exact (h.eq_of_path hmeet).symm
  · exact h'.eq_of_path hmeet

/-- The aliases of a name lead to the end of a chain or to a cycle. -/
theorem exists_end (s : Scopes) (e : Scope) (x : String) :
    ∃ y, ReflTransGen (s.Alias e) x y ∧
      (s.EndsChain e y ∧ s.resolve e (.ident x) = (s.lookup e y).getD (.ident y) ∨
        s.OnCycle e y ∧ s.resolve e (.ident x) = .ident y) := by
  obtain ⟨asked, hwalk⟩ := s.walk_resolve e (.ident x)
  obtain ⟨y, hpath, hy | ⟨hsome, hno⟩⟩ := hwalk.exists_path
  · refine ⟨y, hpath, ?_⟩
    rcases hwalk.settled.cases with hno | ⟨z, hz, hnone⟩ | ⟨z, hz, hcycle⟩
    · exact absurd hy (hno y)
    · obtain rfl : z = y := Value.ident.inj (hz.symm.trans hy)
      exact .inl ⟨endsChain_of_unbound hnone, by rw [hnone, hy, Option.getD_none]⟩
    · obtain rfl : z = y := Value.ident.inj (hz.symm.trans hy)
      exact .inr ⟨hcycle, hy⟩
  · exact ⟨y, hpath, .inl ⟨endsChain_of_value hsome hno, by rw [hsome, Option.getD_some]⟩⟩

/-- **What a chain of aliases leads to:** the value of its last name, or the last name itself if
that is unbound. -/
theorem resolve_of_chain (hpath : ReflTransGen (s.Alias e) x y) (hend : s.EndsChain e y) :
    s.resolve e (.ident x) = (s.lookup e y).getD (.ident y) := by
  obtain ⟨z, hz, ⟨hzend, hvalue⟩ | ⟨hcycle, -⟩⟩ := s.exists_end e x
  · rw [hvalue, hzend.unique hend hz hpath]
  · rcases hz.total_of_right_unique (s.alias_rightUnique e) hpath with hmeet | hmeet
    · exact absurd hend (hcycle.not_endsChain hmeet)
    · obtain rfl := hend.eq_of_path hmeet
      exact absurd hend (hcycle.not_endsChain .refl)

end

end Scopes

open Relation

/-- **Alias resolution ends, and its end is final.**  Evaluating a name gives what it stands for and
changes nothing.  This is found by exactly one walk, with no more than one look-up beyond the number
of visible names.  It is a value that is no name, or an unbound name, or a name on a cycle of
aliases, and resolving it again gives the same.  All names from which aliases lead to the end `y` of
a chain stand for what `y` is bound to, or for `y` if it is unbound. -/
theorem State.alias_resolution_settles (s : State) (e : Scope) (a : String) :
    evalNode (.atom (.ident a)) e s = .done (.ok (s.scopes.resolve e (.ident a))) s ∧
    (∃ asked, asked.length ≤ (s.scopes.names e).length + 1 ∧
      ∀ asked' r, s.scopes.Walk e [] (.ident a) asked' r ↔
        asked' = asked ∧ r = s.scopes.resolve e (.ident a)) ∧
    ((∀ x, s.scopes.resolve e (.ident a) ≠ .ident x) ∨
      (∃ x, s.scopes.resolve e (.ident a) = .ident x ∧ s.scopes.lookup e x = none) ∨
      ∃ x, s.scopes.resolve e (.ident a) = .ident x ∧ s.scopes.OnCycle e x) ∧
    s.scopes.resolve e (s.scopes.resolve e (.ident a)) = s.scopes.resolve e (.ident a) ∧
    ∀ y, ReflTransGen (s.scopes.Alias e) a y → s.scopes.EndsChain e y →
      ∀ b, ReflTransGen (s.scopes.Alias e) b y →
        s.scopes.resolve e (.ident b) = s.scopes.resolve e (.ident a) ∧
        s.scopes.resolve e (.ident b) = (s.scopes.lookup e y).getD (.ident y) := by
  obtain ⟨asked, hwalk⟩ := s.scopes.walk_resolve e (.ident a)
  have hsettled := hwalk.settled
  refine ⟨rfl, ⟨asked, hwalk.length_le Scopes.passed_nil, fun asked' r => ?_⟩, hsettled.cases, ?_,
    fun y ha hend b hb => ?_⟩
  · constructor
    · exact fun hwalk' => hwalk'.unique hwalk
    · rintro ⟨rfl, rfl⟩
      exact hwalk
  · obtain ⟨_, hround⟩ := hsettled
    exact hround.resolve_eq
  · have hvalue := Scopes.resolve_of_chain hb hend
    exact ⟨hvalue.trans (Scopes.resolve_of_chain ha hend).symm, hvalue⟩

/-- Names of two scopes: `r` leads into the cycle of `a` and `b`, and `p` leads to `q`, which is
bound to a number. -/
theorem State.alias_resolution_settles_cycle :
    let s : State := {
      scopes := ⟨#[[("q", .int 7), ("a", .ident "b")],
        [("p", .ident "q"), ("b", .ident "a"), ("r", .ident "a")]]⟩ }
    let e : Scope := ⟨1, [0]⟩
    s.scopes.resolve e (.ident "r") = .ident "a" ∧
    s.scopes.resolve e (s.scopes.resolve e (.ident "r")) = .ident "a" ∧
    s.scopes.resolve e (.ident "p") = s.scopes.resolve e (.ident "q") := by
  intro s e
  have hr : s.scopes.resolve e (.ident "r") = .ident "a" := by decide
  have hp : ReflTransGen (s.scopes.Alias e) "p" "q" := .single rfl
  have hend : s.scopes.EndsChain e "q" := by
    intro z hz
    cases hz
  refine ⟨hr, ?_, ?_⟩
  · exact (s.alias_resolution_settles e "r").2.2.2.1.trans hr
  · exact ((s.alias_resolution_settles e "q").2.2.2.2 "q" .refl hend "p" hp).1

end DispatchLisp
