import DispatchLisp.Proofs.Effects
import DispatchLisp.Proofs.Moves
import Mathlib.Logic.Relation

/-! # The depth stays within the limit

While a form is evaluated, a level of nesting is counted, and a form that would go beyond the limit
is refused.  So the depth of the fiber that runs is never greater than the limit: at no step of a
run, and in no thread (`Machine.Nests.reaches`).

Unlike the names of the calls, the depth is a number in the state, and what waits on the stack of a
fiber relies on it.  `Stack.Within` keeps account of the depths at which the programs of a stack
go on. -/

namespace DispatchLisp

/-! ### Programs -/

namespace Program

variable {α β : Type} {limit depth : Nat}

/-- Wherever the program stops, the depth is within the limit.  It ends at the depth `depth`, if its
jobs end at the depth at which they begin. -/
inductive Within (limit depth : Nat) : Program α → Prop
  | done {r : Except Error α} {s : State} (hlimit : s.limit = limit) (hdepth : s.depth = depth) :
      Within limit depth (.done r s)
  | call {job : Job} {s : State} {next : Result → State → Program α} (hlimit : s.limit = limit)
      (hdepth : s.depth ≤ limit)
      (rest : ∀ r u, u.limit = limit → u.depth = s.depth → Within limit depth (next r u)) :
      Within limit depth (.call job s next)
  | await {c : Condition} {s : State} {next : State → Program α} (hlimit : s.limit = limit)
      (hdepth : s.depth ≤ limit)
      (rest : ∀ u, u.limit = limit → u.depth = s.depth → Within limit depth (next u)) :
      Within limit depth (.await c s next)

theorem Within.andThen {depth' : Nat} {p : Program α} {f : Except Error α → State → Program β}
    (h : Within limit depth p)
    (hf : ∀ r s, s.limit = limit → s.depth = depth → Within limit depth' (f r s)) :
    Within limit depth' (p.andThen f) := by
  induction h with
  | done hlimit hdepth => exact hf _ _ hlimit hdepth
  | call hlimit hdepth rest ih => exact .call hlimit hdepth ih
  | await hlimit hdepth rest ih => exact .await hlimit hdepth ih

end Program

/-- **A regular computation stays within the limit** and ends at the depth at which it begins. -/
theorem Eval.Regular.within {α : Type} {own : Set Nat} {m : Eval α} {limit : Nat}
    (h : Regular False own m) (t : State) (hlimit : t.limit = limit) (hdepth : t.depth ≤ limit) :
    (m t).Within limit t.depth := by
  induction h generalizing t with
  | result r _ => exact .done hlimit rfl
  | choose pick regular blind eq ih =>
      rw [eq t]
      exact ih t False.elim t hlimit hdepth
  | heap m _ => exact .done hlimit rfl
  | define name value owned => exact .done hlimit rfl
  | assign scope name value =>
      change Program.Within _ _ (.done (t.assign scope name value).1 (t.assign scope name value).2)
      unfold State.assign
      split <;> exact .done hlimit rfl
  | @remove own scope name owned =>
      change Program.Within _ _ (.done (t.remove scope name).1 (t.remove scope name).2)
      unfold State.remove
      split <;> exact .done hlimit rfl
  | makeFunction e _ => exact .done hlimit rfl
  | print text => exact .done hlimit rfl
  | spawn f scope => exact .done hlimit rfl
  | join thread =>
      rw [Prelude.threadJoin_eq]
      split
      · exact .done hlimit rfl
      · exact .await hlimit hdepth fun u hlimit' hdepth' => .done hlimit' hdepth'
  | perform owned => exact .call hlimit hdepth fun r u hlimit' hdepth' => .done hlimit' hdepth'
  | await c => exact .await hlimit hdepth fun u hlimit' hdepth' => .done hlimit' hdepth'
  | bind first next ihm ihf =>
      refine (ihm t hlimit hdepth).andThen fun r s hlimit' hdepth' => ?_
      cases r with
      | ok a =>
          rw [← hdepth']
          exact ihf a s hlimit' (hdepth'.trans_le hdepth)
      | error e => exact .done hlimit' hdepth'
  | @child own α f scope next ih =>
      exact ih _ (t.onScopes (·.newChild scope)).2 hlimit hdepth
  | nested inner ih =>
      unfold Eval.nested
      split
      case isTrue => exact .done hlimit rfl
      case isFalse hfits =>
        have hdeeper : t.depth + 1 ≤ limit := by omega
        refine (ih { t with depth := t.depth + 1 } hlimit hdeeper).andThen ?_
        intro r s hlimit' hdepth'
        refine .done hlimit' ?_
        change s.depth - 1 = t.depth
        rw [hdepth']
        rfl
  | framed name inner ih =>
      refine (ih (t.pushCall name) hlimit hdepth).andThen ?_
      exact fun r s hlimit' hdepth' => .done hlimit' hdepth'

/-! ### The machine -/

/-- The programs of a stack stay within the limit if the first one goes on at the depth `depth`. -/
inductive Stack.Within (limit : Nat) : Nat → Stack → Prop
  | nil {depth : Nat} : Within limit depth []
  | cons {depth depth' : Nat} {next : Result → State → Program Value} {stack : Stack}
      (hnext : ∀ r u, u.limit = limit → u.depth = depth → (next r u).Within limit depth')
      (hdepth : depth' ≤ limit) (rest : Within limit depth' stack) :
      Within limit depth (next :: stack)

/-- The fiber stays within the limit when it goes on. -/
def Fiber.Within (limit : Nat) (f : Fiber) : Prop :=
  ∃ depth ≤ limit, (∀ u, u.limit = limit → u.depth = f.depth → (f.next u).Within limit depth) ∧
    Stack.Within limit depth f.stack

namespace Machine

variable {m m' : Machine} {waiting : List Fiber} {s : State} {limit : Nat}

/-- The state of the fiber that runs. -/
def state (m : Machine) : State :=
  match m.program with
  | .done _ s => s
  | .call _ s _ => s
  | .await _ s _ => s

/-- The invariant of the machine: every fiber stays within the limit. -/
structure Nests (limit : Nat) (m : Machine) : Prop where
  running : ∃ depth ≤ limit, m.program.Within limit depth ∧ Stack.Within limit depth m.stack
  parked : ∀ f ∈ m.waiting, f.Within limit

theorem Nests.state (h : Nests limit m) : m.state.limit = limit ∧ m.state.depth ≤ limit := by
  obtain ⟨thread, program, stack, waiting, turn⟩ := m
  obtain ⟨depth, hdepth, hprogram, -⟩ := h.running
  cases hprogram with
  | done hlimit hends => exact ⟨hlimit, hends.trans_le hdepth⟩
  | call hlimit hdepth rest => exact ⟨hlimit, hdepth⟩
  | await hlimit hdepth rest => exact ⟨hlimit, hdepth⟩

theorem Nests.yields (h : Nests limit m) (hyields : Yields m waiting s) :
    s.limit = limit ∧ ∀ f ∈ waiting, f.Within limit := by
  obtain ⟨depth, hdepth, hprogram, hstack⟩ := h.running
  have hparked := h.parked
  cases hyields with
  | turn thread job s next stack waiting =>
      cases hprogram with
      | call hlimit hwithin rest =>
          refine ⟨hlimit, List.forall_mem_append.mpr ⟨hparked, ?_⟩⟩
          refine List.forall_mem_singleton.mpr ⟨depth, hdepth, fun u hlimit' hdepth' => ?_, hstack⟩
          refine .call hlimit' (hdepth'.trans_le hwithin) fun r v hlimit'' hdepth'' => ?_
          exact rest r v hlimit'' (hdepth''.trans hdepth')
  | wait thread c s next stack waiting turn unmet =>
      cases hprogram with
      | await hlimit hwithin rest =>
          refine ⟨hlimit, List.forall_mem_append.mpr ⟨hparked, ?_⟩⟩
          exact List.forall_mem_singleton.mpr ⟨depth, hdepth, rest, hstack⟩
  | finish i r s waiting turn =>
      cases hprogram with
      | done hlimit hends => exact ⟨hlimit, hparked⟩

theorem nests_of_chooses (hlimit : s.limit = limit) (h : ∀ f ∈ waiting, f.Within limit)
    (hchooses : Chooses waiting s m) : Nests limit m := by
  cases hchooses with
  | @fresh i f scope hfresh =>
      refine ⟨⟨0, Nat.zero_le _, ?_, .nil⟩, h⟩
      exact (Job.regular (.apply f [] scope)).within
        { s.begin i with calls := [], depth := 0 } hlimit (Nat.zero_le _)
  | @ready time f rest hready =>
      have hperm := takeReady_perm hready
      obtain ⟨depth, hdepth, hnext, hstack⟩ := h f (hperm.mem_iff.mpr List.mem_cons_self)
      refine ⟨⟨depth, hdepth, hnext _ hlimit rfl, hstack⟩, fun g hg => ?_⟩
      exact h g (hperm.mem_iff.mpr (List.mem_cons_of_mem _ hg))

/-- **One step of the machine stays within the limit.** -/
theorem Nests.step (h : Nests limit m) (hstep : m.step = .next m') : Nests limit m' := by
  obtain ⟨depth, hdepth, hprogram, hstack⟩ := h.running
  have hparked := h.parked
  cases moves_of_step hstep with
  | opens thread job s next stack waiting turn =>
      cases hprogram with
      | call hlimit hwithin rest =>
          have hbody := job.regular.within s hlimit hwithin
          exact ⟨⟨s.depth, hwithin, hbody, .cons rest hdepth hstack⟩, hparked⟩
  | goes thread c s next stack waiting turn met =>
      cases hprogram with
      | await hlimit hwithin rest =>
          exact ⟨⟨depth, hdepth, rest s hlimit rfl, hstack⟩, hparked⟩
  | returns thread r s next stack waiting turn =>
      cases hprogram with
      | done hlimit hends =>
          cases hstack with
          | @cons _ depth' _ _ hnext hdepth' hrest =>
              exact ⟨⟨depth', hdepth', hnext r s hlimit hends, hrest⟩, hparked⟩
  | yields hyields hchooses =>
      obtain ⟨hlimit, hwaiting⟩ := h.yields hyields
      exact nests_of_chooses hlimit hwaiting hchooses

/-- The machine gets from one place to the other. -/
def Reaches (m m' : Machine) : Prop := Relation.ReflTransGen (fun a b => a.step = .next b) m m'

/-- **A run stays within the limit.** -/
theorem Nests.reaches (h : Nests limit m) (hreaches : m.Reaches m') : Nests limit m' := by
  induction hreaches with
  | refl => exact h
  | tail _ hstep ih => exact ih.step hstep

end Machine

end DispatchLisp
