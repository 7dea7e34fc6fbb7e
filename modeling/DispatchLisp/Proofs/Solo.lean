import DispatchLisp.Proofs.Datum
import DispatchLisp.Proofs.Reentry

/-! # A fiber by itself

What a program comes to when no other fiber is there, and which jobs it carries out on the way.  At
the end of its turn a fiber without others goes on at once, so that only the clock shows how its
jobs are spread over turns.

`Program.Achieves` is the judgement: the program ends, and its jobs, its result and its last state
are as the postcondition says.  It has one rule for each way to go on without waiting, and the rule
for programs one after the other follows by induction.  It is sound (`Program.Achieves.finish`): the
machine finishes, and the jobs are those that its steps open (`Machine.jobs`).

`Program.Settles` leads backwards to one goal and says nothing of the way; here it matters which
calls were made, so the jobs are part of the judgement.

Many computations only add to the state: new scopes, collections, functions (`State.Adds`).
`Eval.Succeeds` is the judgement for those that do and give a value. -/

namespace DispatchLisp

/-! ### The jobs of a run -/

namespace Machine

/-- The job that the next step opens, if it opens one. -/
def opened (m : Machine) : List Job :=
  match m.program, m.turn with
  | .call job _ _, _ + 1 => [job]
  | _, _ => []

/-- The jobs that the first steps open, in order. -/
def jobs : Nat → Machine → List Job
  | 0, _ => []
  | fuel + 1, m =>
    match m.step with
    | .next m' => m.opened ++ jobs fuel m'
    | _ => []

/-- The machine comes from one place to another, and these jobs are opened on the way. -/
inductive Opens : Machine → List Job → Machine → Prop
  | refl (m : Machine) : Opens m [] m
  | step {m m' m'' : Machine} {js : List Job} (first : m.step = .next m')
      (others : Opens m' js m'') : Opens m (m.opened ++ js) m''

variable {m m' m'' : Machine} {js js' : List Job}

theorem Opens.trans (h : Opens m js m') (h' : Opens m' js' m'') : Opens m (js ++ js') m'' := by
  induction h with
  | refl => exact h'
  | step first _ ih =>
      rw [List.append_assoc]
      exact .step first (ih h')

theorem Opens.finish {r : Result} {s : State} {left : List Fiber} {turn : Nat}
    (h : Opens m js ⟨none, .done r s, [], left, turn⟩) :
    ∃ fuel, m.finish fuel = some (r, s, left, turn) ∧ m.jobs fuel = js := by
  generalize hend : (⟨none, .done r s, [], left, turn⟩ : Machine) = last at h
  induction h with
  | refl =>
      subst hend
      exact ⟨1, rfl, rfl⟩
  | step first _ ih =>
      obtain ⟨fuel, hfinish, hjobs⟩ := ih hend
      exact ⟨fuel + 1, by simp only [Machine.finish, first, hfinish],
        by simp only [jobs, first, hjobs]⟩

end Machine

namespace Job

/-- The arguments of the calls of a function among jobs, in order. -/
def callsOf (f : Value) : List Job → List (List Value)
  | [] => []
  | apply g args _ :: js => if g = f then args :: callsOf f js else callsOf f js
  | _ :: js => callsOf f js

theorem callsOf_apply_self (f : Value) (args : List Value) (scope : Scope) (js : List Job) :
    callsOf f (apply f args scope :: js) = args :: callsOf f js := by
  rw [callsOf, if_pos rfl]

theorem callsOf_apply_of_ne {f g : Value} (h : g ≠ f) (args : List Value) (scope : Scope)
    (js : List Job) : callsOf f (apply g args scope :: js) = callsOf f js := by
  rw [callsOf, if_neg h]

theorem callsOf_append (f : Value) (js js' : List Job) :
    callsOf f (js ++ js') = callsOf f js ++ callsOf f js' := by
  induction js with
  | nil => rfl
  | cons job js ih =>
      cases job with
      | apply g args scope =>
          by_cases h : g = f
          · subst h
            rw [List.cons_append, callsOf_apply_self, callsOf_apply_self, ih, List.cons_append]
          · rw [List.cons_append, callsOf_apply_of_ne h, callsOf_apply_of_ne h, ih]
      | _ => exact ih

end Job

namespace Program

/-- What is said of the jobs of a run, of its result and of its last state. -/
abbrev Post := List Job → Result → State → Prop

/-- In a fiber without others the program ends as the postcondition says.  Time may pass before a
job begins. -/
inductive Achieves : Post → Program Value → Prop
  | done {post : Post} {r : Result} {s : State} (ends : post [] r s) : Achieves post (.done r s)
  | call {post : Post} {job : Job} {s : State} {next : Result → State → Program Value}
      (returned : Post) (quiet : s.freshThread? = none)
      (body : ∀ clock, Achieves returned (job.body { s with clock }))
      (rest : ∀ js r u, returned js r u →
        Achieves (fun js' r' u' => post (job :: (js ++ js')) r' u') (next r u)) :
      Achieves post (.call job s next)

variable {post returned : Post} {p : Program Value} {next : Result → State → Program Value}

theorem Achieves.mono {post' : Post} (h : p.Achieves post)
    (hpost : ∀ js r u, post js r u → post' js r u) : p.Achieves post' := by
  induction h generalizing post' with
  | done ends => exact .done (hpost _ _ _ ends)
  | call returned quiet body _ _ ihrest =>
      exact .call returned quiet body fun js r u hreturned =>
        ihrest js r u hreturned fun js' r' u' h => hpost _ _ _ h

/-- **One program after another.** -/
theorem Achieves.andThen (h : p.Achieves returned)
    (hnext : ∀ js r u, returned js r u →
      (next r u).Achieves fun js' r' u' => post (js ++ js') r' u') :
    (p.andThen next).Achieves post := by
  induction h generalizing post with
  | done ends => exact hnext [] _ _ ends
  | call mid quiet body _ _ ihrest =>
      refine .call mid quiet body fun js r u hmid =>
        ihrest js r u hmid fun js' r' u' hreturned => ?_
      have hlast := hnext _ _ _ hreturned
      simpa only [List.cons_append, List.append_assoc] using hlast

/-- **The judgement is sound.**  Whatever waits for the result, and whatever is left of the turn,
the machine comes to the end of the program. -/
theorem Achieves.opens (h : p.Achieves post) (stack : Stack) (turn : Nat) :
    ∃ js r s turn', post js r s ∧
      Machine.Opens ⟨none, p, stack, [], turn⟩ js ⟨none, .done r s, stack, [], turn'⟩ := by
  induction h generalizing stack turn with
  | @done post r s ends => exact ⟨[], r, s, turn, ends, .refl _⟩
  | @call post job s next returned quiet body rest ihbody ihrest =>
      have hopens : ∀ clock turn, ∃ js r u turn', post js r u ∧
          Machine.Opens ⟨none, .call job { s with clock } next, stack, [], turn + 1⟩ js
            ⟨none, .done r u, stack, [], turn'⟩ := by
        intro clock turn
        obtain ⟨js, r, u, turn₁, hreturned, hbody⟩ := ihbody clock (next :: stack) turn
        obtain ⟨js', r', u', turn₂, hpost, hrest⟩ := ihrest js r u hreturned stack turn₁
        exact ⟨_, r', u', turn₂, hpost, .step rfl (hbody.trans (.step rfl hrest))⟩
      cases turn with
      | zero =>
          obtain ⟨js, r, u, turn', hpost, hrun⟩ := hopens (s.clock + 1) 3999
          exact ⟨js, r, u, turn', hpost, .step (Machine.step_alone quiet) hrun⟩
      | succ turn => exact hopens s.clock turn

/-- The machine finishes with an outcome and with jobs as the postcondition says. -/
theorem Achieves.finish (h : p.Achieves post) (turn : Nat) :
    ∃ fuel r s turn', Machine.finish fuel ⟨none, p, [], [], turn⟩ = some (r, s, [], turn') ∧
      post (Machine.jobs fuel ⟨none, p, [], [], turn⟩) r s := by
  obtain ⟨js, r, s, turn', hpost, hopens⟩ := h.opens [] turn
  obtain ⟨fuel, hfinish, hjobs⟩ := hopens.finish
  exact ⟨fuel, r, s, turn', hfinish, by rwa [hjobs]⟩

end Program

/-! ### Heaps and states that grow -/

namespace Heap

/-- The second heap has everything that the first one has, unchanged, and perhaps more. -/
structure Grows (h h' : Heap) : Prop where
  lists : h.Extends h'
  tables : h.tables.toList <+: h'.tables.toList
  locks : h.locks.toList <+: h'.locks.toList

variable {h h' h'' : Heap} {l : Nat} {v : Value} {xs : List Value}

theorem Grows.refl (h : Heap) : h.Grows h := ⟨.refl h, List.prefix_rfl, List.prefix_rfl⟩

theorem Grows.trans (first : h.Grows h') (second : h'.Grows h'') : h.Grows h'' :=
  ⟨first.lists.trans second.lists, first.tables.trans second.tables,
    first.locks.trans second.locks⟩

theorem grows_newList (h : Heap) (items : List Value) : h.Grows (h.newList items).2 :=
  ⟨h.extends_newList items, List.prefix_rfl, List.prefix_rfl⟩

/-- A list with items is there, so it keeps them. -/
theorem Grows.items_eq (hh : h.Grows h') (hl : h.items l ≠ []) : h'.items l = h.items l := by
  refine hh.lists.items_eq ?_
  by_contra hout
  refine hl ?_
  rw [items, Array.getD_eq_getD_getElem?, Array.getElem?_eq_none (by omega)]
  rfl

end Heap

namespace State

/-- All that there is in the first state, in its scopes, in its heap and among its functions, is
unchanged in the second one; the threads and the depth of the evaluation are the same. -/
structure Keeps (s t : State) : Prop where
  scopes : s.scopes.frames.toList <+: t.scopes.frames.toList
  heap : s.heap.Grows t.heap
  functions : s.functions.toList <+: t.functions.toList
  threads : t.threads = s.threads
  limit : t.limit = s.limit
  depth : t.depth = s.depth

/-- Nothing has changed, except that there may be more scopes, more in the heap and more functions,
and that time may have passed. -/
structure Adds (s t : State) : Prop where
  scopes : s.scopes.frames.toList <+: t.scopes.frames.toList
  heap : s.heap.Grows t.heap
  functions : s.functions.toList <+: t.functions.toList
  others : t = { s with
    scopes := t.scopes, heap := t.heap, functions := t.functions, clock := t.clock }

variable {s t u : State}

theorem Adds.refl (s : State) : s.Adds s := ⟨List.prefix_rfl, .refl _, List.prefix_rfl, rfl⟩

theorem Adds.trans (first : s.Adds t) (second : t.Adds u) : s.Adds u := by
  refine ⟨first.scopes.trans second.scopes, first.heap.trans second.heap,
    first.functions.trans second.functions, ?_⟩
  rw [second.others, first.others]

theorem Adds.keeps (h : s.Adds t) : s.Keeps t :=
  ⟨h.scopes, h.heap, h.functions, by rw [h.others], by rw [h.others], by rw [h.others]⟩

theorem Keeps.trans (first : s.Keeps t) (second : t.Keeps u) : s.Keeps u :=
  ⟨first.scopes.trans second.scopes, first.heap.trans second.heap,
    first.functions.trans second.functions, second.threads.trans first.threads,
    second.limit.trans first.limit, second.depth.trans first.depth⟩

theorem Keeps.quiet (h : s.Keeps t) (hquiet : s.freshThread? = none) : t.freshThread? = none := by
  rw [← hquiet, freshThread?, freshThread?, h.threads]

theorem adds_heap (s : State) {h : Heap} (hh : s.heap.Grows h) : s.Adds { s with heap := h } :=
  ⟨List.prefix_rfl, hh, List.prefix_rfl, rfl⟩

theorem adds_clock (s : State) (clock : Nat) : s.Adds { s with clock } :=
  ⟨List.prefix_rfl, .refl _, List.prefix_rfl, rfl⟩

theorem adds_newFunction (s : State) (o : Overloads) : s.Adds (s.newFunction o).2 := by
  refine ⟨List.prefix_rfl, .refl _, ?_, rfl⟩
  rw [newFunction, Array.toList_push]
  exact List.prefix_append _ _

theorem Adds.popCall {name : String} (h : (s.pushCall name).Adds t) : s.Adds t.popCall := by
  refine ⟨h.scopes, h.heap, h.functions, ?_⟩
  rw [h.others]
  rfl

theorem keeps_pushCall (s : State) (name : String) : s.Keeps (s.pushCall name) :=
  ⟨List.prefix_rfl, .refl _, List.prefix_rfl, rfl, rfl, rfl⟩

theorem keeps_popCall (s : State) : s.Keeps s.popCall :=
  ⟨List.prefix_rfl, .refl _, List.prefix_rfl, rfl, rfl, rfl⟩

end State

/-! ### Computations that succeed -/

namespace Eval

/-- In a fiber without others the computation succeeds, and at most adds to the state.  Its jobs,
its value and its last state are as `post` says. -/
def Succeeds (m : Eval Value) (t : State) (post : List Job → Value → State → Prop) : Prop :=
  (m t).Achieves fun js r u => ∃ v, r = .ok v ∧ t.Adds u ∧ post js v u

variable {m : Eval Value} {k : Value → Eval Value} {t u : State} {v : Value}
  {post post' : List Job → Value → State → Prop}

theorem Succeeds.mono (h : m.Succeeds t post)
    (hpost : ∀ js v u, t.Adds u → post js v u → post' js v u) : m.Succeeds t post' := by
  refine Program.Achieves.mono h ?_
  rintro js r u ⟨v, rfl, hadds, hv⟩
  exact ⟨v, rfl, hadds, hpost js v u hadds hv⟩

theorem succeeds_of_done (h : m t = .done (.ok v) u) (hadds : t.Adds u) (hpost : post [] v u) :
    m.Succeeds t post := by
  rw [Succeeds, h]
  exact .done ⟨v, rfl, hadds, hpost⟩

/-- The same computation, in this state. -/
theorem Succeeds.congr {m' : Eval Value} (h : m.Succeeds t post) (heq : m' t = m t) :
    m'.Succeeds t post := by
  rwa [Succeeds, heq]

/-- **One computation after another.** -/
theorem Succeeds.bind (h : m.Succeeds t post)
    (hnext : ∀ js v u, t.Adds u → post js v u →
      (k v).Succeeds u fun js' v' u' => post' (js ++ js') v' u') :
    (m >>= k).Succeeds t post' := by
  rw [Succeeds, bind_apply]
  refine Program.Achieves.andThen h ?_
  rintro js r u ⟨v, rfl, hadds, hv⟩
  refine Program.Achieves.mono (hnext js v u hadds hv) ?_
  rintro js' r' u' ⟨v', rfl, hadds', hv'⟩
  exact ⟨v', rfl, hadds.trans hadds', hv'⟩

/-- A job is carried out, perhaps some time later. -/
theorem succeeds_perform {job : Job} (hquiet : t.freshThread? = none)
    (h : ∀ clock, job.body.Succeeds { t with clock } fun js v u => post (job :: js) v u) :
    (perform job).Succeeds t post := by
  refine .call (fun js r u => ∃ v, r = .ok v ∧ t.Adds u ∧ post (job :: js) v u) hquiet ?_ ?_
  · intro clock
    refine Program.Achieves.mono (h clock) ?_
    rintro js r u ⟨v, rfl, hadds, hv⟩
    exact ⟨v, rfl, (t.adds_clock clock).trans hadds, hv⟩
  · rintro js r u ⟨v, rfl, hadds, hv⟩
    refine .done ⟨v, rfl, hadds, ?_⟩
    rwa [List.append_nil]

/-- A call that is noted. -/
theorem succeeds_framed {name : String}
    (h : m.Succeeds (t.pushCall name) fun js v u => post js v u.popCall) :
    (framed name m).Succeeds t post := by
  refine Program.Achieves.andThen h ?_
  rintro js r u ⟨v, rfl, hadds, hv⟩
  refine .done ⟨v, rfl, hadds.popCall, ?_⟩
  rwa [List.append_nil]

/-- A machine without other fibers that begins with the computation finishes, whatever is left of
its turn: with a value, and with a state that has at most been added to.  The jobs that its steps
open, the value and the state are as `post` says. -/
def Finishes (m : Eval Value) (s : State) (post : List Job → Value → State → Prop) : Prop :=
  ∀ turn, ∃ fuel v u turn',
    Machine.finish fuel ⟨none, m s, [], [], turn⟩ = some (.ok v, u, [], turn') ∧ s.Adds u ∧
      post (Machine.jobs fuel ⟨none, m s, [], [], turn⟩) v u

theorem Succeeds.finishes (h : m.Succeeds t post) : m.Finishes t post := by
  intro turn
  obtain ⟨fuel, r, u, turn', hfinish, v, rfl, hadds, hv⟩ := Program.Achieves.finish h turn
  exact ⟨fuel, v, u, turn', hfinish, hadds, hv⟩

end Eval

end DispatchLisp
