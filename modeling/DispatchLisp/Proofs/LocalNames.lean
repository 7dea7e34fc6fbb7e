import DispatchLisp.Proofs.Evolution
import DispatchLisp.Proofs.Selection
import DispatchLisp.Session

/-! # Definitions stay local

Evaluating in a scope binds and removes names in this scope only.  All other scopes that are there
keep their sets of names, and most forms do not even change those of the scope in which they are
evaluated.  What binds names there is `def` and its variants, and they add exactly one name.

Other threads may run meanwhile.  They own scopes that were made for them, and `ThreadsOwn` names
the frames of these scopes; all other frames are safe from them.  Sessions and the shared scopes
are never owned by a thread, in no world that can be reached (`World.Reachable.isolated`). -/

namespace DispatchLisp

open Program

/-- The threads that wait or have not begun own only the frames of `own`, all of which exist. -/
structure ThreadsOwn (own : Set Nat) (s : State) (waiting : List Fiber) : Prop where
  bounded : ∀ i ∈ own, i < s.scopes.frames.size
  fresh : ∀ i f scope, s.Fresh i f scope → scope.frame ∈ own
  waiting : ∀ f ∈ waiting, f.thread ≠ none ∧
    ∀ u, ((f.next u).plug f.stack).Stays (Ends Value) own u

namespace ThreadsOwn

variable {own : Set Nat} {s : State} {waiting : List Fiber}

/-- Without other threads nothing is owned. -/
theorem empty (h : ∀ i f scope, ¬ s.Fresh i f scope) : ThreadsOwn ∅ s [] where
  bounded _ hi := hi.elim
  fresh i f scope hfresh := absurd hfresh (h i f scope)
  waiting _ hf := by cases hf

/-- The state may change in all but its threads. -/
theorem of_threads {s' : State} (h : ThreadsOwn own s waiting) (hthreads : s'.threads = s.threads)
    (hframes : s.scopes.frames.size ≤ s'.scopes.frames.size) : ThreadsOwn own s' waiting where
  bounded i hi := (h.bounded i hi).trans_le hframes
  fresh i f scope hfresh := by
    unfold State.Fresh at hfresh
    rw [hthreads] at hfresh
    exact h.fresh i f scope hfresh
  waiting := h.waiting

end ThreadsOwn

/-! ### Runs -/

namespace Machine.Plan

variable {plan : Plan} {s s' : State} {m : Machine} {waiting : List Fiber}

theorem runs_start (hthreads : ThreadsOwn plan.threads s m.waiting) (hmain : m.thread = none)
    (hstays : (m.program.plug m.stack).Stays plan.goal plan.main s) : plan.Runs s s m where
  evolves := .refl _ s
  parked f hf := by
    obtain ⟨hthread, hf⟩ := hthreads.waiting f hf
    obtain ⟨i, hi⟩ := Option.ne_none_iff_exists'.mp hthread
    refine ⟨plan.threads, ?_, ?_⟩
    · rw [hi]
      exact Set.subset_union_left
    · rw [hi]
      exact hf
  fresh i f scope hfresh := .inl (hthreads.fresh i f scope hfresh)
  running := by
    rw [hmain]
    exact ⟨plan.main, Set.subset_union_left, hstays⟩
  main := (oneMain_iff hmain).mpr fun f hf => (hthreads.waiting f hf).1

/-- The threads that are left own what they owned before and what was made in the run. -/
theorem Ended.threadsOwn {r : Result} (h : plan.Ended s r s' waiting)
    (hbounded : ∀ i ∈ plan.threads, i < s.scopes.frames.size) :
    ThreadsOwn (plan.threads ∪ s.made s') s' waiting where
  bounded i hi := by
    rcases hi with hi | hi
    · exact (hbounded i hi).trans_le (plan.evolves h.goal).frames
    · exact hi.2
  fresh i f scope hfresh := h.fresh i f scope hfresh
  waiting f hf := by
    obtain ⟨hthread, own, hown, hstays⟩ := h.threads f hf
    obtain ⟨i, hi⟩ := Option.ne_none_iff_exists'.mp hthread
    rw [hi] at hown hstays
    exact ⟨hthread, fun u => (hstays u).mono closed_ends hown⟩

/-- The plan by which the main fiber owns `main` and just ends. -/
def plain {main threads : Set Nat} (subset : threads ⊆ main) : Plan where
  main := main
  threads := threads
  goal := Ends Value
  closed := closed_ends
  evolves _ _ _ _ h := State.Evolves.mono h (Set.subset_univ _)
  subset := subset

end Machine.Plan

/-- **A run of a regular computation changes names only in what it owns.** -/
theorem Eval.Regular.run {own threads : Set Nat} {m : Eval Value} (hm : Eval.Regular False own m)
    {s s' : State} {waiting left : List Fiber} (hthreads : ThreadsOwn threads s waiting)
    {fuel turn : Nat} {r : Result}
    (hrun : Machine.run fuel ⟨none, m s, [], waiting, turn⟩ = some (r, s', left)) :
    s.Evolves (own ∪ threads) s' ∧ ThreadsOwn (threads ∪ s.made s') s' left := by
  let plan := Machine.Plan.plain (Set.subset_union_right (s := own) (t := threads))
  have hstays := (hm.stays s).mono closed_ends (Set.subset_union_left (t := threads))
  have hruns : plan.Runs s s ⟨none, m s, [], waiting, turn⟩ :=
    Machine.Plan.runs_start hthreads rfl hstays
  have hended := hruns.run hrun
  exact ⟨hended.goal, hended.threadsOwn hthreads.bounded⟩

/-! ### Heads that keep the names of the scope -/

/-- A call of these overloads does not touch the names of the caller's scope: it is a call of a
special form that does not bind where it is used, or all overloads are closures. -/
def Overloads.Keeps (o : Overloads) : Prop :=
  (∃ form, o.special? = some form ∧ form.binds = false) ∨
    ∀ e ∈ o.entries, ∃ c, e.body = .closure c

theorem Overloads.Keeps.regular {o : Overloads} (h : o.Keeps) (own : Set Nat)
    (children : List Node) (scope : Scope) :
    Eval.Regular False own (callForm o children scope) := by
  unfold callForm
  rcases h with ⟨form, hspecial, hbinds⟩ | hclosures
  · rw [hspecial]
    exact SpecialForm.regular_of_not_binds hbinds False.elim children scope
  · have hspecial : o.special? = none := by
      refine List.findSome?_eq_none_iff.mpr fun e he => ?_
      obtain ⟨c, hc⟩ := hclosures e he
      rw [hc]
    rw [hspecial]
    refine .bind (regular_evalArgs scope [] children) fun args => ?_
    unfold Overloads.call
    split
    case h_1 e hselected =>
      obtain ⟨i, -, hi⟩ := (o.selected_eq_ok_iff args).mp hselected
      obtain ⟨c, hc⟩ := hclosures e (List.mem_of_getElem? hi)
      refine .framed e.name ?_
      rw [Entry.run, hc]
      exact c.regular e.name args
    case h_2 => exact .fail _

theorem evalNode_function {s : State} {scope : Scope} {v : Value} {f : FunctionRef}
    (h : s.scopes.resolve scope v = .function f) (children : List Node) :
    evalNode (.form v children) scope s =
      Eval.nested (callForm (s.overloads f) children scope) s := by
  simp only [evalNode, Node.head, h]

/-- A form whose head stands for a special form is carried out by it, one level deeper. -/
theorem evalNode_special {s : State} {scope : Scope} {v : Value} {f : FunctionRef}
    {form : SpecialForm} (h : s.scopes.resolve scope v = .function f)
    (hspecial : (s.overloads f).special? = some form) (children : List Node) :
    evalNode (.form v children) scope s = Eval.nested (form.run children scope) s := by
  rw [evalNode_function h, callForm, hspecial]

/-- In the scope, the name stands for the special form, perhaps through aliases. -/
def State.Performs (s : State) (scope : Scope) (name : String) (form : SpecialForm) : Prop :=
  ∃ f, s.scopes.resolve scope (.ident name) = .function f ∧ (s.overloads f).special? = some form

theorem State.Performs.evalNode {s : State} {scope : Scope} {name : String} {form : SpecialForm}
    (h : s.Performs scope name form) (children : List Node) :
    evalNode (.form (.ident name) children) scope s = Eval.nested (form.run children scope) s := by
  obtain ⟨f, hresolve, hspecial⟩ := h
  exact evalNode_special hresolve hspecial children

/-- The machine begins an evaluation by opening its job. -/
theorem run_eval {node : Node} {scope : Scope} {s : State} {waiting : List Fiber} {fuel : Nat}
    {out : Result × State × List Fiber}
    (h : Machine.run fuel (.start (Eval.eval node scope s) waiting) = some out) :
    ∃ fuel' turn,
      Machine.run fuel' ⟨none, evalNode node scope s, [.done], waiting, turn⟩ = some out := by
  cases fuel with
  | zero => cases h
  | succ fuel => exact ⟨fuel, 3999, h⟩

/-- A run of an evaluation whose job keeps to a goal that owns nothing but what the threads own. -/
theorem run_eval_goal {node : Node} {scope : Scope} {s s' : State} {waiting left : List Fiber}
    {fuel : Nat} {r : Result} (plan : Machine.Plan) (hplan : plan.main = plan.threads)
    (hthreads : ThreadsOwn plan.threads s waiting)
    (hstays : (evalNode node scope s).Stays plan.goal plan.threads s)
    (h : Machine.run fuel (.start (Eval.eval node scope s) waiting) = some (r, s', left)) :
    plan.goal plan.threads s r s' := by
  obtain ⟨fuel', turn, hrun⟩ := run_eval h
  have hruns : plan.Runs s s ⟨none, evalNode node scope s, [.done], waiting, turn⟩ := by
    refine Machine.Plan.runs_start hthreads rfl ?_
    rw [hplan]
    simpa only [plug, andThen_done] using hstays
  have hended := hruns.run hrun
  rw [← hplan]
  exact hended.goal

/-! ### Heads that bind a name -/

/-- The name that a definition with these arguments binds. -/
def targetName? : List Node → Option String
  | target :: _ =>
    match target.head with
    | .ident name => some name
    | _ => none
  | [] => none

/-- The frame binds one name more after a success, and the same names after an error. -/
def Frame.Gains (name? : Option String) (old : Frame) (r : Result) (new : Frame) : Prop :=
  match r with
  | .ok _ => ∃ name, name? = some name ∧ ∀ x, new.binds x = (old.binds x || name == x)
  | .error _ => ∀ x, new.binds x = old.binds x

theorem Frame.Gains.of_binds {name? : Option String} {old old' new : Frame} {r : Result}
    (h : Frame.Gains name? old' r new) (hbinds : ∀ x, old'.binds x = old.binds x) :
    Frame.Gains name? old r new := by
  unfold Frame.Gains at h ⊢
  simpa only [hbinds] using h

/-- The goal of a definition in a scope whose frame nobody owns. -/
def Gains (scope : Scope) (name? : Option String) : Goal Value := fun own t r s =>
  t.Evolves (insert scope.frame own) s ∧
    (scope.frame < t.scopes.frames.size → scope.frame ∉ own →
      (t.scopes.frame scope.frame).Gains name? r (s.scopes.frame scope.frame))

theorem closed_gains (scope : Scope) (name? : Option String) : (Gains scope name?).Closed := by
  rintro own₁ own₂ t s first hown r u ⟨hevolves, hgains⟩
  refine ⟨(first.mono (Set.subset_insert _ _)).after ?_ hevolves, fun hframe hfree => ?_⟩
  · rintro i (rfl | hi)
    · exact .inl (.inl rfl)
    · exact (hown hi).imp .inr id
  · have hfree₂ : scope.frame ∉ own₂ := by
      intro hmem
      rcases hown hmem with hmem | hmem
      · exact hfree hmem
      · exact absurd hframe (not_lt.mpr hmem.1)
    exact (hgains (hframe.trans_le first.frames) hfree₂).of_binds (first.names _ hframe hfree)

/-- The plan for a definition: its scope is free, and it gains the name of the definition. -/
def definitionPlan (scope : Scope) (name? : Option String) (threads : Set Nat) : Machine.Plan where
  main := threads
  threads := threads
  goal := Gains scope name?
  closed := closed_gains scope name?
  evolves _ _ _ _ h := h.1.mono (Set.subset_univ _)
  subset := subset_rfl

section

variable {own : Set Nat} {scope : Scope} {name? : Option String} {t s : State}

/-- A failure gains no name. -/
theorem gains_error (h : t.Evolves own s) (e : Error) : Gains scope name? own t (.error e) s :=
  ⟨h.mono (Set.subset_insert _ _), h.names _⟩

/-- The last step of a definition gains its name. -/
theorem gains_define (h : t.Evolves own s) {name : String} (hname : name? = some name)
    (v w : Value) :
    Gains scope name? own t (.ok w) (s.define scope name v) := by
  refine ⟨?_, fun hframe hfree => ⟨name, hname, fun x => ?_⟩⟩
  · have hdefine : s.Evolves (insert scope.frame own) (s.define scope name v) :=
      s.evolves_define name v (Set.mem_insert _ _)
    exact (h.mono (Set.subset_insert _ _)).trans hdefine
  · have hframe' := hframe.trans_le h.frames
    have hdefined : (s.define scope name v).scopes.frame scope.frame =
        (s.scopes.frame scope.frame).put name v := by
      rw [State.define, State.onScopes, Scopes.define, Scopes.frame_modifyFrame _ _ hframe',
        if_pos rfl]
    rw [hdefined, Frame.binds_put, h.names _ hframe hfree]

theorem stays_binding {m : Eval Value} (hm : Eval.Regular False own m) {name : String}
    (hname : name? = some name) :
    ((do
      let v ← m
      Eval.define scope name v
      return .nil : Eval Value) t).Stays (Gains scope name?) own t := by
  refine Eval.stays_bind (hm.stays t) (fun own' u v s hown h => ?_) fun own' u e s hown h => ?_
  · exact .done (gains_define h hname v .nil)
  · exact gains_error h e

theorem stays_decode {α : Type} {f : Heap → Except Cause α} {k : α → Eval Value}
    (h : ∀ a, f t.heap = .ok a → (k a t).Stays (Gains scope name?) own t) :
    ((Eval.decode f >>= k) t).Stays (Gains scope name?) own t := by
  change Program.Stays _ own t ((Eval.decode f t).andThen _)
  unfold Eval.decode
  cases hf : f t.heap with
  | ok a => exact h a hf
  | error c => exact .done (gains_error (.refl own t) _)

theorem nameOf_eq_ok {h : Heap} {form name : String} {target : Node} {rest : List Node}
    (hname : Form.nameOf h form target = .ok name) : targetName? (target :: rest) = some name := by
  unfold Form.nameOf at hname
  split at hname
  case h_1 name' hhead =>
    cases hname
    simp only [targetName?, hhead]
  case h_2 => cases hname

theorem signature_eq_ok {h : Heap} {form name : String} {names : List String} {target : Node}
    {rest : List Node} (hsignature : Form.signature h form target = .ok (name, names)) :
    targetName? (target :: rest) = some name := by
  unfold Form.signature at hsignature
  cases hname : Form.nameOf h form target with
  | error c =>
      rw [hname] at hsignature
      cases hsignature
  | ok name' =>
      rw [hname] at hsignature
      cases hparams : Form.paramsOf h form target.children with
      | error c =>
          rw [hparams] at hsignature
          cases hsignature
      | ok params =>
          rw [hparams] at hsignature
          cases hsignature
          exact nameOf_eq_ok hname

theorem variadicSignature_eq_ok {h : Heap} {form name lastName : String} {names : List String}
    {target : Node} {rest : List Node}
    (hsignature : Form.variadicSignature h form target = .ok (name, names, lastName)) :
    targetName? (target :: rest) = some name := by
  unfold Form.variadicSignature at hsignature
  cases hinner : Form.signature h form target with
  | error c =>
      rw [hinner] at hsignature
      cases hsignature
  | ok found =>
      obtain ⟨name', params⟩ := found
      rw [hinner] at hsignature
      cases hlast : params.getLast? with
      | none =>
          simp [bind, Except.bind, hlast] at hsignature
      | some last =>
          simp [bind, Except.bind, hlast] at hsignature
          obtain ⟨rfl, -, -⟩ := hsignature
          exact signature_eq_ok hinner

/-- The special forms that bind the name of their first argument. -/
def SpecialForm.gains : SpecialForm → Bool
  | .define | .defineVariadic | .defineMacro => true
  | _ => false

theorem SpecialForm.stays_gains {form : SpecialForm} (h : form.gains = true) (args : List Node)
    (t : State) : (form.run args scope t).Stays (Gains scope (targetName? args)) own t := by
  cases form with
  | define =>
      simp only [SpecialForm.run, Form.define]
      split
      · split
        · refine stays_decode fun name hname => ?_
          exact stays_binding (Form.regular_evalFresh _ scope) (nameOf_eq_ok hname)
        · refine stays_decode fun (name, names) hsignature => ?_
          exact stays_binding (Form.regular_newClosure name _ _ _ scope)
            (signature_eq_ok hsignature)
      · exact .done (gains_error (.refl own t) _)
  | defineVariadic =>
      simp only [SpecialForm.run, Form.defineVariadic]
      split
      · refine stays_decode fun (name, params, rest) hsignature => ?_
        exact stays_binding (Form.regular_newClosure name _ _ _ scope)
          (variadicSignature_eq_ok hsignature)
      · exact .done (gains_error (.refl own t) _)
  | defineMacro =>
      simp only [SpecialForm.run, Form.defineMacro]
      split
      · refine stays_decode fun (name, params) hsignature => ?_
        refine stays_binding (.makeFunction _ ?_) (signature_eq_ok hsignature)
        trivial
      · exact .done (gains_error (.refl own t) _)
  | _ => cases h

end

/-! ### One evaluation -/

section

variable {threads : Set Nat} {s s' : State} {waiting left : List Fiber} {scope : Scope} {v : Value}
  {children : List Node} {f : FunctionRef} {fuel : Nat} {r : Result}

/-- Calls that keep the names of the scope. -/
theorem names_of_keeps (hthreads : ThreadsOwn threads s waiting)
    (hhead : s.scopes.resolve scope v = .function f) (hkeeps : (s.overloads f).Keeps)
    (hrun : Machine.run fuel (.start (Eval.eval (.form v children) scope s) waiting) =
      some (r, s', left)) : s.Evolves threads s' := by
  refine run_eval_goal (.plain subset_rfl) rfl hthreads ?_ hrun
  rw [evalNode_function hhead]
  exact (Eval.Regular.nested (hkeeps.regular threads children scope)).stays s

/-- Definitions gain one name. -/
theorem names_of_gains (hthreads : ThreadsOwn threads s waiting)
    (hhead : s.scopes.resolve scope v = .function f) {form : SpecialForm}
    (hspecial : (s.overloads f).special? = some form) (hgains : form.gains = true)
    (hrun : Machine.run fuel (.start (Eval.eval (.form v children) scope s) waiting) =
      some (r, s', left)) : Gains scope (targetName? children) threads s r s' := by
  have hclosed := closed_gains scope (targetName? children)
  refine run_eval_goal (definitionPlan scope _ threads) rfl hthreads ?_ hrun
  rw [evalNode_function hhead]
  refine Eval.stays_nested hclosed (fun t => ?_) (fun t e => gains_error (.refl _ t) e) ?_ s
  · simp only [callForm, hspecial]
    exact form.stays_gains hgains children t
  · rintro own' u r s depth ⟨hevolves, hgained⟩
    exact ⟨hevolves.trans (.of_eq rfl rfl rfl), hgained⟩

end

/-! ### Worlds -/

namespace World

/-- The worlds that a host program can reach, with the sessions that it has made. -/
inductive Reachable : List Scope → World → Prop
  | new (limit : Nat) : Reachable [] (World.new limit)
  | newSession {sessions : List Scope} {w : World} (h : Reachable sessions w) (withPrelude : Bool) :
      Reachable ((w.newSession withPrelude).1 :: sessions) (w.newSession withPrelude).2
  | evalNode {sessions : List Scope} {w w' : World} (h : Reachable sessions w) {session : Scope}
      (hsession : session ∈ sessions) {fuel : Nat} {node : Node} {r : Result}
      (hrun : w.evalNode fuel session node = some (r, w')) : Reachable sessions w'
  | evalText {sessions : List Scope} {w w' : World} (h : Reachable sessions w) {session : Scope}
      (hsession : session ∈ sessions) {fuel : Nat} {text : String} {r : Result}
      (hrun : w.evalText fuel session text = some (r, w')) : Reachable sessions w'
  | apply {sessions : List Scope} {w w' : World} (h : Reachable sessions w) {session : Scope}
      (hsession : session ∈ sessions) {fuel : Nat} {f : Value} {args : List Value} {r : Result}
      (hrun : w.apply fuel session f args = some (r, w')) : Reachable sessions w'
  | registerNative {sessions : List Scope} {w : World} (h : Reachable sessions w) {session : Scope}
      (hsession : session ∈ sessions) (name : String) (params : List Kind) (variadic : Option Kind)
      (run : List Value → HeapM Value) :
      Reachable sessions (w.registerNative session name params variadic run)
  | registerSpecial {sessions : List Scope} {w : World} (h : Reachable sessions w) {session : Scope}
      (hsession : session ∈ sessions) (name : String) (run : List Node → HeapM Value) :
      Reachable sessions (w.registerSpecial session name run)
  | takeOutput {sessions : List Scope} {w : World} (h : Reachable sessions w) :
      Reachable sessions w.takeOutput.2

/-- The scopes of the world that are there for everyone or for a session. -/
def scopes (w : World) (sessions : List Scope) : List Scope := w.core :: w.prelude :: sessions

/-- No thread owns one of the scopes of the world. -/
def Isolated (sessions : List Scope) (w : World) : Prop :=
  ∃ threads, ThreadsOwn threads w.state w.waiting ∧
    ∀ p ∈ w.scopes sessions, p.frame < w.state.scopes.frames.size ∧ p.frame ∉ threads

theorem register_frames (s : State) (scope : Scope) (e : Entry) :
    (s.register scope e).scopes.frames.size = s.scopes.frames.size := by
  simp [State.register, State.newFunction, State.define, State.onScopes, Scopes.define,
    Scopes.modifyFrame]

theorem install_threads (scope : Scope) (entries : List Entry) (s : State) :
    (Prelude.install scope entries s).threads = s.threads := by
  induction entries generalizing s with
  | nil => rfl
  | cons e es ih => exact ih (s.register scope e)

theorem install_frames (scope : Scope) (entries : List Entry) (s : State) :
    (Prelude.install scope entries s).scopes.frames.size = s.scopes.frames.size := by
  induction entries generalizing s with
  | nil => rfl
  | cons e es ih => exact (ih (s.register scope e)).trans (register_frames s scope e)

theorem isolated_new (limit : Nat) : Isolated [] (World.new limit) := by
  unfold World.new
  generalize Prelude.core = core
  generalize Prelude.entries = prelude
  refine ⟨∅, .empty ?_, ?_⟩
  · rintro i f scope ⟨t, ht, -⟩
    simp [install_threads, State.define, State.onScopes] at ht
  · intro p hp
    simp only [scopes, State.onScopes, Scopes.newRoot, Scopes.newChild, State.define, Scopes.define,
      Scopes.modifyFrame, install_frames, List.mem_cons, List.not_mem_nil, or_false] at hp ⊢
    rcases hp with rfl | rfl <;> simp [install_frames]

variable {sessions : List Scope} {w w' : World}

theorem Isolated.of_threads (h : Isolated sessions w) {s : State}
    (hthreads : s.threads = w.state.threads)
    (hframes : w.state.scopes.frames.size ≤ s.scopes.frames.size) :
    Isolated sessions { w with state := s } := by
  obtain ⟨threads, hown, hscopes⟩ := h
  exact ⟨threads, hown.of_threads hthreads hframes, fun p hp =>
    ⟨(hscopes p hp).1.trans_le hframes, (hscopes p hp).2⟩⟩

theorem Isolated.newSession (h : Isolated sessions w) (withPrelude : Bool) :
    Isolated ((w.newSession withPrelude).1 :: sessions) (w.newSession withPrelude).2 := by
  obtain ⟨threads, hown, hscopes⟩ := h
  have hframes :
      w.state.scopes.frames.size < (w.newSession withPrelude).2.state.scopes.frames.size := by
    simp [World.newSession, State.onScopes, Scopes.newChild]
  refine ⟨threads, hown.of_threads rfl hframes.le, fun p hp => ?_⟩
  simp only [scopes, List.mem_cons] at hp hscopes
  rcases hp with hp | hp | rfl | hp
  · exact ⟨(hscopes p (.inl hp)).1.trans hframes, (hscopes p (.inl hp)).2⟩
  · exact ⟨(hscopes p (.inr (.inl hp))).1.trans hframes, (hscopes p (.inr (.inl hp))).2⟩
  · exact ⟨hframes, fun hmem => absurd (hown.bounded _ hmem) (lt_irrefl _)⟩
  · exact ⟨(hscopes p (.inr (.inr hp))).1.trans hframes, (hscopes p (.inr (.inr hp))).2⟩

/-- A run in a session leaves the world isolated, and the names of all its other scopes as they
were. -/
theorem Isolated.execute (h : Isolated sessions w) {session : Scope} {m : Eval Value}
    (hm : Eval.Regular False {session.frame} m) {fuel : Nat} {r : Result}
    (hrun : w.execute fuel m = some (r, w')) :
    Isolated sessions w' ∧ ∀ p ∈ w.scopes sessions, p.frame ≠ session.frame →
      ∀ x, (w'.state.scopes.frame p.frame).binds x = (w.state.scopes.frame p.frame).binds x := by
  obtain ⟨threads, hown, hscopes⟩ := h
  obtain ⟨⟨r', s', left, turn⟩, hfinish, heq⟩ := Option.map_eq_some_iff.mp hrun
  cases heq
  obtain ⟨hevolves, hleft⟩ := hm.run hown (Machine.run_of_finish hfinish)
  refine ⟨⟨_, hleft, fun p hp => ?_⟩, fun p hp hne => ?_⟩
  · obtain ⟨hframe, hfree⟩ := hscopes p hp
    refine ⟨hframe.trans_le hevolves.frames, ?_⟩
    rintro (hmem | hmem)
    · exact hfree hmem
    · exact absurd hframe (not_lt.mpr hmem.1)
  · obtain ⟨hframe, hfree⟩ := hscopes p hp
    refine hevolves.names p.frame hframe ?_
    rintro (hmem | hmem)
    · exact hne hmem
    · exact hfree hmem

/-- Evaluating text in a session, likewise. -/
theorem Isolated.evalText (h : Isolated sessions w) {session : Scope} {fuel : Nat} {text : String}
    {r : Result} (hrun : w.evalText fuel session text = some (r, w')) :
    Isolated sessions w' ∧ ∀ p ∈ w.scopes sessions, p.frame ≠ session.frame →
      ∀ x, (w'.state.scopes.frame p.frame).binds x = (w.state.scopes.frame p.frame).binds x := by
  unfold World.evalText at hrun
  split at hrun
  · cases hrun
    exact ⟨h, fun _ _ _ _ => rfl⟩
  · exact h.execute (.evalBody (Set.mem_singleton _) _) hrun

/-- **No thread ever owns a session or a shared scope.** -/
theorem Reachable.isolated (h : Reachable sessions w) : Isolated sessions w := by
  induction h with
  | new limit => exact isolated_new limit
  | newSession h withPrelude ih => exact ih.newSession withPrelude
  | evalNode h hsession hrun ih => exact (ih.execute (.eval _ (Set.mem_singleton _)) hrun).1
  | evalText h hsession hrun ih => exact (ih.evalText hrun).1
  | apply h hsession hrun ih => exact (ih.execute (.apply _ _ (Set.mem_singleton _)) hrun).1
  | registerNative h hsession name params variadic run ih =>
      exact ih.of_threads rfl (register_frames _ _ _).ge
  | registerSpecial h hsession name run ih => exact ih.of_threads rfl (register_frames _ _ _).ge
  | takeOutput h ih => exact ih.of_threads rfl le_rfl

end World

/-! ### The main result -/

/-- The frame binds the same names in both states; its values may differ. -/
def SameNames (s s' : State) (i : Nat) : Prop :=
  ∀ x, (s'.scopes.frame i).binds x = (s.scopes.frame i).binds x

/-- **Definitions stay local.**  Let `threads` be the frames that other threads own; it is empty if
there are none.  Evaluating a node in a scope, with a value or an error,

* loses no scope and no function, and keeps the names of every scope but its own (the scopes
  around a scope are part of it and cannot change);
* keeps the names of its own scope, too, if the head is a form that works in a scope of its own, a
  macro, or a set of closures only;
* adds exactly the target's name to its own scope if the head is `def`, `def-variable` or
  `def-symbol` and the evaluation succeeds, and no name if it fails.

In a world with sessions, whatever is evaluated in one session changes no name in the scopes of the
others or in the shared scopes, and no thread ever owns one of these. -/
theorem definitions_stay_local :
    (∀ (threads : Set Nat) (s s' : State) (waiting left : List Fiber) (node : Node) (scope : Scope)
      (fuel : Nat) (r : Result), ThreadsOwn threads s waiting →
      scope.frame < s.scopes.frames.size →
      Machine.run fuel (.start (Eval.eval node scope s) waiting) = some (r, s', left) →
      s.scopes.frames.size ≤ s'.scopes.frames.size ∧
      s.functions.toList <+: s'.functions.toList ∧
      (∀ i < s.scopes.frames.size, i ≠ scope.frame → i ∉ threads → SameNames s s' i) ∧
      (scope.frame ∉ threads → ∀ v children f, node = .form v children →
        s.scopes.resolve scope v = .function f →
        ((s.overloads f).Keeps → SameNames s s' scope.frame) ∧
        (∀ form, (s.overloads f).special? = some form → form.gains = true →
          (s.scopes.frame scope.frame).Gains (targetName? children) r
            (s'.scopes.frame scope.frame))) ∧
      ThreadsOwn (threads ∪ s.made s') s' left) ∧
    (∀ (sessions : List Scope) (w w' : World), World.Reachable sessions w → ∀ session ∈ sessions,
      ∀ (fuel : Nat) (r : Result),
      (∃ node, w.evalNode fuel session node = some (r, w')) ∨
        (∃ text, w.evalText fuel session text = some (r, w')) →
      ∀ p ∈ w.scopes sessions, p.frame ≠ session.frame → SameNames w.state w'.state p.frame) := by
  refine ⟨?_, ?_⟩
  · intro threads s s' waiting left node scope fuel r hthreads hscope hrun
    have hregular : Eval.Regular False {scope.frame} (Eval.eval node scope) :=
      .eval node (Set.mem_singleton _)
    obtain ⟨hevolves, hleft⟩ := hregular.run hthreads hrun
    refine ⟨hevolves.frames, hevolves.functions, fun i hi hne hfree => ?_, ?_, hleft⟩
    · refine hevolves.names i hi ?_
      rintro (hmem | hmem)
      · exact hne hmem
      · exact hfree hmem
    · rintro hfree v children f rfl hhead
      refine ⟨fun hkeeps => ?_, fun form hspecial hgains => ?_⟩
      · exact (names_of_keeps hthreads hhead hkeeps hrun).names _ hscope hfree
      · exact (names_of_gains hthreads hhead hspecial hgains hrun).2 hscope hfree
  · rintro sessions w w' hreachable session - fuel r (⟨node, hrun⟩ | ⟨text, hrun⟩)
    · exact (hreachable.isolated.execute (.eval node (Set.mem_singleton _)) hrun).2
    · exact (hreachable.isolated.evalText hrun).2

theorem definitions_stay_local_def :
    (∃ s' left,
      let s : State := {
        scopes := ⟨#[[("def", .function ⟨0, "def"⟩)], []]⟩
        functions := #[.single (.ofSpecial "def" .define)] }
      Machine.run 20 (.start (Eval.eval (.form (.ident "def")
        [.atom (.ident "x"), .atom (.int 1)]) ⟨1, [0]⟩ s) []) = some (.ok .nil, s', left) ∧
      SameNames s s' 0 ∧ (s.scopes.frame 1).Gains (some "x") (.ok .nil) (s'.scopes.frame 1)) ∧
    ∃ w',
      let first := (World.new 10).newSession true
      let second := first.2.newSession true
      second.2.evalNode 100 first.1 (.form (.ident "def") [.atom (.ident "x"), .atom (.int 1)]) =
        some (.ok .nil, w') ∧
      SameNames second.2.state w'.state second.1.frame := by
  constructor
  · have hrun : (Machine.run 20 (.start (Eval.eval (.form (.ident "def")
        [.atom (.ident "x"), .atom (.int 1)]) ⟨1, [0]⟩ {
          scopes := ⟨#[[("def", .function ⟨0, "def"⟩)], []]⟩
          functions := #[.single (.ofSpecial "def" .define)] }) [])).map Prod.fst =
        some (.ok .nil) := by decide +kernel
    obtain ⟨⟨r, s', left⟩, hrun, hr⟩ := Option.map_eq_some_iff.mp hrun
    cases hr
    obtain ⟨-, -, hothers, hown, -⟩ := definitions_stay_local.1 ∅ _ s' [] left _ _ 20 _
      (.empty fun i f scope ⟨t, ht, _⟩ => by simp at ht) (by decide) hrun
    exact ⟨s', left, hrun, hothers 0 (by decide) (by decide) (Set.notMem_empty _),
      (hown (Set.notMem_empty _) _ _ ⟨0, "def"⟩ rfl rfl).2 .define rfl rfl⟩
  · have hrun : ((((World.new 10).newSession true).2.newSession true).2.evalNode 100
        ((World.new 10).newSession true).1
        (.form (.ident "def") [.atom (.ident "x"), .atom (.int 1)])).map Prod.fst =
        some (.ok .nil) := by decide +kernel
    obtain ⟨⟨r, w'⟩, hrun, hr⟩ := Option.map_eq_some_iff.mp hrun
    cases hr
    refine ⟨w', hrun, ?_⟩
    refine definitions_stay_local.2 _ _ w'
      (((World.Reachable.new 10).newSession true).newSession true)
      _ (List.mem_cons_of_mem _ List.mem_cons_self) 100 _ (.inl ⟨_, hrun⟩) _ ?_ ?_
    · exact List.mem_cons_of_mem _ (List.mem_cons_of_mem _ List.mem_cons_self)
    · decide +kernel

end DispatchLisp
