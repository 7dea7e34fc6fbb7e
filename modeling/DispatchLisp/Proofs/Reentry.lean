import DispatchLisp.Proofs.CallStack
import DispatchLisp.Proofs.Nesting
import DispatchLisp.Proofs.RoundTrip

/-! # Calls that are not counted

The limit bounds the forms that are nested (`Machine.Nests.reaches`).  It does not bound the calls
that run at the same time, because a function that calls another one does not evaluate a form.  The
expression `(apply apply … apply 5)` is a single form of atoms.  Its evaluation calls `apply`, which
calls `apply` with one argument less, and so on: whatever the limit, there are in the end as many
calls inside each other as there are words (`visits_tower`), and the error that follows names all of
them (`settles_tower`).

To show what an evaluation comes to, and not only what holds if it comes to something,
`Program.Settles` reasons backwards from the end of a program to its beginning. -/

namespace DispatchLisp

/-! ### What a machine comes to -/

namespace Machine

variable {m m' : Machine} {s : State} {job : Job} {next : Result → State → Program Value}
  {stack : Stack}

/-- What holds before a step if it holds after it. -/
def Backward (goal : Machine → Prop) : Prop := ∀ m m', m.step = .next m' → goal m' → goal m

/-- The machine comes to an end, with a result and a state as `post` says. -/
def EndsIn (post : Result → State → Prop) (m : Machine) : Prop :=
  ∃ r s left turn, m.EndsWith (r, s, left, turn) ∧ post r s

theorem backward_endsIn (post : Result → State → Prop) : Backward (EndsIn post) := by
  rintro m m' hstep ⟨r, s, left, turn, hends, hpost⟩
  exact ⟨r, s, left, turn, (endsWith_of_next hstep).mpr hends, hpost⟩

/-- The machine comes to a state as `seen` says. -/
def Visits (seen : State → Prop) (m : Machine) : Prop := ∃ m', m.Reaches m' ∧ seen m'.state

theorem backward_visits (seen : State → Prop) : Backward (Visits seen) := by
  rintro m m' hstep ⟨m'', hreaches, hseen⟩
  exact ⟨m'', .head hstep hreaches, hseen⟩

/-- At the end of its turn a fiber without others goes on at once; only time has passed. -/
theorem step_alone (hquiet : s.freshThread? = none) :
    step ⟨none, .call job s next, stack, [], 0⟩ =
      .next ⟨none, .call job { s with clock := s.clock + 1 } next, stack, [], fullTurn⟩ := by
  have hquiet' : State.freshThread? { s with clock := s.clock + 1 } = none := hquiet
  simp [step, schedule, hquiet', takeReady, Condition.holds, resume]

end Machine

namespace Program

variable {goal : Machine → Prop} {post : Result → State → Prop} {p : Program Value}

/-- In a fiber without others the program leads to the goal if every end as `post` says does: the
goal is reached on the way, or the program comes to such an end. -/
def Settles (goal : Machine → Prop) (post : Result → State → Prop) (p : Program Value) : Prop :=
  ∀ stack turn, (∀ r s turn, post r s → goal ⟨none, .done r s, stack, [], turn⟩) →
    goal ⟨none, p, stack, [], turn⟩

theorem settles_done {r : Result} {s : State} (h : post r s) : Settles goal post (.done r s) :=
  fun _ turn hend => hend r s turn h

/-- A job may begin some time later, if the turn of the fiber is over. -/
theorem settles_call (hgoal : Machine.Backward goal) {job : Job} {s : State}
    {next : Result → State → Program Value} (returned : Result → State → Prop)
    (hquiet : s.freshThread? = none)
    (hbody : ∀ clock, Settles goal returned (job.body { s with clock }))
    (hnext : ∀ r u, returned r u → Settles goal post (next r u)) :
    Settles goal post (.call job s next) := by
  intro stack turn hend
  have hopens : ∀ clock turn,
      goal ⟨none, .call job { s with clock } next, stack, [], turn + 1⟩ := by
    intro clock turn
    refine hgoal _ _ rfl (hbody clock (next :: stack) turn ?_)
    intro r u turn hu
    exact hgoal _ _ rfl (hnext r u hu stack turn hend)
  cases turn with
  | zero => exact hgoal _ _ (Machine.step_alone hquiet) (hopens _ 3999)
  | succ turn => exact hopens s.clock turn

/-- The goal is reached inside of a job, so that it does not matter what follows. -/
theorem settles_inside (hgoal : Machine.Backward goal) {job : Job} {s : State}
    {next : Result → State → Program Value} (hquiet : s.freshThread? = none)
    (hbody : ∀ clock, Settles goal (fun _ _ => False) (job.body { s with clock })) :
    Settles goal post (.call job s next) :=
  settles_call hgoal _ hquiet hbody fun _ _ hfalse => hfalse.elim

/-- The state is seen where a job begins. -/
theorem settles_here {seen : State → Prop} {job : Job} {s : State}
    {next : Result → State → Program Value} (h : seen s) :
    Settles (Machine.Visits seen) post (.call job s next) :=
  fun _ _ _ => ⟨_, .refl, h⟩

theorem Settles.endsIn (h : Settles (Machine.EndsIn post) post p) (turn : Nat) :
    Machine.EndsIn post ⟨none, p, [], [], turn⟩ :=
  h [] turn fun r s turn hpost =>
    ⟨r, s, [], turn, (Machine.endsWith_of_ended rfl).mpr rfl, hpost⟩

theorem Settles.reached (h : Settles goal (fun _ _ => False) p) (turn : Nat) :
    goal ⟨none, p, [], [], turn⟩ :=
  h [] turn fun _ _ _ hfalse => hfalse.elim

end Program

/-! ### Calls of `apply` by `apply` -/

/-- The overload of `apply`. -/
def applyEntry : Entry := Prelude.routine "apply" [.function] (some .any) .apply

/-- `apply` accepts a function and any further arguments. -/
theorem selected_function (f : FunctionRef) (vs : List Value) :
    (Overloads.single applyEntry).selected (.function f :: vs) = .ok applyEntry := by
  have haccepts : applyEntry.accepts (vs.length + 1) = true := by
    simp [Entry.accepts, applyEntry, Prelude.routine]
  have hothers : Entry.scoreArgs (some .any) [] vs = some vs.length :=
    Entry.scoreArgs_any (by simp) (.inl rfl)
  have hscore : applyEntry.score (.function f :: vs) = some (3 + vs.length) := by
    simp [Entry.score, applyEntry, Prelude.routine, Entry.scoreArgs, hothers, Kind.score,
      Value.kind]
  rw [Overloads.selected_single, List.length_cons, if_pos haccepts, hscore]

/-- `apply` does not accept a number. -/
theorem selected_int :
    (Overloads.single applyEntry).selected [.int 5] = .error (.noOverload "apply" "int") := rfl

/-- The arguments of a call of `apply` that calls `apply` again, `n` times in all. -/
def towerArgs (f : FunctionRef) (n : Nat) : List Value := .replicate n (.function f) ++ [.int 5]

theorem towerArgs_succ (f : FunctionRef) (n : Nat) :
    towerArgs f (n + 1) = .function f :: towerArgs f n := rfl

/-- In the state, `apply` is visible from the scope as the function `f`, and there are no threads
that have not begun. -/
structure Knows (f : FunctionRef) (scope : Scope) (s : State) : Prop where
  quiet : s.freshThread? = none
  function : s.overloads f = .single applyEntry
  frames : ∀ i ∈ scope.chain, i < s.scopes.frames.size
  binding : s.scopes.lookup scope "apply" = some (.function f)

/-- The call has failed, and its error names `n` calls of `apply` in addition to `calls`. -/
def Fails (n : Nat) (calls : List String) (r : Result) (s : State) : Prop :=
  s.calls = calls ∧ ∃ e, r = .error e ∧ e.cause = .noOverload "apply" "int" ∧
    e.trace?.getD calls = .replicate n "apply" ++ calls

variable {f : FunctionRef} {scope : Scope} {s : State} {goal : Machine → Prop}
  {post : Result → State → Prop}

theorem Knows.applyValue (hs : Knows f scope s) (args : List Value) (place : Scope) :
    applyValue (.function f) args place s = (Overloads.single applyEntry).call args place s := by
  simp only [DispatchLisp.applyValue, hs.function]
  rfl

theorem call_towerArgs_zero (place : Scope) (s : State) :
    (Overloads.single applyEntry).call (towerArgs f 0) place s =
      .done (.error (.base (.noOverload "apply" "int"))) s := by
  rw [towerArgs, List.replicate_zero, List.nil_append, Overloads.call, selected_int]
  rfl

theorem call_towerArgs_succ (n : Nat) (place : Scope) (s : State) :
    (Overloads.single applyEntry).call (towerArgs f (n + 1)) place s =
      .call (.apply (.function f) (towerArgs f n) place) (s.pushCall "apply")
        fun r u => .done (Eval.attachTrace u.calls r) u.popCall := by
  rw [towerArgs_succ, Overloads.call, selected_function]
  rfl

theorem Fails.leave {n : Nat} {calls : List String} {r : Result} {u : State}
    (h : Fails n ("apply" :: calls) r u) :
    Fails (n + 1) calls (Eval.attachTrace u.calls r) u.popCall := by
  obtain ⟨hcalls, e, rfl, hcause, htrace⟩ := h
  have hne : u.calls ≠ [] := by simp [hcalls]
  obtain ⟨e', heq, hcause', htrace'⟩ := Eval.attachTrace_error Value hne e
  refine ⟨congrArg List.tail hcalls, e', heq, hcause'.trans hcause, ?_⟩
  rw [htrace', hcalls, htrace, Option.getD_some, List.replicate_succ']
  simp

theorem Knows.pushCall (hs : Knows f scope s) (name : String) (clock : Nat) :
    Knows f scope { s.pushCall name with clock } :=
  ⟨hs.quiet, hs.function, hs.frames, hs.binding⟩

/-- **Each call runs inside the one before.**  The induction is on their number; no form is
evaluated. -/
theorem visits_tower (hs : Knows f scope s) (n : Nat) (place : Scope)
    {next : Result → State → Program Value} :
    (((Overloads.single applyEntry).call (towerArgs f (n + 1)) place s).andThen next).Settles
      (Machine.Visits fun u => u.calls = .replicate (n + 1) "apply" ++ s.calls) post := by
  induction n generalizing s next post with
  | zero =>
      rw [call_towerArgs_succ]
      exact Program.settles_here rfl
  | succ n ih =>
      rw [call_towerArgs_succ]
      refine Program.settles_inside (Machine.backward_visits _) hs.quiet fun clock => ?_
      have hs' := hs.pushCall "apply" clock
      have hinner : (((Overloads.single applyEntry).call (towerArgs f (n + 1)) place
          { s.pushCall "apply" with clock }).andThen .done).Settles
            (Machine.Visits fun u => u.calls = .replicate (n + 1) "apply" ++ "apply" :: s.calls)
            fun _ _ => False := ih hs'
      rw [Program.andThen_done, ← hs'.applyValue] at hinner
      rw [List.replicate_succ', List.append_assoc]
      exact hinner

/-- **The error names all calls.** -/
theorem settles_tower (hgoal : Machine.Backward goal) (hs : Knows f scope s) (n : Nat)
    (place : Scope) {next : Result → State → Program Value}
    (hnext : ∀ r u, Fails n s.calls r u → (next r u).Settles goal post) :
    (((Overloads.single applyEntry).call (towerArgs f n) place s).andThen next).Settles
      goal post := by
  induction n generalizing s next post with
  | zero =>
      rw [call_towerArgs_zero]
      exact hnext _ s ⟨rfl, _, rfl, rfl, rfl⟩
  | succ n ih =>
      rw [call_towerArgs_succ]
      refine Program.settles_call hgoal (Fails n ("apply" :: s.calls)) hs.quiet ?_ ?_
      · intro clock
        have hs' := hs.pushCall "apply" clock
        have hinner := ih hs' (fun r u hu => Program.settles_done hu)
        rwa [Program.andThen_done, ← hs'.applyValue] at hinner
      · exact fun r u hu => hnext _ _ hu.leave

/-! ### The form -/

theorem lookupIn_newChild (scopes : Scopes) (outer : Scope) (name : String) {chain : List Nat}
    (h : ∀ i ∈ chain, i < scopes.frames.size) :
    (scopes.newChild outer).2.lookupIn name chain = scopes.lookupIn name chain := by
  induction chain with
  | nil => rfl
  | cons i chain ih =>
      obtain ⟨hi, hchain⟩ := List.forall_mem_cons.mp h
      simp only [Scopes.lookupIn, Scopes.frame_newChild outer hi, ih hchain]

/-- A new scope inside changes nothing. -/
theorem Knows.newChild (hs : Knows f scope s) :
    Knows f scope (s.onScopes (·.newChild scope)).2 where
  quiet := hs.quiet
  function := hs.function
  frames i hi := by
    have := hs.frames i hi
    simp only [State.onScopes, Scopes.newChild, Array.size_push]
    omega
  binding := (lookupIn_newChild s.scopes scope "apply" hs.frames).trans hs.binding

/-- In a new scope inside, `apply` stands for the function. -/
theorem Knows.resolve (hs : Knows f scope s) :
    (s.onScopes (·.newChild scope)).2.scopes.resolve (s.onScopes (·.newChild scope)).1
      (.ident "apply") = .function f := by
  have hfirst : (s.scopes.newChild scope).2.frame s.scopes.frames.size = [] := by
    simp [Scopes.frame, Scopes.newChild]
  have hlookup : (s.scopes.newChild scope).2.lookup (s.scopes.newChild scope).1 "apply" =
      some (.function f) := by
    have hrest := lookupIn_newChild s.scopes scope "apply" hs.frames
    simp only [Scopes.newChild, Scopes.lookup, Scope.chain, Scopes.lookupIn] at hfirst hrest ⊢
    rw [hfirst]
    exact hrest.trans hs.binding
  simp only [State.onScopes, Scopes.resolve, hlookup]

/-- Later in the evaluation of the arguments. -/
structure Prepared (f : FunctionRef) (scope : Scope) (t s : State) : Prop extends
    Knows f scope s where
  calls : s.calls = t.calls

theorem Prepared.trans {t u : State} (first : Prepared f scope t s)
    (second : Prepared f scope s u) : Prepared f scope t u :=
  ⟨second.toKnows, second.calls.trans first.calls⟩

/-- One argument is evaluated, if it is an atom. -/
theorem settles_arg (hgoal : Machine.Backward goal) (hs : Knows f scope s) {v v' : Value}
    (hv : (s.onScopes (·.newChild scope)).2.scopes.resolve (s.onScopes (·.newChild scope)).1 v = v')
    (args : List Value) (ns : List Node) {next : Except Error (List Value) → State → Program Value}
    (hnext : ∀ u, Prepared f scope s u →
      ((evalArgs scope (v' :: args) ns u).andThen next).Settles goal post) :
    ((evalArgs scope args (.atom v :: ns) s).andThen next).Settles goal post := by
  refine Program.settles_call hgoal (fun r u => r = .ok v' ∧ Prepared f scope s u) hs.quiet ?_ ?_
  · intro clock
    have hlater : Prepared f scope s { (s.onScopes (·.newChild scope)).2 with clock } :=
      ⟨⟨hs.quiet, hs.function, hs.newChild.frames, hs.newChild.binding⟩, rfl⟩
    exact Program.settles_done ⟨congrArg Except.ok hv, hlater⟩
  · rintro r u ⟨rfl, hu⟩
    exact hnext u hu

/-- The arguments of the form. -/
def towerNodes (n : Nat) : List Node :=
  .replicate n (.atom (.ident "apply")) ++ [.atom (.int 5)]

theorem settles_towerNodes (hgoal : Machine.Backward goal) (hs : Knows f scope s) (n : Nat)
    (args : List Value) {next : Except Error (List Value) → State → Program Value}
    (hnext : ∀ u, Prepared f scope s u →
      (next (.ok (args.reverse ++ towerArgs f n)) u).Settles goal post) :
    ((evalArgs scope args (towerNodes n) s).andThen next).Settles goal post := by
  induction n generalizing s args with
  | zero =>
      refine settles_arg hgoal hs rfl args [] fun u hu => ?_
      have hlast := hnext u hu
      rwa [towerArgs, List.replicate_zero, List.nil_append, ← List.reverse_cons] at hlast
  | succ n ih =>
      refine settles_arg hgoal hs hs.resolve args (towerNodes n) fun u hu => ?_
      refine ih hu.toKnows _ fun u' hu' => ?_
      have hlast := hnext u' (hu.trans hu')
      rwa [towerArgs_succ, List.append_cons, ← List.reverse_cons] at hlast

/-- The form `(apply apply … apply 5)`, with `n` words after the first. -/
def towerNode (n : Nat) : Node := .form (.ident "apply") (towerNodes n)

theorem Knows.resolve_here (hs : Knows f scope s) :
    s.scopes.resolve scope (.ident "apply") = .function f := by
  simp only [Scopes.resolve, hs.binding]

/-- What is left of the form after its arguments: one call, and then a level of nesting ends. -/
theorem settles_towerNode (hgoal : Machine.Backward goal) (hs : Knows f scope s)
    (hfits : s.depth + 1 ≤ s.limit) (n : Nat)
    (hcall : ∀ u, Prepared f scope s u →
      (((Overloads.single applyEntry).call (towerArgs f n) scope u).andThen fun r u =>
        .done r { u with depth := u.depth - 1 }).Settles goal post) :
    (evalNode (towerNode n) scope s).Settles goal post := by
  rw [towerNode, evalNode_function hs.resolve_here, hs.function]
  have hform : Eval.nested (callForm (.single applyEntry) (towerNodes n) scope) s =
      (evalArgs scope [] (towerNodes n) { s with depth := s.depth + 1 }).andThen fun r u =>
        (Eval.onValue (fun args => (Overloads.single applyEntry).call args scope) r u).andThen
          fun r u => .done r { u with depth := u.depth - 1 } := by
    rw [Eval.nested, if_neg (by omega), Eval.atEnd, ← Program.andThen_assoc, ← Eval.bind_apply]
    rfl
  have hs' : Knows f scope { s with depth := s.depth + 1 } :=
    ⟨hs.quiet, hs.function, hs.frames, hs.binding⟩
  rw [hform]
  exact settles_towerNodes hgoal hs' n [] fun u hu => hcall u ⟨hu.toKnows, hu.calls⟩

/-- The form as a program of its own. -/
theorem settles_program (hgoal : Machine.Backward goal) (hs : Knows f scope s)
    (hfits : s.depth + 1 ≤ s.limit) (n : Nat) (returned : Result → State → Prop)
    (hcall : ∀ u, Prepared f scope s u →
      (((Overloads.single applyEntry).call (towerArgs f n) scope u).andThen fun r u =>
        .done r { u with depth := u.depth - 1 }).Settles goal returned)
    (hreturned : ∀ r u, returned r u → ∃ e, r = .error e ∧ post r u) :
    (Eval.evalBody [towerNode n] scope s).Settles goal post := by
  refine Program.settles_call hgoal returned hs.quiet (fun clock => ?_) fun r u hu => ?_
  · have hs' : Knows f scope { s with clock } := ⟨hs.quiet, hs.function, hs.frames, hs.binding⟩
    exact settles_towerNode hgoal hs' hfits n fun u hu => hcall u ⟨hu.toKnows, hu.calls⟩
  · obtain ⟨e, rfl, hpost⟩ := hreturned r u hu
    exact Program.settles_done hpost

/-! ### Fresh sessions -/

theorem install_withLimit (scope : Scope) (entries : List Entry) (s : State) (limit : Nat) :
    Prelude.install scope entries (s.withLimit limit) =
      (Prelude.install scope entries s).withLimit limit := by
  induction entries generalizing s with
  | nil => rfl
  | cons e entries ih => exact ih (s.register scope e)

namespace World

/-- Worlds with different limits differ in nothing else. -/
theorem new_eq (limit : Nat) :
    World.new limit =
      { World.new 0 with state := (World.new 0).state.withLimit (max limit 1) } := by
  unfold World.new
  generalize Prelude.core = core
  generalize Prelude.entries = entries
  have hstart : State.onScopes { limit := max limit 1 } Scopes.newRoot =
      ((State.onScopes { limit := max 0 1 } Scopes.newRoot).1,
        (State.onScopes { limit := max 0 1 } Scopes.newRoot).2.withLimit (max limit 1)) := rfl
  simp only [hstart, install_withLimit]
  generalize Prelude.install _ core _ = s
  exact congrArg (fun t => World.mk t [] _ _ _) (install_withLimit _ entries
    ((s.onScopes (·.newChild _)).2.define (s.onScopes (·.newChild _)).1 "empty-stream" .emptyStream)
    (max limit 1))

theorem newSession_eq (limit : Nat) :
    (World.new limit).newSession true =
      (((World.new 0).newSession true).1,
        { ((World.new 0).newSession true).2 with
          state := ((World.new 0).newSession true).2.state.withLimit (max limit 1) }) := by
  rw [new_eq]
  generalize World.new 0 = w
  rfl

/-- In a fresh session `apply` is what it is meant to be. -/
theorem knows_fresh :
    Knows ⟨17, "apply"⟩ ((World.new 0).newSession true).1
      ((World.new 0).newSession true).2.state where
  quiet := by decide +kernel
  function := by rfl
  frames := by decide +kernel
  binding := by decide +kernel

/-- What a fresh session is like. -/
theorem exists_fresh (limit : Nat) : ∃ f session s core prelude turn,
    (World.new limit).newSession true = (session, ⟨s, [], core, prelude, turn⟩) ∧
    Knows f session s ∧ s.calls = [] ∧ s.depth = 0 ∧ s.limit = max limit 1 := by
  have hwaiting : ((World.new 0).newSession true).2.waiting = [] :=
    List.isEmpty_iff.mp (by decide +kernel)
  have hcalls : ((World.new 0).newSession true).2.state.calls = [] := by decide +kernel
  have hdepth : ((World.new 0).newSession true).2.state.depth = 0 := by decide +kernel
  have hknows := knows_fresh
  rw [newSession_eq]
  generalize (World.new 0).newSession true = fresh at *
  obtain ⟨session, s, waiting, core, prelude, turn⟩ := fresh
  cases hwaiting
  have hknows' : Knows ⟨17, "apply"⟩ session (s.withLimit (max limit 1)) :=
    ⟨hknows.quiet, hknows.function, hknows.frames, hknows.binding⟩
  exact ⟨_, session, _, core, prelude, turn, rfl, hknows', hcalls, hdepth, rfl⟩

end World

/-! ### The text -/

theorem rereadAll_towerNodes (n : Nat) : Node.rereadAll (towerNodes n) = towerNodes n := by
  induction n with
  | zero => rfl
  | succ n ih => exact congrArg (Node.atom (.ident "apply") :: ·) ih

theorem readable_towerNode (n : Nat) : (towerNode n).Readable := by
  refine .form Value.readable_apply fun node hnode => ?_
  rcases List.mem_append.mp hnode with hnode | hnode
  · rw [List.eq_of_mem_replicate hnode]
    exact .atom Value.readable_apply
  · rw [List.mem_singleton.mp hnode]
    exact .atom trivial

theorem readAll_towerNode (n : Nat) :
    Node.readAll ((towerNode n).print default) = .ok [towerNode n] := by
  have hread := Node.readAll_of_scans (Node.scans_joined default
    (List.forall_mem_singleton.mpr (readable_towerNode n)))
  rw [Node.joined_cons, Node.printTail, String.append_empty] at hread
  rw [hread, Node.rereadAll, Node.rereadAll, towerNode, Node.reread, rereadAll_towerNodes]
  rfl

/-! ### The main result -/

/-- In a fresh session the calls of the form run inside each other. -/
theorem visits_towerNode (limit n : Nat) :
    Machine.Visits (fun u => u.calls = .replicate (n + 1) "apply")
      (((World.new limit).newSession true).2.machine
        (Eval.evalBody [towerNode (n + 1)] ((World.new limit).newSession true).1)) := by
  obtain ⟨f, session, s, core, prelude, turn, heq, hs, hcalls, hdepth, hlimit⟩ :=
    World.exists_fresh limit
  rw [heq]
  have hfits : s.depth + 1 ≤ s.limit := by omega
  have hprogram : (Eval.evalBody [towerNode (n + 1)] session s).Settles
      (Machine.Visits fun u => u.calls = .replicate (n + 1) "apply") fun _ _ => False := by
    refine settles_program (Machine.backward_visits _) hs hfits (n + 1) (fun _ _ => False)
      (fun u hu => ?_) fun _ _ hfalse => hfalse.elim
    have hall : List.replicate (n + 1) "apply" = .replicate (n + 1) "apply" ++ u.calls := by
      rw [hu.calls, hcalls, List.append_nil]
    rw [hall]
    exact visits_tower hu.toKnows n session
  exact hprogram.reached turn

/-- In a fresh session the text of the form fails, and the error names all calls. -/
theorem evalText_towerNode (limit n : Nat) :
    ∃ fuel e w', ((World.new limit).newSession true).2.evalText fuel
        ((World.new limit).newSession true).1 ((towerNode (n + 1)).print default) =
          some (.error e, w') ∧
      e.cause = .noOverload "apply" "int" ∧ e.trace? = some (.replicate (n + 1) "apply") := by
  obtain ⟨f, session, s, core, prelude, turn, heq, hs, hcalls, hdepth, hlimit⟩ :=
    World.exists_fresh limit
  rw [heq]
  have hfits : s.depth + 1 ≤ s.limit := by omega
  have hprogram : (Eval.evalBody [towerNode (n + 1)] session s).Settles
      (Machine.EndsIn (Fails (n + 1) [])) (Fails (n + 1) []) := by
    refine settles_program (Machine.backward_endsIn _) hs hfits (n + 1) (Fails (n + 1) [])
      (fun u hu => ?_) fun r u hfails => ?_
    · refine settles_tower (Machine.backward_endsIn _) hu.toKnows (n + 1) session ?_
      intro r u' hfails
      rw [hu.calls, hcalls] at hfails
      exact Program.settles_done hfails
    · obtain ⟨hcalls', e, rfl, herror⟩ := hfails
      exact ⟨e, rfl, hcalls', e, rfl, herror⟩
  obtain ⟨r, s', left, turn', ⟨fuel, hfinish⟩, -, e, rfl, hcause, htrace⟩ := hprogram.endsIn turn
  refine ⟨fuel, e, ⟨s', left, core, prelude, turn'⟩, ?_, hcause, ?_⟩
  · simp only [World.evalText, readAll_towerNode, World.execute, World.machine, hfinish]
    rfl
  · rw [List.append_nil] at htrace
    cases he : e.trace? with
    | none =>
        rw [he] at htrace
        cases htrace
    | some trace =>
        rw [he] at htrace
        exact congrArg some htrace

/-- Every program of a fresh session is within the limit at its beginning. -/
theorem nests_fresh (limit : Nat) (nodes : List Node) :
    Machine.Nests (max limit 1) (((World.new limit).newSession true).2.machine
      (Eval.evalBody nodes ((World.new limit).newSession true).1)) := by
  obtain ⟨f, session, s, core, prelude, turn, heq, -, -, hdepth, hlimit⟩ := World.exists_fresh limit
  rw [heq]
  have hregular : Eval.Regular False Set.univ (Eval.evalBody nodes session) :=
    .evalBody (Set.mem_univ _) nodes
  have hbound : s.depth ≤ max limit 1 := by omega
  refine ⟨⟨s.depth, hbound, hregular.within s hlimit hbound, .nil⟩, fun g hg => ?_⟩
  cases hg

/-- **The limit bounds forms, and not calls.**  In a fresh session, at every step of the evaluation
of a program, the depth is within the limit.  But for every number there is a program such that at
some step more calls run than that, all inside each other; in the end there is an error that names
all of them, and it is not that the limit was exceeded. -/
theorem limit_bounds_forms_not_calls (limit : Nat) :
    (∀ nodes m,
      (((World.new limit).newSession true).2.machine
        (Eval.evalBody nodes ((World.new limit).newSession true).1)).Reaches m →
      m.state.depth ≤ max limit 1) ∧
    ∀ bound, ∃ text nodes, Node.readAll text = .ok nodes ∧
      (∃ m, (((World.new limit).newSession true).2.machine
          (Eval.evalBody nodes ((World.new limit).newSession true).1)).Reaches m ∧
        bound < m.state.calls.length) ∧
      ∃ fuel e w' trace,
        ((World.new limit).newSession true).2.evalText fuel ((World.new limit).newSession true).1
          text = some (.error e, w') ∧
        e.cause = .noOverload "apply" "int" ∧ e.trace? = some trace ∧ bound < trace.length := by
  refine ⟨fun nodes m hreaches => ((nests_fresh limit nodes).reaches hreaches).state.2, ?_⟩
  intro bound
  obtain ⟨m, hreaches, hcalls⟩ := visits_towerNode limit bound
  obtain ⟨fuel, e, w', hrun, hcause, htrace⟩ := evalText_towerNode limit bound
  refine ⟨_, _, readAll_towerNode (bound + 1), ⟨m, hreaches, ?_⟩, fuel, e, w', _, hrun, hcause,
    htrace, ?_⟩
  · rw [hcalls, List.length_replicate]
    omega
  · rw [List.length_replicate]
    omega

theorem limit_bounds_forms_not_calls_one :
    (((World.new 1).newSession true).2.machine
      (Eval.evalBody [towerNode 3] ((World.new 1).newSession true).1)).state.depth ≤ 1 ∧
    ∃ text nodes, Node.readAll text = .ok nodes ∧
      ∃ m, (((World.new 1).newSession true).2.machine
          (Eval.evalBody nodes ((World.new 1).newSession true).1)).Reaches m ∧
        1000 < m.state.calls.length := by
  obtain ⟨hdepth, hcalls⟩ := limit_bounds_forms_not_calls 1
  obtain ⟨text, nodes, hread, hreaches, -⟩ := hcalls 1000
  exact ⟨hdepth [towerNode 3] _ .refl, text, nodes, hread, hreaches⟩

/-- With a limit of one form, no number bounds the calls that run at the same time, and none bounds
the calls that an error names. -/
theorem unbounded_calls :
    (¬ ∃ bound, ∀ nodes m, (((World.new 1).newSession true).2.machine
        (Eval.evalBody nodes ((World.new 1).newSession true).1)).Reaches m →
      m.state.calls.length ≤ bound) ∧
    ¬ ∃ bound, ∀ text fuel e w', ((World.new 1).newSession true).2.evalText fuel
      ((World.new 1).newSession true).1 text = some (.error e, w') →
      ∀ trace, e.trace? = some trace → trace.length ≤ bound := by
  constructor
  · rintro ⟨bound, hbound⟩
    obtain ⟨m, hreaches, hcalls⟩ := visits_towerNode 1 bound
    have hlength := hbound _ m hreaches
    rw [hcalls, List.length_replicate] at hlength
    omega
  · rintro ⟨bound, hbound⟩
    obtain ⟨fuel, e, w', hrun, -, htrace⟩ := evalText_towerNode 1 bound
    have hlength := hbound _ fuel e w' hrun _ htrace
    rw [List.length_replicate] at hlength
    omega

end DispatchLisp
