import DispatchLisp.Evaluation
import DispatchLisp.Proofs.Untraced
import Mathlib.Data.Set.Insert
import Mathlib.Tactic.Choose

/-! # What computations are built from

Every job of the evaluator is put together from few elementary actions.  `Eval.Regular honest own m`
says so of the computation `m` and keeps account of the frames in which it may bind and remove
names: those in `own`, and those of the scopes that it makes itself.

* The elementary actions are the constructors of `Eval.Regular`; facts about all computations are
  proved by induction on it, with one case for each action.
* `Job.regular` says that the body of a job is regular and owns the frame of the job's scope only.
* Most special forms work in a scope of their own and are regular whatever they own:
  `SpecialForm.regular_of_not_binds`. -/

namespace DispatchLisp

/-- The scope in which a job is carried out. -/
def Job.scope : Job → Scope
  | .eval _ scope => scope
  | .apply _ _ scope => scope
  | .loop _ _ scope _ => scope
  | .sift _ _ scope => scope
  | .walk _ _ scope => scope

/-- The same state with another limit on nesting. -/
def State.withLimit (s : State) (limit : Nat) : State := { s with limit }

namespace State

theorem scopes_withLimit (s : State) (limit : Nat) : (s.withLimit limit).scopes = s.scopes := rfl

theorem threads_withLimit (s : State) (limit : Nat) : (s.withLimit limit).threads = s.threads := rfl

theorem overloads_withLimit (s : State) (limit : Nat) (f : FunctionRef) :
    (s.withLimit limit).overloads f = s.overloads f := rfl

theorem notCallableError_withLimit (s : State) (limit : Nat) (scope : Scope) (v : Value) :
    (s.withLimit limit).notCallableError scope v = s.notCallableError scope v := rfl

/-- Notes a new thread that will call a function in a scope. -/
def spawn (s : State) (f : FunctionRef) (scope : Scope) : Value × State :=
  let name := f.name ++ "-" ++ toString s.threads.size
  (.thread ⟨s.threads.size, name⟩,
    { s with threads := s.threads.push ⟨name, .fresh (.function f) scope, false⟩ })

/-- Notes that someone asks for the result of a thread. -/
def join (s : State) (thread : Nat) : State :=
  { s with threads := s.threads.modify thread fun t => { t with joined := true } }

/-- The result of a thread, if it has finished. -/
def resultOf (s : State) (thread : ThreadRef) : Result :=
  match s.threads[thread.id]? with
  | some ⟨_, .finished r, _⟩ => r
  | _ => .ok .nil

end State

/-- Joining a thread: its result can be asked for once, and it is waited for. -/
theorem Prelude.threadJoin_eq (thread : ThreadRef) (s : State) :
    threadJoin [.thread thread] s =
      if s.threads[thread.id]?.any (·.joined) then
        .done (.error (.base (.eval (.alreadyJoined thread.name)))) s
      else
        .await (.finished thread.id) (s.join thread.id) fun u => .done (u.resultOf thread) u := by
  have hresult : ∀ u : State, resultOf thread u = .done (u.resultOf thread) u := by
    intro u
    unfold resultOf State.resultOf
    rcases u.threads[thread.id]? with _ | ⟨name, phase, joined⟩
    · rfl
    · cases phase <;> rfl
  change (markJoined thread s).andThen _ = _
  unfold markJoined
  split
  · rfl
  · exact congrArg (Program.await _ _) (funext hresult)

namespace Eval

/-- A computation that is put together from elementary actions, and that binds and removes names
only in the frames of `own` and in frames that it makes.

Errors begin without a trace.  Only functions that the state holds from outside could do otherwise;
if `honest` holds, no state with such functions is considered. -/
inductive Regular (honest : Prop) : Set Nat → {α : Type} → Eval α → Prop
  | result {own : Set Nat} {α : Type} (r : Except Error α)
      (untraced : ∀ e, r = .error e → e.trace? = none) : Regular honest own fun s => .done r s
  /-- Goes on as the state tells, but not the limit on nesting. -/
  | choose {own : Set Nat} {α : Type} {m : Eval α} (pick : State → Eval α)
      (regular : ∀ s : State, (honest → s.Untraced) → Regular honest own (pick s))
      (blind : ∀ s limit, pick (s.withLimit limit) = pick s)
      (eq : ∀ s, m s = pick s s) : Regular honest own m
  | heap {own : Set Nat} {α : Type} (m : HeapM α) (untraced : honest → m.Untraced) :
      Regular honest own (onHeap m)
  | define {own : Set Nat} {scope : Scope} (name : String) (value : Value)
      (owned : scope.frame ∈ own) : Regular honest own (define scope name value)
  | assign {own : Set Nat} (scope : Scope) (name : String) (value : Value) :
      Regular honest own (Form.assign scope name value)
  | remove {own : Set Nat} {scope : Scope} (name : String) (owned : scope.frame ∈ own) :
      Regular honest own (Form.remove scope name)
  | makeFunction {own : Set Nat} (e : Entry) (untraced : e.body.Untraced) :
      Regular honest own (newFunction e)
  | print {own : Set Nat} (text : String) : Regular honest own (modify (·.print text))
  | spawn {own : Set Nat} (f : FunctionRef) (scope : Scope) :
      Regular honest own (newChild scope >>= fun inner => update (·.spawn f inner))
  | join {own : Set Nat} (thread : ThreadRef) :
      Regular honest own (Prelude.threadJoin [.thread thread])
  | perform {own : Set Nat} {job : Job} (owned : job.scope.frame ∈ own) :
      Regular honest own (perform job)
  | await {own : Set Nat} (c : Condition) : Regular honest own (await c)
  | bind {own : Set Nat} {α β : Type} {m : Eval α} {f : α → Eval β} (first : Regular honest own m)
      (next : ∀ a, Regular honest own (f a)) : Regular honest own (m >>= f)
  /-- Works in a new scope, which it owns. -/
  | child {own : Set Nat} {α : Type} {f : Scope → Eval α} (scope : Scope)
      (next : ∀ inner, Regular honest (insert inner.frame own) (f inner)) :
      Regular honest own (newChild scope >>= f)
  | nested {own : Set Nat} {α : Type} {m : Eval α} (inner : Regular honest own m) :
      Regular honest own (nested m)
  | framed {own : Set Nat} {α : Type} {m : Eval α} (name : String)
      (inner : Regular honest own m) : Regular honest own (framed name m)

namespace Regular

variable {honest : Prop} {own : Set Nat} {α β : Type}

theorem pure (a : α) : Regular honest own (pure a : Eval α) :=
  .result (.ok a) fun e he => by cases he

theorem throw {e : Error} (he : e.trace? = none) : Regular honest own (Eval.throw e : Eval α) := by
  refine .result (.error e) fun e' he' => ?_
  cases he'
  exact he

theorem fail (c : Cause) : Regular honest own (Eval.fail c : Eval α) := throw rfl

/-- Case analysis on the state: for each one, but whatever the limit on nesting, there is a regular
computation that does the same. -/
theorem pointwise {m : Eval α} (h : ∀ s : State, ∃ k : Eval α,
    ((honest → s.Untraced) → Regular honest own k) ∧
    ∀ limit, m (s.withLimit limit) = k (s.withLimit limit)) : Regular honest own m := by
  choose k regular eq using h
  exact .choose (fun s => k (s.withLimit 0)) (fun s => regular (s.withLimit 0)) (fun _ _ => rfl)
    fun s => eq (s.withLimit 0) s.limit

/-- Reading the state, except for the limit on nesting. -/
theorem look {m : Eval α} (f : State → Except Error α)
    (blind : ∀ s limit, f (s.withLimit limit) = f s)
    (untraced : ∀ s e, f s = .error e → e.trace? = none) (eq : ∀ s, m s = .done (f s) s) :
    Regular honest own m :=
  .choose (fun s s' => .done (f s) s') (fun s _ => .result (f s) (untraced s))
    (fun s limit => by rw [blind s limit]) eq

theorem reads {f : State → α} (blind : ∀ s limit, f (s.withLimit limit) = f s) :
    Regular honest own (Eval.reads f) :=
  look (fun s => .ok (f s)) (fun s limit => by rw [blind s limit]) (fun s e he => by cases he)
    fun _ => rfl

theorem decode (f : Heap → Except Cause α) : Regular honest own (Eval.decode f) := by
  refine look (fun s => (f s.heap).mapError .base) (fun _ _ => rfl) (fun s e he => ?_) fun s => ?_
  · cases hf : f s.heap with
    | ok a =>
        rw [hf] at he
        cases he
    | error c =>
        rw [hf] at he
        cases he
        rfl
  · unfold Eval.decode
    cases f s.heap <;> rfl

theorem expectBool (v : Value) : Regular honest own (Eval.expectBool v) := by
  unfold Eval.expectBool
  split
  · exact pure _
  · exact fail _

theorem newList (items : List Value) : Regular honest own (Eval.newList items) :=
  heap (HeapM.newList items) fun _ => .newList items

theorem eval (node : Node) {scope : Scope} (owned : scope.frame ∈ own) :
    Regular honest own (Eval.eval node scope) := perform owned

theorem apply (f : Value) (args : List Value) {scope : Scope} (owned : scope.frame ∈ own) :
    Regular honest own (Eval.apply f args scope) := perform owned

theorem evalSequence {scope : Scope} (owned : scope.frame ∈ own) (last : Value)
    (nodes : List Node) : Regular honest own (Eval.evalSequence scope last nodes) := by
  induction nodes generalizing last with
  | nil => exact pure last
  | cons n ns ih => exact bind (eval n owned) ih

theorem evalBody {scope : Scope} (owned : scope.frame ∈ own) (nodes : List Node) :
    Regular honest own (Eval.evalBody nodes scope) := evalSequence owned .nil nodes

end Regular

end Eval

/-! ### Special forms -/

namespace Form

open Eval

variable {honest : Prop} {own : Set Nat}

theorem regular_newClosure (name : String) (params : List String) (rest : Option String)
    (body : List Node) (scope : Scope) :
    Regular honest own (newClosure name params rest body scope) :=
  .child scope fun _ => .makeFunction _ trivial

theorem regular_evalFresh (body : List Node) (scope : Scope) :
    Regular honest own (evalFresh body scope) :=
  .child scope fun _ => .evalBody (Set.mem_insert _ _) body

theorem regular_requireBound (scope : Scope) (name : String) :
    Regular honest own (requireBound scope name) :=
  .look (fun s => (s.get scope name).map fun _ => ()) (fun _ _ => rfl) (fun s e he => by
    unfold State.get at he
    split at he
    · cases he
    · cases he
      exact trace?_nameError _ _ _) fun _ => rfl

theorem regular_define (args : List Node) {scope : Scope} (owned : scope.frame ∈ own) :
    Regular honest own (Form.define args scope) := by
  unfold Form.define
  split
  · split
    · refine .bind (.decode _) fun name => ?_
      refine .bind (regular_evalFresh _ scope) fun value => ?_
      exact .bind (.define name value owned) fun _ => .pure _
    · refine .bind (.decode _) fun (name, names) => ?_
      refine .bind (regular_newClosure name _ _ _ scope) fun closure => ?_
      exact .bind (.define name closure owned) fun _ => .pure _
  · exact .fail _

theorem regular_defineVariadic (args : List Node) {scope : Scope} (owned : scope.frame ∈ own) :
    Regular honest own (defineVariadic args scope) := by
  unfold defineVariadic
  split
  · refine .bind (.decode _) fun (name, params, rest) => ?_
    refine .bind (regular_newClosure name params _ _ scope) fun closure => ?_
    exact .bind (.define name closure owned) fun _ => .pure _
  · exact .fail _

theorem regular_set (args : List Node) (scope : Scope) :
    Regular honest own (Form.set args scope) := by
  unfold Form.set
  split
  · split
    · refine .bind (.decode _) fun name => ?_
      refine .bind (regular_requireBound scope name) fun _ => ?_
      refine .bind (regular_evalFresh _ scope) fun value => ?_
      exact .bind (.assign scope name value) fun _ => .pure _
    · refine .bind (.decode _) fun (name, names) => ?_
      refine .bind (regular_requireBound scope name) fun _ => ?_
      refine .bind (regular_newClosure name _ _ _ scope) fun closure => ?_
      exact .bind (.assign scope name closure) fun _ => .pure _
  · exact .fail _

theorem regular_setVariadic (args : List Node) (scope : Scope) :
    Regular honest own (setVariadic args scope) := by
  unfold setVariadic
  split
  · refine .bind (.decode _) fun (name, params, rest) => ?_
    refine .bind (regular_requireBound scope name) fun _ => ?_
    refine .bind (regular_newClosure name params _ _ scope) fun closure => ?_
    exact .bind (.assign scope name closure) fun _ => .pure _
  · exact .fail _

theorem regular_undefine (args : List Node) {scope : Scope} (owned : scope.frame ∈ own) :
    Regular honest own (undefine args scope) := by
  unfold undefine
  split
  · refine .bind (.decode _) fun name => ?_
    exact .bind (.remove name owned) fun _ => .pure _
  · exact .fail _

theorem regular_lambda (args : List Node) (scope : Scope) :
    Regular honest own (lambda args scope) := by
  unfold lambda
  split
  · exact .bind (.decode _) fun names => regular_newClosure _ _ _ _ scope
  · exact .fail _

theorem regular_delay (args : List Node) (scope : Scope) :
    Regular honest own (delay args scope) := by
  unfold delay
  split
  · exact .fail _
  · exact regular_newClosure _ _ _ _ scope

theorem regular_consStream (args : List Node) (scope : Scope) :
    Regular honest own (consStream args scope) := by
  unfold consStream
  split
  · refine .child scope fun inner => ?_
    refine .bind (.eval _ (Set.mem_insert _ _)) fun head => ?_
    exact .bind (regular_newClosure _ _ _ _ scope) fun rest => .newList _
  · exact .fail _

theorem regular_defineMacro (args : List Node) {scope : Scope} (owned : scope.frame ∈ own) :
    Regular honest own (defineMacro args scope) := by
  unfold defineMacro
  split
  · refine .bind (.decode _) fun (name, params) => ?_
    refine .bind (.makeFunction _ trivial) fun f => ?_
    exact .bind (.define name f owned) fun _ => .pure _
  · exact .fail _

theorem regular_expand (name : String) (params : List String) (templates args : List Node)
    (scope : Scope) : Regular honest own (expand name params templates args scope) := by
  unfold expand
  split
  · exact .fail _
  · exact regular_evalFresh _ scope

theorem regular_test (condition : Node) {scope : Scope} (owned : scope.frame ∈ own) :
    Regular honest own (test condition scope) :=
  .bind (.eval condition owned) fun v => .expectBool v

theorem regular_bind (form : String) (source : Scope) {scope : Scope} (owned : scope.frame ∈ own)
    (binding : Node) : Regular honest own (Form.bind form source scope binding) := by
  unfold Form.bind
  split
  · split
    · exact .fail _
    · refine .bind (.decode _) fun named => ?_
      exact .bind (regular_newClosure named.1 _ _ _ source) fun closure => .define _ closure owned
  · refine .bind (.decode _) fun name => ?_
    exact .bind (regular_evalFresh _ source) fun value => .define name value owned

theorem regular_bindAll (form : String) (source : Scope) {scope : Scope}
    (owned : scope.frame ∈ own) (bindings : List Node) :
    Regular honest own (bindAll form source scope bindings) := by
  induction bindings with
  | nil => exact .pure _
  | cons b bs ih => exact .bind (regular_bind form source owned b) fun _ => ih

theorem regular_letParallel (args : List Node) (scope : Scope) :
    Regular honest own (letParallel args scope) := by
  unfold letParallel
  split
  · refine .child scope fun inner => ?_
    refine .bind (.decode _) fun bindings => ?_
    refine .bind (regular_bindAll _ scope (Set.mem_insert _ _) bindings) fun _ => ?_
    exact regular_evalFresh _ inner
  · exact .fail _

theorem regular_letSequential (args : List Node) (scope : Scope) :
    Regular honest own (letSequential args scope) := by
  unfold letSequential
  split
  · refine .child scope fun inner => ?_
    refine .bind (.decode _) fun bindings => ?_
    refine .bind (regular_bindAll _ inner (Set.mem_insert _ _) bindings) fun _ => ?_
    exact regular_evalFresh _ inner
  · exact .fail _

theorem regular_branch (args : List Node) (scope : Scope) :
    Regular honest own (branch args scope) := by
  unfold branch
  split
  · split
    · exact .fail _
    · refine .child scope fun inner => ?_
      refine .bind (regular_test _ (Set.mem_insert _ _)) fun yes => ?_
      split
      · exact .evalBody (Set.mem_insert _ _) _
      · exact .evalBody (Set.mem_insert _ _) _
  · exact .fail _

theorem regular_condClauses {scope : Scope} (owned : scope.frame ∈ own) (clauses : List Node) :
    Regular honest own (condClauses scope clauses) := by
  induction clauses with
  | nil => exact .pure _
  | cons clause clauses ih =>
      unfold condClauses
      split
      · exact .evalBody owned _
      · refine .bind (regular_test _ owned) fun yes => ?_
        split
        · exact .evalBody owned _
        · exact ih

theorem regular_cond (args : List Node) (scope : Scope) : Regular honest own (cond args scope) :=
  .child scope fun _ => regular_condClauses (Set.mem_insert _ _) args

theorem regular_switch (args : List Node) (scope : Scope) :
    Regular honest own (switch args scope) := by
  unfold switch
  split
  · refine .child scope fun inner => ?_
    refine .bind (.eval _ (Set.mem_insert _ _)) fun subject => ?_
    refine .bind (.reads fun _ _ => rfl) fun clause => ?_
    split
    · exact .evalBody (Set.mem_insert _ _) _
    · exact .pure _
  · exact .fail _

theorem regular_loopRound (condition : Node) (body : List Node) {scope : Scope}
    (owned : scope.frame ∈ own) (last : Value) :
    Regular honest own (loopRound condition body scope last) := by
  refine .bind (regular_test condition owned) fun yes => ?_
  split
  · exact .bind (.evalBody owned body) fun v => .perform owned
  · exact .pure _

theorem regular_loop (args : List Node) (scope : Scope) : Regular honest own (loop args scope) := by
  unfold loop
  split
  · exact .child scope fun inner => .perform (Set.mem_insert _ _)
  · exact .fail _

theorem regular_quote (args : List Node) : Regular honest own (quote args) := by
  unfold quote
  split
  · exact .heap _ fun _ => untraced_quoted _
  · exact .fail _

end Form

namespace SpecialForm

open Form

/-- The form binds or removes names in the scope in which it is used. -/
def binds : SpecialForm → Bool
  | .define | .defineMacro | .defineVariadic | .undefine => true
  | _ => false

/-- A form that does not bind names where it is used works in scopes of its own. -/
theorem regular_of_not_binds {honest : Prop} {own : Set Nat} {form : SpecialForm}
    (h : form.binds = false) (untraced : honest → form.Untraced) (args : List Node)
    (scope : Scope) : Eval.Regular honest own (form.run args scope) := by
  cases form with
  | sequence => exact regular_evalFresh args scope
  | cond => exact regular_cond args scope
  | consStream => exact regular_consStream args scope
  | define => cases h
  | defineMacro => cases h
  | defineVariadic => cases h
  | delay => exact regular_delay args scope
  | branch => exact regular_branch args scope
  | lambda => exact regular_lambda args scope
  | letParallel => exact regular_letParallel args scope
  | letSequential => exact regular_letSequential args scope
  | quote => exact regular_quote args
  | assign => exact regular_set args scope
  | assignVariadic => exact regular_setVariadic args scope
  | switch => exact regular_switch args scope
  | undefine => cases h
  | loop => exact regular_loop args scope
  | expansion name params templates => exact regular_expand name params templates args scope
  | host run => exact .heap _ fun hhonest => untraced hhonest args

theorem regular {honest : Prop} {own : Set Nat} (form : SpecialForm)
    (untraced : honest → form.Untraced) (args : List Node) {scope : Scope}
    (owned : scope.frame ∈ own) : Eval.Regular honest own (form.run args scope) := by
  cases form with
  | define => exact regular_define args owned
  | defineMacro => exact regular_defineMacro args owned
  | defineVariadic => exact regular_defineVariadic args owned
  | undefine => exact regular_undefine args owned
  | _ => exact regular_of_not_binds rfl untraced args scope

end SpecialForm

/-! ### Routines -/

namespace Prelude

open Eval

variable {honest : Prop} {own : Set Nat} {scope : Scope} (owned : scope.frame ∈ own)

theorem regular_itemsOf (l : Nat) : Regular honest own (itemsOf l) := .reads fun _ _ => rfl

include owned in
theorem regular_mapItems (f : Value) (done items : List Value) :
    Regular honest own (mapItems f scope done items) := by
  induction items generalizing done with
  | nil => exact .newList _
  | cons x xs ih => exact .bind (.apply f _ owned) fun y => ih _

include owned in
theorem regular_filterItems (f : Value) (kept items : List Value) :
    Regular honest own (filterItems f scope kept items) := by
  induction items generalizing kept with
  | nil => exact .newList _
  | cons x xs ih =>
      refine .bind (.apply f _ owned) fun v => ?_
      exact .bind (.expectBool v) fun keep => ih _

theorem regular_foldItems {f : Value → Value → Eval Value} (hf : ∀ a x, Regular honest own (f a x))
    (acc : Value) (items : List Value) : Regular honest own (foldItems f acc items) := by
  induction items generalizing acc with
  | nil => exact .pure _
  | cons x xs ih => exact .bind (hf acc x) fun a => ih a

include owned in
theorem regular_forceRest (rest : Value) : Regular honest own (forceRest rest scope) := by
  unfold forceRest
  split
  · exact .apply _ _ owned
  · exact .pure _

include owned in
theorem regular_forceRests (done rests : List Value) :
    Regular honest own (forceRests scope done rests) := by
  induction rests generalizing done with
  | nil => exact .pure _
  | cons r rs ih => exact .bind (regular_forceRest owned r) fun s => ih _

include owned in
theorem regular_after (stream : Value) : Regular honest own (after stream scope) :=
  .bind (.heap _ fun _ => untraced_cell _ _) fun (_, rest) => regular_forceRest owned rest

include owned in
theorem regular_dropElements (n : Nat) (stream : Value) :
    Regular honest own (dropElements scope n stream) := by
  induction n generalizing stream with
  | zero => exact .pure _
  | succ n ih => exact .bind (regular_after owned stream) ih

include owned in
theorem regular_takeElements (n : Nat) (stream : Value) (done : List Value) :
    Regular honest own (takeElements scope n stream done) := by
  induction n generalizing stream done with
  | zero => exact .newList _
  | succ n ih =>
      unfold takeElements
      split
      · exact .newList _
      · refine .bind (.heap _ fun _ => untraced_cell _ _) fun (head, _) => ?_
        exact .bind (regular_after owned stream) fun s => ih s _

theorem regular_lazyCell (operation : String) (head : Value) (rest : Routine) :
    Regular honest own (lazyCell operation head rest) :=
  .bind (.makeFunction _ trivial) fun _ => .newList _

include owned in
theorem regular_mapStreams (f : Value) (streams : List Value) :
    Regular honest own (mapStreams f streams scope) := by
  unfold mapStreams
  split
  · exact .pure _
  · refine .bind (.heap _ fun _ => untraced_cells _ _) fun (heads, rests) => ?_
    exact .bind (.apply f heads owned) fun head => regular_lazyCell _ _ _

include owned in
theorem regular_siftStep (predicate stream : Value) :
    Regular honest own (siftStep predicate stream scope) := by
  unfold siftStep
  split
  · exact .pure _
  · refine .bind (.heap _ fun _ => untraced_cell _ _) fun (head, rest) => ?_
    refine .bind (.apply predicate _ owned) fun v => ?_
    refine .bind (.expectBool v) fun meets => ?_
    split
    · exact regular_lazyCell _ _ _
    · exact .bind (regular_forceRest owned rest) fun s => .perform owned

include owned in
theorem regular_walkStep (f : Value) (streams : List Value) :
    Regular honest own (walkStep f streams scope) := by
  unfold walkStep
  split
  · exact .pure _
  · refine .bind (.heap _ fun _ => untraced_cells _ _) fun (heads, rests) => ?_
    refine .bind (.apply f heads owned) fun _ => ?_
    exact .bind (regular_forceRests owned _ rests) fun s => .perform owned

include owned in
theorem regular_streamRef (args : List Value) : Regular honest own (streamRef args scope) := by
  unfold streamRef
  split
  · split
    · refine .bind (regular_dropElements owned _ _) fun s => ?_
      exact .bind (.heap _ fun _ => untraced_cell _ _) fun (head, _) => .pure _
    · exact .bind (.reads fun _ _ => rfl) fun text => .fail _
  · exact .fail _

include owned in
theorem regular_streamTake (args : List Value) : Regular honest own (streamTake args scope) := by
  unfold streamTake
  split
  · split
    · exact regular_takeElements owned _ _ _
    · exact .bind (.reads fun _ _ => rfl) fun text => .fail _
  · exact .fail _

theorem regular_evalText (args : List Value) (scope : Scope) :
    Regular honest own (evalText args scope) := by
  unfold evalText
  split
  · refine .bind (.decode _) fun nodes => ?_
    exact .child scope fun inner => .evalBody (Set.mem_insert _ _) nodes
  · exact .fail _

theorem regular_print (args : List Value) : Regular honest own (Prelude.print args) :=
  .bind (.reads fun _ _ => rfl) fun text => .bind (.print text) fun _ => .pure _

theorem regular_printLine (args : List Value) : Regular honest own (printLine args) :=
  .bind (.reads fun _ _ => rfl) fun _ => .bind (.print _) fun _ => .pure _

theorem regular_lock (args : List Value) : Regular honest own (lock args) := by
  unfold lock
  split
  · exact .bind (.await _) fun _ => .bind (.heap _ fun _ => .modify _) fun _ => .pure _
  · exact .fail _

theorem regular_thread (args : List Value) (scope : Scope) :
    Regular honest own (thread args scope) := by
  unfold thread
  split
  · exact .spawn _ scope
  · exact .fail _

theorem regular_threadJoin (args : List Value) : Regular honest own (threadJoin args) := by
  fun_cases threadJoin args
  · exact .join _
  · exact .fail _

theorem regular_sleep (args : List Value) : Regular honest own (sleep args) := by
  unfold sleep
  split
  · split
    · refine .bind (.reads fun _ _ => rfl) fun now => ?_
      exact .bind (.await _) fun _ => .pure _
    · exact .bind (.reads fun _ _ => rfl) fun text => .fail _
  · exact .fail _

end Prelude

open Prelude in
theorem Routine.regular {honest : Prop} {own : Set Nat} (r : Routine) (args : List Value)
    {scope : Scope} (owned : scope.frame ∈ own) :
    Eval.Regular honest own (r.run args scope) := by
  cases r with
  | apply =>
      simp only [Routine.run, Prelude.applyTo]
      split
      · exact .apply _ _ owned
      · exact .fail _
  | applyList =>
      simp only [Routine.run, Prelude.applyList]
      split
      · exact .bind (regular_itemsOf _) fun items => .apply _ items owned
      · exact .fail _
  | map =>
      simp only [Routine.run, Prelude.map]
      split
      · exact .bind (regular_itemsOf _) fun items => regular_mapItems owned _ _ items
      · exact .fail _
  | filter =>
      simp only [Routine.run, Prelude.filter]
      split
      · exact .bind (regular_itemsOf _) fun items => regular_filterItems owned _ _ items
      · exact .fail _
  | foldLeft =>
      simp only [Routine.run, Prelude.foldLeft]
      split
      · refine .bind (regular_itemsOf _) fun items => ?_
        exact regular_foldItems (fun a x => .apply _ _ owned) _ items
      · exact .fail _
  | foldRight =>
      simp only [Routine.run, Prelude.foldRight]
      split
      · refine .bind (regular_itemsOf _) fun items => ?_
        exact regular_foldItems (fun a x => .apply _ _ owned) _ _
      · exact .fail _
  | forEach =>
      simp only [Routine.run, Prelude.forEach]
      split
      · refine .bind (regular_itemsOf _) fun items => ?_
        exact regular_foldItems (fun a x => .bind (.apply _ _ owned) fun _ => .pure _) _ items
      · exact .fail _
  | curry =>
      simp only [Routine.run, Prelude.curry]
      split
      · exact .makeFunction _ trivial
      · exact .fail _
  | maybe =>
      simp only [Routine.run, Prelude.maybe]
      split
      · exact .pure _
      · exact .apply _ _ owned
      · exact .fail _
  | force =>
      simp only [Routine.run, Prelude.force]
      split
      · exact regular_forceRest owned _
      · exact .fail _
  | streamRest =>
      simp only [Routine.run, Prelude.streamRest]
      split
      · exact regular_after owned _
      · exact .fail _
  | streamRef => exact regular_streamRef owned args
  | streamTake => exact regular_streamTake owned args
  | streamMap =>
      simp only [Routine.run, Prelude.streamMap]
      split
      · exact regular_mapStreams owned _ _
      · exact .fail _
  | streamFilter =>
      simp only [Routine.run, Prelude.streamFilter]
      split
      · exact .perform owned
      · exact .fail _
  | streamForEach =>
      simp only [Routine.run, Prelude.streamForEach]
      split
      · exact .perform owned
      · exact .fail _
  | evalText => exact regular_evalText args scope
  | isBound =>
      simp only [Routine.run, Prelude.isBound]
      split
      · exact .reads fun _ _ => rfl
      · exact .fail _
  | print => exact regular_print args
  | printLine => exact regular_printLine args
  | newLine => exact .bind (.print _) fun _ => .pure _
  | lock => exact regular_lock args
  | thread => exact regular_thread args scope
  | threadJoin => exact regular_threadJoin args
  | threadAlive =>
      simp only [Routine.run, Prelude.threadAlive]
      split
      · exact .reads fun _ _ => rfl
      · exact .fail _
  | sleep => exact regular_sleep args
  | curried f fixed => exact .apply _ _ owned
  | mapRest f rests =>
      exact .bind (regular_forceRests owned _ rests) fun streams =>
        regular_mapStreams owned f streams
  | filterRest f rest => exact .bind (regular_forceRest owned rest) fun s => .perform owned

/-! ### Calls and nodes -/

section

open Eval

variable {honest : Prop} {own : Set Nat} {scope : Scope}

theorem regular_bindParams (owned : scope.frame ∈ own) (params : List String)
    (args : List Value) : Regular honest own (bindParams scope params args) := by
  induction params generalizing args with
  | nil => exact .pure _
  | cons p ps ih =>
      cases args with
      | nil => exact .pure _
      | cons v vs => exact .bind (.define p v owned) fun _ => ih vs

/-- A closure works in a scope of its own, whatever the scope of its caller. -/
theorem Closure.regular (name : String) (c : Closure) (args : List Value) :
    Regular honest own (c.call name args) := by
  unfold Closure.call
  split
  · exact .fail _
  · refine .child c.scope fun inner => ?_
    refine .bind (regular_bindParams (Set.mem_insert _ _) c.params args) fun left => ?_
    split
    · refine .bind (.newList left) fun items => ?_
      exact .bind (.define _ items (Set.mem_insert _ _)) fun _ => .evalBody (Set.mem_insert _ _) _
    · exact .evalBody (Set.mem_insert _ _) _

theorem Entry.regular_run (e : Entry) (untraced : honest → e.body.Untraced) (args : List Value)
    (owned : scope.frame ∈ own) : Regular honest own (e.run args scope) := by
  unfold Entry.run
  cases hbody : e.body with
  | native run =>
      rw [hbody] at untraced
      exact .heap _ fun hhonest => untraced hhonest args
  | routine r => exact r.regular args owned
  | closure c => exact c.regular e.name args
  | special form =>
      rw [hbody] at untraced
      exact form.regular untraced _ owned

theorem Entry.regular (e : Entry) (untraced : honest → e.body.Untraced) (args : List Value)
    (owned : scope.frame ∈ own) : Regular honest own (e.call args scope) :=
  .framed e.name (e.regular_run untraced args owned)

theorem Overloads.regular (o : Overloads) (untraced : honest → o.Untraced) (args : List Value)
    (owned : scope.frame ∈ own) : Regular honest own (o.call args scope) := by
  unfold Overloads.call
  split
  case h_1 e hselected =>
    exact e.regular (fun hhonest => (untraced hhonest).selected hselected) args owned
  case h_2 => exact .fail _

theorem regular_notCallable (scope : Scope) (v : Value) :
    Regular honest own fun s => .done (.error (s.notCallableError scope v) : Result) s := by
  refine .look (fun s => .error (s.notCallableError scope v)) (fun _ _ => rfl) ?_ fun _ => rfl
  rintro s e ⟨⟩
  exact s.trace?_notCallableError scope v

theorem regular_applyValue (f : Value) (args : List Value) (owned : scope.frame ∈ own) :
    Regular honest own (applyValue f args scope) := by
  cases f with
  | function ref =>
      refine .pointwise fun s => ?_
      simp only [applyValue, State.overloads_withLimit]
      split
      case h_1 form hspecial =>
        refine ⟨_, fun hs => form.regular (fun hhonest => ?_) _ owned, fun _ => rfl⟩
        exact ((hs hhonest).overloads ref).special? hspecial
      case h_2 =>
        refine ⟨_, fun hs => Overloads.regular _ (fun hhonest => ?_) args owned, fun _ => rfl⟩
        exact (hs hhonest).overloads ref
  | _ => exact regular_notCallable scope _

theorem regular_evalArgs (scope : Scope) (done : List Value) (nodes : List Node) :
    Regular honest own (evalArgs scope done nodes) := by
  induction nodes generalizing done own with
  | nil => exact .pure _
  | cons n ns ih =>
      refine .child scope fun inner => ?_
      exact .bind (.eval n (Set.mem_insert _ _)) fun v => ih _

theorem regular_callForm (o : Overloads) (untraced : honest → o.Untraced) (children : List Node)
    (owned : scope.frame ∈ own) : Regular honest own (callForm o children scope) := by
  unfold callForm
  split
  case h_1 form hspecial =>
    exact form.regular (fun hhonest => (untraced hhonest).special? hspecial) children owned
  case h_2 =>
    refine .bind (regular_evalArgs scope [] children) fun args => ?_
    exact o.regular untraced args owned

theorem regular_evalForm (v : Value) (children : List Node) (owned : scope.frame ∈ own) :
    Regular honest own (evalNode (.form v children) scope) := by
  refine .pointwise fun s => ?_
  simp only [evalNode, Node.head, State.scopes_withLimit, State.overloads_withLimit,
    State.notCallableError_withLimit]
  split
  case h_1 f _ =>
    refine ⟨_, fun hs => .nested (regular_callForm _ (fun hhonest => ?_) _ owned), fun _ => rfl⟩
    exact (hs hhonest).overloads f
  case h_2 => exact ⟨_, fun _ => .pure _, fun _ => rfl⟩
  case h_3 => exact ⟨_, fun _ => .throw (s.trace?_notCallableError scope _), fun _ => rfl⟩

/-- **A job owns its scope.**  The body of a job binds and removes names only in the frame of its
scope and in frames that it makes. -/
theorem Job.regular (job : Job) : Regular honest {job.scope.frame} job.body := by
  cases job with
  | eval node scope =>
      cases node with
      | atom v =>
          exact .look (fun s => .ok (s.scopes.resolve scope v)) (fun _ _ => rfl)
            (fun s e he => by cases he) fun _ => rfl
      | form v children => exact regular_evalForm v children (Set.mem_singleton _)
  | apply f args scope => exact regular_applyValue f args (Set.mem_singleton _)
  | loop condition body scope last =>
      exact Form.regular_loopRound condition body (Set.mem_singleton _) last
  | sift predicate stream scope =>
      exact Prelude.regular_siftStep (Set.mem_singleton _) predicate stream
  | walk f streams scope => exact Prelude.regular_walkStep (Set.mem_singleton _) f streams

end

end DispatchLisp
