import DispatchLisp.Proofs.Bindings
import DispatchLisp.Proofs.Expansion
import DispatchLisp.Proofs.Selection

/-! # Parameter lists

A function is written with a list of parameters: names, and perhaps a dot with one more name, which
collects all further arguments.  Several places have an idea of how many arguments such a function
takes, and they agree.

* The list is read as any other list, so its first name is the head of a form.  Whatever their
  number, the names are found again (`Form.lambdaParams_ofNames`, `Form.signature_ofNames`), and
  they are divided at the dot (`Form.splitParams_written`).
* Selection lets a call pass if and only if the number of arguments fits
  (`Overloads.selected_ofClosure`, `Overloads.selected_ofClosure_eq_error`).
* If it fits, then a call binds the parameters in a fresh frame and evaluates the body there
  (`Closure.call_of_fits`).  What it finds there is what the parameter list says
  (`Closure.entered_enter`). -/

namespace DispatchLisp

/-! ### The names that are written -/

/-- A list of names, as it is read. -/
def Node.ofNames (names : List String) : Node := ofItems (names.map fun name => atom (.ident name))

namespace Form

variable {params : List String} {rest : Option String}

/-- The names in a parameter list, with the dot. -/
def written (params : List String) (rest : Option String) : List String :=
  params ++
    match rest with
    | some name => [".", name]
    | none => []

theorem splitParams_written (h : "." ∉ params) :
    splitParams (written params rest) = (params, rest) := by
  induction params with
  | nil => cases rest <;> rfl
  | cons p params ih =>
      obtain ⟨hp, hparams⟩ := not_or.mp (mt List.mem_cons.mpr h)
      have hnames : written (p :: params) rest = p :: written params rest := rfl
      rw [hnames, splitParams, if_neg (Ne.symm hp), ih hparams]

theorem signature_ofNames (h : Heap) (form name : String) (names : List String) :
    signature h form (.ofNames (name :: names)) = .ok (name, names) :=
  signature_macroTarget h form name names

theorem lambdaParams_ofNames (h : Heap) (names : List String) :
    lambdaParams h (.ofNames names) = .ok names := by
  cases names with
  | nil => rfl
  | cons name names =>
      have hsignature := signature_ofNames h "lambda" name names
      change (signature h "lambda" (.ofNames (name :: names)) >>= fun names =>
        pure (names.1 :: names.2)) = _
      rw [hsignature]
      rfl

end Form

/-! ### The number of arguments -/

namespace Closure

variable {c : Closure} {name : String} {args : List Value}

/-- The number of arguments fits the parameters. -/
def Fits (c : Closure) (n : Nat) : Prop :=
  match c.rest with
  | none => n = c.params.length
  | some _ => c.params.length ≤ n

theorem Fits.length_le {n : Nat} (h : c.Fits n) : c.params.length ≤ n := by
  unfold Fits at h
  split at h
  · omega
  · exact h

theorem accepts_ofClosure {n : Nat} : (Entry.ofClosure name c).accepts n = true ↔ c.Fits n := by
  obtain ⟨params, rest, body, scope⟩ := c
  cases rest with
  | none =>
      simp only [Entry.accepts, Entry.ofClosure, Fits, Option.map_none, Option.isSome_none,
        Bool.false_eq_true, if_false, List.length_map, beq_iff_eq]
      exact eq_comm
  | some r => simp [Entry.accepts, Entry.ofClosure, Fits]

theorem score_ofClosure (h : c.Fits args.length) :
    (Entry.ofClosure name c).score args = some args.length := by
  refine Entry.scoreArgs_any (by simp [Entry.ofClosure]) ?_
  obtain ⟨params, rest, body, scope⟩ := c
  cases rest with
  | none => exact .inr (by simp [Entry.ofClosure, show args.length = params.length from h])
  | some r => exact .inl rfl

theorem arity_ofClosure : (Entry.ofClosure name c).arity = c.arity := by
  simp [Entry.arity, Entry.ofClosure, Closure.arity]

end Closure

namespace Overloads

variable {c : Closure} {args : List Value}

/-- **A call passes selection if the number of arguments fits.** -/
theorem selected_ofClosure (name : String) (h : c.Fits args.length) :
    (single (.ofClosure name c)).selected args = .ok (.ofClosure name c) := by
  rw [selected_single, if_pos (Closure.accepts_ofClosure.mpr h), Closure.score_ofClosure h]

/-- **Otherwise it fails because of the number of arguments.** -/
theorem selected_ofClosure_eq_error (name : String) (h : ¬ c.Fits args.length) :
    (single (.ofClosure name c)).selected args = .error (.arity name c.arity args.length) := by
  rw [selected_single, if_neg (mt Closure.accepts_ofClosure.mp h), Closure.arity_ofClosure]
  rfl

end Overloads

/-! ### The fresh frame -/

/-- A name that is not bound yet is bound at the end. -/
theorem Frame.put_of_not_binds {f : Frame} {name : String} (h : name ∉ f.map Prod.fst) (v : Value) :
    f.put name v = f ++ [(name, v)] := by
  induction f with
  | nil => rfl
  | cons b f ih =>
      obtain ⟨hb, hf⟩ := not_or.mp (mt List.mem_cons.mpr h)
      rw [Frame.put, if_neg (Ne.symm hb), ih hf]
      rfl

theorem Frame.Distinct.get?_of_mem {f : Frame} (h : f.Distinct) {name : String} {v : Value}
    (hmem : (name, v) ∈ f) : f.get? name = some v := by
  induction f with
  | nil => cases hmem
  | cons b f ih =>
      obtain ⟨hb, hf⟩ := List.nodup_cons.mp h
      rcases List.mem_cons.mp hmem with rfl | hmem
      · rw [Frame.get?, if_pos rfl]
      · have hne : b.1 ≠ name := by
          rintro rfl
          exact hb (List.mem_map.mpr ⟨_, hmem, rfl⟩)
        rw [Frame.get?, if_neg hne, ih hf hmem]

/-- The state with a frame after all others. -/
def State.withFrame (s : State) (f : Frame) : State :=
  { s with scopes := ⟨s.scopes.frames.push f⟩ }

theorem State.frame_withFrame (s : State) (f : Frame) :
    (s.withFrame f).scopes.frame s.scopes.frames.size = f := by
  simp [State.withFrame, Scopes.frame]

theorem State.lookup_withFrame (s : State) {f : Frame} (h : f.Distinct) (outer : List Nat)
    {name : String} {v : Value} (hmem : (name, v) ∈ f) :
    (s.withFrame f).scopes.lookup ⟨s.scopes.frames.size, outer⟩ name = some v := by
  have hget : ((s.withFrame f).scopes.frame s.scopes.frames.size).get? name = some v := by
    rw [s.frame_withFrame, h.get?_of_mem hmem]
  change (s.withFrame f).scopes.lookupIn name (s.scopes.frames.size :: outer) = some v
  rw [Scopes.lookupIn, hget]

theorem State.define_withFrame (s : State) (f : Frame) (outer : List Nat) {name : String}
    (h : name ∉ f.map Prod.fst) (v : Value) :
    (s.withFrame f).define ⟨s.scopes.frames.size, outer⟩ name v =
      s.withFrame (f ++ [(name, v)]) := by
  have hframes : (s.scopes.frames.push f).modify s.scopes.frames.size (Frame.put name v) =
      s.scopes.frames.push (f ++ [(name, v)]) := by
    refine Array.ext (by simp) fun i hi _ => ?_
    have hi : i ≤ s.scopes.frames.size := by simpa [Nat.lt_succ_iff] using hi
    rw [Array.getElem_modify, Array.getElem_push, Array.getElem_push]
    rcases Nat.lt_or_eq_of_le hi with hi | rfl
    · rw [if_neg (Nat.ne_of_gt hi), dif_pos hi, dif_pos hi]
    · rw [if_pos rfl, dif_neg (Nat.lt_irrefl _), dif_neg (Nat.lt_irrefl _),
        Frame.put_of_not_binds h]
  simp only [State.define, State.onScopes, State.withFrame, Scopes.define, Scopes.modifyFrame,
    hframes]

/-- **Parameters are bound to arguments in order.** -/
theorem bindParams_withFrame (s : State) (outer : List Nat) {params : List String}
    {args : List Value} {f : Frame} (hdistinct : (f.map Prod.fst ++ params).Nodup)
    (hlength : params.length ≤ args.length) :
    bindParams ⟨s.scopes.frames.size, outer⟩ params args (s.withFrame f) =
      .done (.ok (args.drop params.length)) (s.withFrame (f ++ params.zip args)) := by
  induction params generalizing args f with
  | nil =>
      rw [List.zip_nil_left, List.append_nil]
      rfl
  | cons p params ih =>
      cases args with
      | nil => simp at hlength
      | cons v args =>
          have hp : p ∉ f.map Prod.fst := by
            intro hmem
            exact (List.nodup_append.mp hdistinct).2.2 p hmem p List.mem_cons_self rfl
          have hdefine : Eval.define ⟨s.scopes.frames.size, outer⟩ p v (s.withFrame f) =
              .done (.ok ()) (s.withFrame (f ++ [(p, v)])) :=
            congrArg (Program.done (.ok ())) (s.define_withFrame f outer hp v)
          have hrest : ((f ++ [(p, v)]).map Prod.fst ++ params).Nodup := by simpa using hdistinct
          rw [bindParams, Eval.bind_ok hdefine, ih hrest (Nat.le_of_succ_le_succ hlength)]
          simp

namespace Closure

variable {c : Closure} {name : String} {args : List Value}

/-- What a call binds, if the list of the arguments for the name after the dot has this address. -/
def bindings (c : Closure) (args : List Value) (address : Nat) : Frame :=
  c.params.zip args ++ c.rest.toList.map fun r => (r, .list address)

/-- The heap in which the body of a closure begins. -/
def collect (c : Closure) (args : List Value) (h : Heap) : Heap :=
  match c.rest with
  | none => h
  | some _ => (h.newList (args.drop c.params.length)).2

/-- The state in which the body of a closure begins. -/
def enter (c : Closure) (args : List Value) (s : State) : State :=
  { s with heap := c.collect args s.heap }.withFrame (c.bindings args s.heap.lists.size)

/-- **A call with arguments that fit binds the parameters and evaluates the body.** -/
theorem call_of_fits (hdistinct : (c.params ++ c.rest.toList).Nodup) (hfits : c.Fits args.length)
    (name : String) (s : State) :
    c.call name args s =
      Eval.evalBody c.body ⟨s.scopes.frames.size, c.scope.chain⟩ (c.enter args s) := by
  obtain ⟨params, rest, body, scope⟩ := c
  have hlength : params.length ≤ args.length := hfits.length_le
  have hpass : ¬ (args.length < params.length || (rest.isNone && params.length < args.length)) =
      true := by
    cases rest with
    | none =>
        have hequal : args.length = params.length := hfits
        simp [hequal]
    | some r => simpa using hlength
  have hchild : Eval.newChild scope s =
      .done (.ok ⟨s.scopes.frames.size, scope.chain⟩) (s.withFrame []) := rfl
  have hparams : bindParams ⟨s.scopes.frames.size, scope.chain⟩ params args (s.withFrame []) =
      .done (.ok (args.drop params.length)) (s.withFrame (params.zip args)) :=
    bindParams_withFrame s scope.chain (by simpa using hdistinct.of_append_left) hlength
  rw [call, if_neg hpass, Eval.bind_ok hchild, Eval.bind_ok hparams]
  cases rest with
  | none =>
      have hbindings : bindings ⟨params, none, body, scope⟩ args s.heap.lists.size =
          params.zip args := List.append_nil _
      rw [enter, hbindings]
      rfl
  | some r =>
      have hlist : Eval.newList (args.drop params.length) (s.withFrame (params.zip args)) =
          .done (.ok (.list s.heap.lists.size))
            ({ s with heap := (s.heap.newList (args.drop params.length)).2 }.withFrame
              (params.zip args)) := rfl
      have hr : r ∉ (params.zip args).map Prod.fst := by
        rw [List.map_fst_zip hlength]
        intro hmem
        exact (List.nodup_append.mp hdistinct).2.2 r hmem r List.mem_cons_self rfl
      have hdefine : Eval.define ⟨s.scopes.frames.size, scope.chain⟩ r (.list s.heap.lists.size)
          ({ s with heap := (s.heap.newList (args.drop params.length)).2 }.withFrame
            (params.zip args)) = .done (.ok ()) _ :=
        congrArg (Program.done (.ok ())) (State.define_withFrame _ _ scope.chain hr _)
      exact (Eval.bind_ok hlist).trans (Eval.bind_ok hdefine)

theorem collect_lists (c : Closure) (args : List Value) (h : Heap) :
    c.collect args h = { h with lists := (c.collect args h).lists } ∧
      h.lists.toList <+: (c.collect args h).lists.toList := by
  unfold collect
  split
  · exact ⟨rfl, List.prefix_rfl⟩
  · refine ⟨rfl, ?_⟩
    rw [Heap.newList, Array.toList_push]
    exact List.prefix_append _ _

theorem names_bindings (h : c.params.length ≤ args.length) (address : Nat) :
    (c.bindings args address).map Prod.fst = c.params ++ c.rest.toList := by
  rw [bindings, List.map_append, List.map_fst_zip h, List.map_map]
  exact congrArg _ (List.map_id _)

end Closure

/-- What a call of a closure finds when its body begins: `s'` is the state `s` with one more frame,
which belongs to a fresh scope inside the one that the closure has captured. -/
structure Closure.Entered (c : Closure) (args : List Value) (s s' : State) : Prop where
  /-- The names of the new frame are those of the parameters. -/
  names : (s'.scopes.frame s.scopes.frames.size).map Prod.fst = c.params ++ c.rest.toList
  /-- Each parameter is bound to its argument. -/
  param : ∀ (i : Nat) p, c.params[i]? = some p → ∃ v, args[i]? = some v ∧
    s'.scopes.lookup ⟨s.scopes.frames.size, c.scope.chain⟩ p = some v
  /-- The name after the dot is bound to a new list of the other arguments. -/
  rest : ∀ r, c.rest = some r → ∃ address, s.heap.lists.size ≤ address ∧
    s'.scopes.lookup ⟨s.scopes.frames.size, c.scope.chain⟩ r = some (.list address) ∧
    s'.heap.items address = args.drop c.params.length
  /-- There is one new frame, and the others are as they were. -/
  frames : s'.scopes.frames.size = s.scopes.frames.size + 1 ∧
    ∀ i < s.scopes.frames.size, s'.scopes.frame i = s.scopes.frame i
  /-- Nothing else has changed but the heap, and that has no more than the new list. -/
  others : s' = { s with scopes := s'.scopes, heap := s'.heap } ∧
    s'.heap = { s.heap with lists := s'.heap.lists } ∧ s.heap.lists.toList <+: s'.heap.lists.toList

/-- **The body finds what the parameter list says.** -/
theorem Closure.entered_enter {c : Closure} {args : List Value}
    (hdistinct : (c.params ++ c.rest.toList).Nodup) (hfits : c.Fits args.length) (s : State) :
    c.Entered args s (c.enter args s) := by
  have hnames := names_bindings hfits.length_le s.heap.lists.size
  have hframe : (c.bindings args s.heap.lists.size).Distinct := by
    rw [Frame.Distinct, hnames]
    exact hdistinct
  let s₀ : State := { s with heap := c.collect args s.heap }
  constructor
  case names =>
    rw [← hnames]
    exact congrArg _ (State.frame_withFrame s₀ _)
  case param =>
    intro i p hp
    have hi : i < c.params.length := (List.getElem?_eq_some_iff.mp hp).1
    obtain ⟨v, hv⟩ : ∃ v, args[i]? = some v :=
      ⟨_, List.getElem?_eq_getElem (hi.trans_le hfits.length_le)⟩
    refine ⟨v, hv, State.lookup_withFrame s₀ hframe _ ?_⟩
    have hzip : (c.params.zip args)[i]? = some (p, v) := List.getElem?_zip_eq_some.mpr ⟨hp, hv⟩
    exact List.mem_append_left _ (List.mem_of_getElem? hzip)
  case rest =>
    intro r hr
    refine ⟨s.heap.lists.size, le_refl _, State.lookup_withFrame s₀ hframe _ ?_, ?_⟩
    · refine List.mem_append_right _ ?_
      rw [hr]
      exact List.mem_singleton_self _
    · have hheap : (c.enter args s).heap = (s.heap.newList (args.drop c.params.length)).2 := by
        rw [enter, State.withFrame, collect, hr]
      rw [hheap, Heap.items_newList]
  case frames =>
    refine ⟨Array.size_push _, fun i hi => ?_⟩
    simp [enter, State.withFrame, Scopes.frame, Array.getElem?_push, Nat.ne_of_lt hi]
  case others =>
    exact ⟨rfl, c.collect_lists args s.heap⟩

/-! ### Functions that are written with a parameter list -/

/-- Calls of the function `g` are calls of the closure, for all numbers of arguments. -/
structure State.Calls (s : State) (g : FunctionRef) (name : String) (c : Closure) : Prop where
  /-- A form whose head stands for the function evaluates its arguments and calls it. -/
  form : ∀ children caller, callForm (s.overloads g) children caller = (do
    let args ← evalArgs caller [] children
    (s.overloads g).call args caller)
  /-- So does a call by value, with the values that it is given. -/
  value : ∀ args caller, applyValue (.function g) args caller s = (s.overloads g).call args caller s
  /-- Selection lets the call pass if and only if the number of arguments fits. -/
  passes : ∀ args, (∃ i, (s.overloads g).select args = .ok i) ↔ c.Fits args.length
  /-- Otherwise the call fails at once, with the number of parameters and that of arguments. -/
  fails : ∀ args caller, ¬ c.Fits args.length → (s.overloads g).call args caller =
    Eval.fail (.arity name
      (match c.rest with
      | none => toString c.params.length
      | some _ => toString c.params.length ++ "+") args.length)
  /-- A call that passes does not fail because of its arguments any more: the body is evaluated in a
  fresh scope with the parameters. -/
  runs : ∀ args caller, c.Fits args.length →
    (s.overloads g).call args caller = Eval.framed name (c.call name args) ∧
    ∀ t, ∃ t', c.Entered args t t' ∧
      c.call name args t = Eval.evalBody c.body ⟨t.scopes.frames.size, c.scope.chain⟩ t'

variable {params : List String} {rest : Option String} {body : List Node} {e : Scope} {s : State}

theorem Closure.arity_eq (c : Closure) : c.arity =
    match c.rest with
    | none => toString c.params.length
    | some _ => toString c.params.length ++ "+" := by
  unfold Closure.arity
  cases c.rest with
  | none => exact String.append_empty
  | some r => rfl

theorem State.calls_of_overloads {u : State} {g : FunctionRef} {name : String} {c : Closure}
    (hdistinct : (c.params ++ c.rest.toList).Nodup)
    (h : u.overloads g = .single (.ofClosure name c)) : u.Calls g name c := by
  have hspecial : (u.overloads g).special? = none := by rw [h]; rfl
  constructor
  case form =>
    intro children caller
    rw [callForm, hspecial]
  case value =>
    intro args caller
    simp only [applyValue, hspecial]
  case passes =>
    intro args
    rw [h]
    by_cases hfits : c.Fits args.length
    · obtain ⟨i, hi, -⟩ := (Overloads.selected_eq_ok_iff _ args).mp
        (Overloads.selected_ofClosure name hfits)
      exact iff_of_true ⟨i, hi⟩ hfits
    · refine iff_of_false ?_ hfits
      rintro ⟨i, hi⟩
      have herror := Overloads.selected_ofClosure_eq_error name hfits
      rw [Overloads.selected, hi] at herror
      cases herror
  case fails =>
    intro args caller hfits
    rw [h, Overloads.call, Overloads.selected_ofClosure_eq_error name hfits, c.arity_eq]
  case runs =>
    intro args caller hfits
    rw [h, Overloads.call, Overloads.selected_ofClosure name hfits]
    exact ⟨rfl, fun t => ⟨_, Closure.entered_enter hdistinct hfits t,
      Closure.call_of_fits hdistinct hfits name t⟩⟩

/-- The state after a closure was made. -/
def State.withClosure (s : State) (name : String) (c : Closure) : State :=
  { s.withFrame [] with functions := s.functions.push (.single (.ofClosure name c)) }

theorem State.overloads_withClosure {name : String} {c : Closure} {t u : State}
    (ht : t.functions = (s.withClosure name c).functions)
    (h : t.functions.toList <+: u.functions.toList) :
    u.overloads ⟨s.functions.size, name⟩ = .single (.ofClosure name c) := by
  have hsize : s.functions.size < t.functions.size := by simp [ht, State.withClosure]
  rw [State.overloads_of_prefix h hsize, State.overloads, ht]
  simp [State.withClosure]

namespace Form

theorem lambda_ofNames (rest : Option String) (hdot : "." ∉ params) (hbody : body ≠ []) (e : Scope)
    (s : State) :
    lambda (.ofNames (written params rest) :: body) e s =
      .done (.ok (.function ⟨s.functions.size, "lambda"⟩))
        (s.withClosure "lambda" ⟨params, rest, body, ⟨s.scopes.frames.size, e.chain⟩⟩) := by
  have hnames : Eval.decode (lambdaParams · (.ofNames (written params rest))) s =
      .done (.ok (written params rest)) s := by
    rw [Eval.decode, lambdaParams_ofNames]
  cases body with
  | nil => exact absurd rfl hbody
  | cons first more =>
      refine (Eval.bind_ok hnames).trans ?_
      simp only [splitParams_written hdot]
      rfl

theorem define_ofNames (rest : Option String) (hdot : "." ∉ params) (hbody : body ≠ [])
    (name : String) (e : Scope) (s : State) :
    define (.ofNames (name :: written params rest) :: body) e s =
      .done (.ok .nil)
        ((s.withClosure name ⟨params, rest, body, ⟨s.scopes.frames.size, e.chain⟩⟩).define e name
          (.function ⟨s.functions.size, name⟩)) := by
  have hnames : Eval.decode (signature · "def" (.ofNames (name :: written params rest))) s =
      .done (.ok (name, written params rest)) s := by
    rw [Eval.decode, signature_ofNames]
  cases body with
  | nil => exact absurd rfl hbody
  | cons first more =>
      have hform : (Node.ofNames (name :: written params rest)).isAtom = false := rfl
      simp only [define, hform, Bool.false_eq_true, if_false]
      refine (Eval.bind_ok hnames).trans ?_
      simp only [splitParams_written hdot]
      rfl

end Form

/-- **Parameter lists mean what they say.**  Let the names of the parameters be different, none of
them the dot, and let there be a body.  Wherever `lambda` stands for the special form, evaluating
the form with this parameter list and body makes a function.  In every later state (functions are
never lost) a call of this function with any arguments

* passes selection if and only if the number of arguments is that of the parameters, or at least
  that if there is a name after the dot;
* fails otherwise, with an error that says both numbers;
* evaluates the body, if it passes, in a fresh scope inside the one where the function was made.
  The names of this scope are those of the parameters, each bound to its argument, and the name
  after the dot, bound to the list of the other arguments.

The same holds of the function that `def` binds. -/
theorem parameter_lists_are_obeyed (params : List String) (rest : Option String)
    (body : List Node) (hdistinct : (params ++ rest.toList).Nodup) (hdot : "." ∉ params)
    (hbody : body ≠ []) (s : State) (e : Scope) (hdepth : s.depth < s.limit) :
    let c : Closure := ⟨params, rest, body, ⟨s.scopes.frames.size, e.chain⟩⟩
    (s.Performs e "lambda" .lambda → ∃ t g,
      evalNode (.ofItems (.atom (.ident "lambda") :: .ofNames (Form.written params rest) :: body)) e
        s = .done (.ok (.function g)) t ∧
      ∀ u : State, t.functions.toList <+: u.functions.toList → u.Calls g "lambda" c) ∧
    ∀ name, e.frame < s.scopes.frames.size → s.Performs e "def" .define → ∃ t g,
      evalNode (.ofItems
        (.atom (.ident "def") :: .ofNames (name :: Form.written params rest) :: body)) e s =
          .done (.ok .nil) t ∧
      t.scopes.resolve e (.ident name) = .function g ∧
      ∀ u : State, t.functions.toList <+: u.functions.toList → u.Calls g name c := by
  intro c
  have hlimit : ¬ s.limit < s.depth + 1 := by omega
  refine ⟨fun hlambda => ?_, fun name hframe hdef => ?_⟩
  · have hrun := Form.lambda_ofNames rest hdot hbody e { s with depth := s.depth + 1 }
    have heval := (hlambda.evalNode _).trans (Eval.nested_of_done hlimit hrun)
    refine ⟨_, _, heval, fun u hlater => ?_⟩
    exact State.calls_of_overloads hdistinct (State.overloads_withClosure rfl hlater)
  · have hrun := Form.define_ofNames rest hdot hbody name e { s with depth := s.depth + 1 }
    have heval := (hdef.evalNode _).trans (Eval.nested_of_done hlimit hrun)
    refine ⟨_, ⟨s.functions.size, name⟩, heval, ?_, fun u hlater => ?_⟩
    · have hsize : e.frame < (s.scopes.frames.push []).size := by
        rw [Array.size_push]
        omega
      have hlookup : (Scopes.define ⟨s.scopes.frames.push []⟩ e name
          (.function ⟨s.functions.size, name⟩)).lookup e name = some _ :=
        Scopes.lookup_define hsize name _
      change Scopes.resolve (Scopes.define ⟨s.scopes.frames.push []⟩ e name _) e _ = _
      simp only [Scopes.resolve, hlookup]
    · exact State.calls_of_overloads hdistinct (State.overloads_withClosure rfl hlater)

/-- The function `(lambda (x . more) x)`, called without an argument and with three, and the same
function under a name. -/
theorem parameter_lists_are_obeyed_more :
    let s : State := {
      scopes := ⟨#[[("lambda", .function ⟨0, "lambda"⟩), ("def", .function ⟨1, "def"⟩)]]⟩
      functions := #[.single (.ofSpecial "lambda" .lambda), .single (.ofSpecial "def" .define)] }
    let body : List Node := [.atom (.ident "x")]
    let args : List Value := [.int 1, .int 2, .int 3]
    (∃ t g, evalNode (.form (.ident "lambda") (.ofNames ["x", ".", "more"] :: body)) ⟨0, []⟩ s =
        .done (.ok (.function g)) t ∧
      applyValue (.function g) [] ⟨0, []⟩ t =
        .done (.error (.base (.arity "lambda" "1+" 0))) t ∧
      (∃ i, (t.overloads g).select args = .ok i) ∧
      ∃ t' address, Closure.call "lambda" ⟨["x"], some "more", body, ⟨1, [0]⟩⟩ args t =
          Eval.evalBody body ⟨t.scopes.frames.size, [1, 0]⟩ t' ∧
        (t'.scopes.frame t.scopes.frames.size).map Prod.fst = ["x", "more"] ∧
        t'.scopes.lookup ⟨t.scopes.frames.size, [1, 0]⟩ "x" = some (.int 1) ∧
        t'.scopes.lookup ⟨t.scopes.frames.size, [1, 0]⟩ "more" = some (.list address) ∧
        t'.heap.items address = [.int 2, .int 3]) ∧
    ∃ t g, evalNode (.form (.ident "def") (.ofNames ["f", "x", ".", "more"] :: body)) ⟨0, []⟩ s =
        .done (.ok .nil) t ∧
      t.scopes.resolve ⟨0, []⟩ (.ident "f") = .function g ∧
      applyValue (.function g) [] ⟨0, []⟩ t = .done (.error (.base (.arity "f" "1+" 0))) t := by
  intro s body args
  obtain ⟨hlambda, hdef⟩ := parameter_lists_are_obeyed ["x"] (some "more") body (by decide)
    (by decide) (by simp [body]) s ⟨0, []⟩ (by decide)
  have hwords : toString ["x"].length ++ "+" = "1+" := by decide
  constructor
  · obtain ⟨t, g, heval, hcalls⟩ := hlambda ⟨⟨0, "lambda"⟩, rfl, rfl⟩
    have hcalls := hcalls t List.prefix_rfl
    have hfew : applyValue (.function g) [] ⟨0, []⟩ t =
        .done (.error (.base (.arity "lambda" "1+" 0))) t := by
      rw [hcalls.value, hcalls.fails [] ⟨0, []⟩ (Nat.not_succ_le_zero 0), ← hwords]
      rfl
    have hfits : Closure.Fits ⟨["x"], some "more", body, ⟨1, [0]⟩⟩ 3 := Nat.le_add_left 1 2
    obtain ⟨-, hbodies⟩ := hcalls.runs args ⟨0, []⟩ hfits
    obtain ⟨t', hentered, hcall⟩ := hbodies t
    obtain ⟨v, hv, hx⟩ := hentered.param 0 "x" rfl
    obtain ⟨address, -, hmore, hitems⟩ := hentered.rest "more" rfl
    cases hv
    exact ⟨t, g, heval, hfew, (hcalls.passes args).mpr hfits, t', address, hcall, hentered.names,
      hx, hmore, hitems⟩
  · obtain ⟨t, g, heval, hresolve, hcalls⟩ := hdef "f" (by decide) ⟨⟨1, "def"⟩, rfl, rfl⟩
    have hcalls := hcalls t List.prefix_rfl
    refine ⟨t, g, heval, hresolve, ?_⟩
    rw [hcalls.value, hcalls.fails [] ⟨0, []⟩ (Nat.not_succ_le_zero 0), ← hwords]
    rfl

end DispatchLisp
