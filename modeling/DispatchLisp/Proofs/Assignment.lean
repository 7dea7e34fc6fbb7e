import DispatchLisp.Proofs.LocalNames
import DispatchLisp.Proofs.Sequel

/-! # Assignments and local bindings

`set` and the bindings of `let` compute a value in a fresh scope and then bind it to a name that was
known before.  What is evaluated in between may be anything, and it may change any binding that it
sees.  But it works in a fresh scope, so it cannot add or remove names elsewhere
(`Form.evolves_evalFresh`), and the binding is made where it was meant to be made:

* for `set`, in the frame that owned the name when the form began, so that the assignment cannot
  fail once the name has been found (`Form.set_assigns_owner`);
* for `let`, in the new scope, under the name that is written (`Form.let_binds_written_name`).  The
  reader uses the head `apply` for a list that begins with a list, and this is how function bindings
  are told from others.  So there is one name to which `let` cannot bind a value
  (`Form.let_cannot_bind_apply`). -/

namespace DispatchLisp

/-- The stores differ only in that the frame `i` of the second one binds the name to the value. -/
def Scopes.OnlyBinds (s s' : Scopes) (i : Nat) (name : String) (v : Value) : Prop :=
  ∀ j x, (s'.frame j).get? x = if i = j ∧ name = x then some v else (s.frame j).get? x

theorem cause_nameError (c : Cause) (name : String) (visible : List String) :
    (nameError c name visible).cause = c := by
  unfold nameError
  split
  · rfl
  · split <;> rfl

namespace Form

open Machine

variable {threads : Set Nat} {s t : State} {waiting left : List Fiber} {turn turn' : Nat}
  {r : Result} {e : Scope} {x : String} {o : Nat}

/-- **Evaluating in a fresh scope keeps the names of all scopes**, but for those that other threads
own. -/
theorem evolves_evalFresh {body : List Node} (hthreads : ThreadsOwn threads s waiting)
    (hends : EndsWith ⟨none, evalFresh body e s, [], waiting, turn⟩ (r, t, left, turn')) :
    s.Evolves threads t := by
  obtain ⟨fuel, hfinish⟩ := hends
  have hregular : Eval.Regular False ∅ (evalFresh body e) := regular_evalFresh body e
  have hevolves := (hregular.run hthreads (run_of_finish hfinish)).1
  rwa [Set.empty_union] at hevolves

/-! ### Assignments -/

theorem requireBound_of_owner? (h : s.scopes.owner? e x = some o) :
    requireBound e x s = .done (.ok ()) s := by
  have hvisible : ∃ v, s.scopes.lookup e x = some v :=
    Scopes.exists_lookupIn_iff.mpr (Scopes.exists_ownerIn?_iff.mp ⟨o, h⟩)
  obtain ⟨v, hv⟩ := hvisible
  simp only [requireBound, State.get, hv]
  rfl

theorem requireBound_of_hidden (h : s.scopes.owner? e x = none) :
    requireBound e x s = .done (.error (s.unboundError e x)) s := by
  have hhidden : s.scopes.lookup e x = none := by
    refine Option.eq_none_iff_forall_ne_some.mpr fun v hv => ?_
    obtain ⟨i, hi⟩ := Scopes.exists_ownerIn?_iff.mpr (Scopes.exists_lookupIn_iff.mp ⟨v, hv⟩)
    rw [Scopes.owner?, hi] at h
    cases h
  simp only [requireBound, State.get, hhidden]
  rfl

/-- An assignment: the name must be visible, the body is evaluated, and the value is assigned. -/
theorem set_ident (x : String) (first : Node) (more : List Node) (e : Scope) (s : State) :
    set (.atom (.ident x) :: first :: more) e s =
      (requireBound e x >>= fun _ => evalFresh (first :: more) e >>= fun v =>
        assign e x v >>= fun _ => pure .nil) s := by
  unfold set
  exact Eval.bind_ok rfl

/-- The names that decide where a binding belongs stay, so the owner stays. -/
theorem owner?_of_evolves (hevolves : s.Evolves threads t)
    (hscope : ∀ i ∈ e.chain, i < s.scopes.frames.size ∧ i ∉ threads) (x : String) :
    t.scopes.owner? e x = s.scopes.owner? e x := by
  refine Scopes.ownerIn?_congr fun i hi => ?_
  obtain ⟨hexists, hfree⟩ := hscope i hi
  exact hevolves.names i hexists hfree x

/-- **Once `set` has begun it cannot fail to assign.**  Let `threads` be the frames that other
threads own; it is empty if there are none.  The body is evaluated in a fresh scope inside `e`, and
whatever it does,

* if the name was visible, then the form ends if and only if the body does.  If the body ends with a
  value, then the form ends with `nil`, and the only binding that differs from what the body has
  left is the one in the frame that owned the name before the form began.  If the body ends with an
  error, then so does the form, and nothing is assigned;
* if the name was not visible, then the form fails with this and does nothing.

Evaluating a form whose head stands for `set` is this, one level deeper. -/
theorem set_assigns_owner (hthreads : ThreadsOwn threads s waiting)
    (hscope : ∀ i ∈ e.chain, i < s.scopes.frames.size ∧ i ∉ threads) (x : String) (first : Node)
    (more : List Node) (turn : Nat) :
    (∀ o, s.scopes.owner? e x = some o →
      (∀ out, EndsWith ⟨none, set (.atom (.ident x) :: first :: more) e s, [], waiting, turn⟩ out ↔
        ∃ r t left turn',
          EndsWith ⟨none, evalFresh (first :: more) e s, [], waiting, turn⟩ (r, t, left, turn') ∧
          match r with
          | .ok v => out = (.ok .nil, { t with scopes := t.scopes.rebind o x v }, left, turn')
          | .error err => out = (.error err, t, left, turn')) ∧
      ∀ r t left turn',
        EndsWith ⟨none, evalFresh (first :: more) e s, [], waiting, turn⟩ (r, t, left, turn') →
        t.scopes.owner? e x = some o ∧ ∀ v, t.scopes.OnlyBinds (t.scopes.rebind o x v) o x v) ∧
    (s.scopes.owner? e x = none →
      set (.atom (.ident x) :: first :: more) e s = .done (.error (s.unboundError e x)) s ∧
      (s.unboundError e x).cause = .unbound x) ∧
    ∀ v f, s.scopes.resolve e v = .function f → (s.overloads f).special? = some .assign →
      evalNode (.form v (.atom (.ident x) :: first :: more)) e s =
        Eval.nested (set (.atom (.ident x) :: first :: more) e) s := by
  -- The body can do anything but move the owner of the name.
  have howner : ∀ r t left turn',
      EndsWith ⟨none, evalFresh (first :: more) e s, [], waiting, turn⟩ (r, t, left, turn') →
      t.scopes.owner? e x = s.scopes.owner? e x :=
    fun r t left turn' hends => owner?_of_evolves (evolves_evalFresh hthreads hends) hscope x
  refine ⟨fun o ho => ⟨fun out => ?_, fun r t left turn' hends => ?_⟩, fun hhidden => ?_, ?_⟩
  · rw [set_ident, Eval.bind_ok (requireBound_of_owner? ho),
      endsWith_bind fun g hg => (hthreads.waiting g hg).1]
    refine exists_congr fun r => exists_congr fun t => exists_congr fun left =>
      exists_congr fun turn' => and_congr_right fun hends => ?_
    cases r with
    | ok v =>
        have ht : t.scopes.owner? e x = some o := (howner _ t left turn' hends).trans ho
        simp only [Eval.bind_ok (assign_of_owner? ht v)]
        exact endsWith_of_ended rfl
    | error err => exact Iff.rfl
  · have ht : t.scopes.owner? e x = some o := (howner r t left turn' hends).trans ho
    exact ⟨ht, Scopes.get?_rebind (Scopes.lt_size_of_binds (Scopes.ownerIn?_binds ht))⟩
  · rw [set_ident]
    exact ⟨Eval.bind_error (requireBound_of_hidden hhidden), cause_nameError _ _ _⟩
  · exact fun v f hhead hspecial => evalNode_special hhead hspecial _

/-- The body defines the name in its own scope, and the assignment still finds the outer one. -/
theorem set_assigns_owner_shadowed :
    let s : State := {
      scopes := ⟨#[[("x", .int 1), ("def", .function ⟨0, "def"⟩)], []]⟩
      functions := #[.single (.ofSpecial "def" .define)] }
    let define : Node := .form (.ident "def") [.atom (.ident "x"), .atom (.int 2)]
    ∃ t left turn,
      EndsWith ⟨none, set [.atom (.ident "x"), define, .atom (.ident "x")] ⟨1, [0]⟩ s, [], [], 10⟩
        (.ok .nil, t, left, turn) ∧
      (t.scopes.frame 0).get? "x" = some (.int 2) ∧ (t.scopes.frame 1).get? "x" = none := by
  intro s define
  have hrun : (finish 20 ⟨none, evalFresh [define, .atom (.ident "x")] ⟨1, [0]⟩ s, [], [], 10⟩).map
      (fun out => (out.1, (out.2.1.scopes.frame 1).get? "x")) = some (.ok (.int 2), none) := by
    decide +kernel
  obtain ⟨⟨r, t, left, turn⟩, hrun, hout⟩ := Option.map_eq_some_iff.mp hrun
  obtain ⟨rfl, hinner⟩ : _ ∧ (t.scopes.frame 1).get? "x" = none := Prod.mk.inj hout
  have hset := (set_assigns_owner (s := s) (e := ⟨1, [0]⟩)
    (.empty fun i f scope ⟨t, ht, _⟩ => by simp [s] at ht)
    (fun i hi => ⟨by revert i; decide, Set.notMem_empty _⟩) "x" define [.atom (.ident "x")] 10).1 0
    rfl
  obtain ⟨-, honly⟩ := hset.2 _ t left turn ⟨20, hrun⟩
  refine ⟨_, left, turn, (hset.1 _).mpr ⟨_, t, left, turn, ⟨20, hrun⟩, rfl⟩, ?_, ?_⟩
  · exact honly (.int 2) 0 "x"
  · exact (honly (.int 2) 1 "x").trans hinner

/-! ### Local bindings -/

/-- A binding to a value: the value is computed, and the name is bound. -/
theorem bind_ident (hx : x ≠ "apply") (form : String) (source inner : Scope) (es : List Node)
    (s : State) :
    bind form source inner (Node.ofItems (.atom (.ident x) :: es)) s =
      (evalFresh es source >>= fun v => Eval.define inner x v) s := by
  have happly : isApply (.form (.ident x) es) = false := by
    simpa [isApply, isKeyword] using hx
  unfold bind
  rw [Node.ofItems, happly]
  exact Eval.bind_ok rfl

theorem bindAll_append (form : String) (source inner : Scope) (as bs : List Node) :
    bindAll form source inner (as ++ bs) =
      bindAll form source inner as >>= fun _ => bindAll form source inner bs := by
  induction as with
  | nil => rfl
  | cons a as ih =>
      simp only [List.cons_append, bindAll, ih]
      exact (Eval.bind_assoc _ _ _).symm

/-- A binding between others. -/
theorem bindAll_middle (form : String) (source inner : Scope) (as : List Node) (b : Node)
    (bs : List Node) (k : Eval Value) :
    (bindAll form source inner (as ++ b :: bs) >>= fun _ => k) = (do
      bindAll form source inner as
      bind form source inner b
      bindAll form source inner bs
      k : Eval Value) := by
  rw [bindAll_append, Eval.bind_assoc]
  refine congrArg (bindAll form source inner as >>= ·) (funext fun _ => ?_)
  exact Eval.bind_assoc _ _ _

/-- A list that begins with a form is read as the bindings that are in it. -/
theorem letBindings_ofItems {as : List Node} {b : Node}
    (has : ∀ n, as.head? = some n → n.isAtom = false) (hb : b.isAtom = false) (bs : List Node)
    (h : Heap) (form : String) :
    letBindings h form (Node.ofItems (as ++ b :: bs)) = .ok (as ++ b :: bs) := by
  have hfirst : ∀ (n : Node) (ns : List Node), n.isAtom = false →
      letBindings h form (Node.ofItems (n :: ns)) = .ok (n :: ns) := by
    intro n ns hn
    cases n with
    | atom v => cases hn
    | form v kids => rfl
  cases as with
  | nil => exact hfirst b bs hb
  | cons a as => exact hfirst a _ (has a rfl)

/-- After the bindings before this one, the scope of the form still belongs to no other thread. -/
theorem exists_threadsOwn_bindAll (hthreads : ThreadsOwn threads s waiting) {inner : Scope}
    (hinner : inner = (s.onScopes (·.newChild e)).1) {form : String} {source : Scope}
    {as : List Node} {r : Result}
    (hends : EndsWith ⟨none, (bindAll form source inner as >>= fun _ => pure .nil)
      (s.onScopes (·.newChild e)).2, [], waiting, turn⟩ (r, t, left, turn')) :
    ∃ threads', ThreadsOwn threads' t left ∧ inner.frame < t.scopes.frames.size ∧
      inner.frame ∉ threads' := by
  obtain ⟨fuel, hfinish⟩ := hends
  have hsize : (s.onScopes (·.newChild e)).2.scopes.frames.size = s.scopes.frames.size + 1 := by
    simp [State.onScopes, Scopes.newChild]
  have hframe : inner.frame = s.scopes.frames.size := by
    rw [hinner]
    rfl
  have hregular : Eval.Regular False {inner.frame}
      (bindAll form source inner as >>= fun _ => pure .nil : Eval Value) :=
    .bind (regular_bindAll form source (Set.mem_singleton _) as) fun _ => .pure _
  have hbegin : ThreadsOwn threads (s.onScopes (·.newChild e)).2 waiting :=
    hthreads.of_threads rfl (by omega)
  obtain ⟨hevolves, hleft⟩ := hregular.run hbegin (run_of_finish hfinish)
  have hlater := hevolves.frames
  refine ⟨_, hleft, by omega, ?_⟩
  rintro (hmem | hmem)
  · have hbound := hthreads.bounded _ hmem
    omega
  · have hmade := hmem.1
    omega

/-- What a binding to a value and the rest of the form end with. -/
theorem endsWith_bind_ident (hidle : ∀ g ∈ waiting, g.thread ≠ none) (hx : x ≠ "apply")
    (form : String) (source inner : Scope) (es : List Node) (k : Unit → Eval Value)
    {out : Outcome} :
    EndsWith ⟨none, (bind form source inner (Node.ofItems (.atom (.ident x) :: es)) >>= k) s, [],
        waiting, turn⟩ out ↔
      ∃ r t left turn', EndsWith ⟨none, evalFresh es source s, [], waiting, turn⟩
          (r, t, left, turn') ∧
        match r with
        | .ok v => EndsWith ⟨none, k () (t.define inner x v), [], left, turn'⟩ out
        | .error err => out = (.error err, t, left, turn') := by
  have hbind : (bind form source inner (Node.ofItems (.atom (.ident x) :: es)) >>= k) s =
      (evalFresh es source >>= fun v => Eval.define inner x v >>= k) s := by
    rw [Eval.bind_apply, bind_ident hx, ← Eval.bind_apply, Eval.bind_assoc]
  rw [hbind, endsWith_bind hidle]
  rfl

/-- **A value binding of `let` binds the name that is written**, unless the name is `apply`.  Let
`b` be what the reader makes of a list of the name and of expressions.

* Making this binding is evaluating the expressions in a fresh scope inside `source`.  If they end
  with a value, then the form goes on, and the only binding that differs from what the evaluation
  has left is that of the name in the new scope `inner`.  If they end with an error, then so does
  the form, and nothing is bound.  The evaluation itself neither binds nor removes a name in `inner`
  (in a `let*` it sees the bindings before this one and may assign to them).
* In a `let`, with other bindings before and after this one, of which the first is not an atom,
  `inner` is a new scope inside `e`, and the values are computed inside `e`; in a `let*` they are
  computed inside `inner`.
* Whatever the bindings before this one do, no other thread owns `inner` when it is made. -/
theorem let_binds_written_name (hx : x ≠ "apply") (es : List Node) :
    (∀ (threads : Set Nat) (s : State) (waiting : List Fiber) (turn : Nat) (form : String)
      (source inner : Scope) (k : Unit → Eval Value), ThreadsOwn threads s waiting →
      inner.frame < s.scopes.frames.size → inner.frame ∉ threads →
      (∀ out, EndsWith ⟨none,
          (bind form source inner (Node.ofItems (.atom (.ident x) :: es)) >>= k) s, [],
          waiting, turn⟩ out ↔
        ∃ r t left turn',
          EndsWith ⟨none, evalFresh es source s, [], waiting, turn⟩ (r, t, left, turn') ∧
          match r with
          | .ok v => EndsWith ⟨none, k () (t.define inner x v), [], left, turn'⟩ out
          | .error err => out = (.error err, t, left, turn')) ∧
      ∀ r t left turn',
        EndsWith ⟨none, evalFresh es source s, [], waiting, turn⟩ (r, t, left, turn') →
        SameNames s t inner.frame ∧
        ∀ v, t.scopes.OnlyBinds (t.define inner x v).scopes inner.frame x v) ∧
    (∀ (as bs body : List Node) (e : Scope) (s : State),
      (∀ n, as.head? = some n → n.isAtom = false) →
      let b := Node.ofItems (.atom (.ident x) :: es)
      let inner := (s.onScopes (·.newChild e)).1
      let s' := (s.onScopes (·.newChild e)).2
      letParallel (Node.ofItems (as ++ b :: bs) :: body) e s = (do
        bindAll "let" e inner as
        bind "let" e inner b
        bindAll "let" e inner bs
        evalFresh body inner : Eval Value) s' ∧
      letSequential (Node.ofItems (as ++ b :: bs) :: body) e s = (do
        bindAll "let*" inner inner as
        bind "let*" inner inner b
        bindAll "let*" inner inner bs
        evalFresh body inner : Eval Value) s') ∧
    ∀ (threads : Set Nat) (s t : State) (waiting left : List Fiber) (turn turn' : Nat)
      (form : String) (e source : Scope) (as : List Node) (r : Result),
      ThreadsOwn threads s waiting →
      let inner := (s.onScopes (·.newChild e)).1
      let s' := (s.onScopes (·.newChild e)).2
      EndsWith ⟨none, (bindAll form source inner as >>= fun _ => pure .nil) s', [], waiting, turn⟩
        (r, t, left, turn') →
      ∃ threads', ThreadsOwn threads' t left ∧ inner.frame < t.scopes.frames.size ∧
        inner.frame ∉ threads' := by
  refine ⟨?_, ?_, ?_⟩
  · intro threads s waiting turn form source inner k hthreads hframe hfree
    refine ⟨fun out => ?_, fun r t left turn' hends => ?_⟩
    · exact endsWith_bind_ident (fun g hg => (hthreads.waiting g hg).1) hx form source inner es k
    · have hevolves := evolves_evalFresh hthreads hends
      refine ⟨hevolves.names inner.frame hframe hfree, fun v => ?_⟩
      exact Scopes.get?_rebind (hframe.trans_le hevolves.frames) v
  · intro as bs body e s has b inner s'
    have hbindings : ∀ form, Eval.decode (letBindings · form (Node.ofItems (as ++ b :: bs))) s' =
        .done (.ok (as ++ b :: bs)) s' := by
      intro form
      rw [Eval.decode, letBindings_ofItems has rfl]
    constructor
    · rw [← bindAll_middle]
      exact Eval.bind_ok (hbindings "let")
    · rw [← bindAll_middle]
      exact Eval.bind_ok (hbindings "let*")
  · intro threads s t waiting left turn turn' form e source as r hthreads inner s' hends
    exact exists_threadsOwn_bindAll hthreads rfl hends

/-- The binding of a name to five. -/
theorem let_binds_written_name_five :
    let s : State := { scopes := ⟨#[[], []]⟩ }
    let b : Node := Node.ofItems [.atom (.ident "y"), .atom (.int 5)]
    ∃ t left turn,
      EndsWith ⟨none, (bind "let" ⟨0, []⟩ ⟨1, [0]⟩ b >>= fun _ => pure .nil) s, [], [], 10⟩
        (.ok .nil, t, left, turn) ∧
      (t.scopes.frame 1).get? "y" = some (.int 5) := by
  intro s b
  have hrun : (finish 20 ⟨none, evalFresh [.atom (.int 5)] ⟨0, []⟩ s, [], [], 10⟩).map Prod.fst =
      some (.ok (.int 5)) := by decide +kernel
  obtain ⟨⟨r, t, left, turn⟩, hrun, hr⟩ := Option.map_eq_some_iff.mp hrun
  cases hr
  have hlet := (let_binds_written_name (x := "y") (by decide) [.atom (.int 5)]).1 ∅ s [] 10 "let"
    ⟨0, []⟩ ⟨1, [0]⟩ (fun _ => pure .nil) (.empty fun i f scope ⟨t, ht, _⟩ => by simp [s] at ht)
    (by decide) (Set.notMem_empty _)
  obtain ⟨-, honly⟩ := hlet.2 _ t left turn ⟨20, hrun⟩
  refine ⟨t.define ⟨1, [0]⟩ "y" (.int 5), left, turn, (hlet.1 _).mpr ⟨_, t, left, turn,
    ⟨20, hrun⟩, (endsWith_of_ended rfl).mpr rfl⟩, honly (.int 5) 1 "y"⟩

/-- The name `apply` cannot be bound to a value: a list of `apply` and a form is the same node as a
list that begins with that form, which is a function binding. -/
theorem let_cannot_bind_apply :
    let session := ((World.new 10).newSession true).1
    let w := ((World.new 10).newSession true).2
    (w.evalText 100 session "5").map Prod.fst = some (.ok (.int 5)) ∧
    (w.evalText 100 session "(let ((apply 5)) apply)").map Prod.fst =
      some (.error (.base (.eval (.expectedName "let" "5")))) ∧
    ∀ v params body, Node.ofItems (.atom (.ident "apply") :: .form v params :: body) =
      Node.ofItems (.form v params :: body) := by
  refine ⟨by decide +kernel, by decide +kernel, fun v params body => rfl⟩

end Form

end DispatchLisp
