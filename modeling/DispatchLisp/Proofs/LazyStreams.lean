import DispatchLisp.Proofs.Expansion
import DispatchLisp.Proofs.Forcing
import DispatchLisp.Proofs.Solo

/-! # Lazy streams and lists

The functions on streams compute elements when they are asked for: the rest of a cell that they make
is a new function, which goes on with the streams behind.  Asked for all elements, they compute what
the functions on lists compute at once.

Three notions carry the proofs.  `Heap.Spells` says that a finite stream is written out in the heap;
`State.Computes`, that a function is total and without effect, in every state that has grown from a
given one; and `Prelude.Delivers`, that a stream which is computed gives certain elements, whenever
and wherever it is forced.  `stream-map` and `stream-filter` make streams that deliver
(`Prelude.succeeds_mapStreams`, `Prelude.succeeds_sift`), and `stream-take` collects what a stream
delivers (`Prelude.Delivers.take`).  The main result is `World.lazy_streams_agree`. -/

namespace DispatchLisp

/-! ### Streams that are written out -/

namespace Heap

variable {h h' : Heap} {v : Value} {xs : List Value}

/-- The value is a finite stream with these elements, whose rests are given as streams. -/
inductive Spells (h : Heap) : Value → List Value → Prop
  | empty : Spells h .emptyStream []
  | cell {l : Nat} {x rest : Value} {xs : List Value} (cell : h.items l = [x, rest])
      (others : Spells h rest xs) : Spells h (.list l) (x :: xs)

theorem Spells.mono (hv : h.Spells v xs) (hh : h.Grows h') : h'.Spells v xs := by
  induction hv with
  | empty => exact .empty
  | cell cell _ ih =>
      refine .cell ?_ ih
      rw [hh.items_eq (by simp [cell]), cell]

/-- The value is a list that has one item for each `a`, as `meets a` says. -/
def Collects {α : Type} (h : Heap) (meets : α → Value → Heap → Prop) (as : List α) (v : Value) :
    Prop :=
  ∃ l, v = .list l ∧ List.Forall₂ (fun a y => meets a y h) as (h.items l)

end Heap

/-- The first elements of the lists, the second ones, and so on, until the shortest list ends. -/
def tuples {α : Type} : List (List α) → List (List α)
  | [] => []
  | [xs] => xs.map fun x => [x]
  | xs :: xss => List.zipWith (fun x args => x :: args) xs (tuples xss)

/-- There is a tuple at a place if all lists go that far, and it has what they have there. -/
theorem getElem?_tuples {α : Type} {xss : List (List α)} (hne : xss ≠ []) (i : Nat) :
    (tuples xss)[i]? = xss.mapM fun xs => xs[i]? := by
  induction xss with
  | nil => exact absurd rfl hne
  | cons xs xss ih =>
      cases xss with
      | nil =>
          rw [tuples, List.getElem?_map, List.mapM_cons]
          cases xs[i]? <;> rfl
      | cons xs' xss =>
          rw [List.mapM_cons, tuples.eq_3 _ _ (by simp), List.getElem?_zipWith, ih (by simp)]
          cases xs[i]? with
          | none => rfl
          | some x => cases List.mapM (fun xs => xs[i]?) (xs' :: xss) <;> rfl

/-- The first elements of what is left of a list, again and again. -/
theorem flatMap_take_tails {α : Type} (n : Nat) (as : List α) :
    (as.tails.take n).flatMap (fun rest => rest.take 1) = as.take n := by
  induction n generalizing as with
  | zero => rfl
  | succ n ih =>
      cases as with
      | nil => simp
      | cons a as =>
          rw [List.tails_cons, List.take_succ_cons, List.flatMap_cons, ih]
          rfl

namespace Prelude

variable {h : Heap} {t : State} {scope : Scope} {streams : List Value} {xss : List (List Value)}
  {args : List Value} {more : List (List Value)}

/-- At the end of the shortest list, one of the streams is empty. -/
theorem anyEmpty_of_tuples_eq_nil (hne : streams ≠ [])
    (hstreams : List.Forall₂ h.Spells streams xss) (hend : tuples xss = []) :
    anyEmpty streams = true := by
  induction hstreams with
  | nil => exact absurd rfl hne
  | @cons v xs vs xss hv hvs ih =>
      cases hv with
      | empty => rfl
      | cell =>
          cases hvs with
          | nil => simp [tuples] at hend
          | cons =>
              have hrest := ih (by simp) (by simpa [tuples] using hend)
              rw [anyEmpty, List.any_cons, ← anyEmpty, hrest, Bool.or_true]

theorem cells_cons {operation : String} {l : Nat} {x rest : Value} {vs heads rests : List Value}
    (hcell : h.items l = [x, rest]) (hcells : cells operation vs h = (.ok (heads, rests), h)) :
    cells operation (.list l :: vs) h = (.ok (x :: heads, rest :: rests), h) := by
  have hitems : HeapM.items l h = (.ok [x, rest], h) := by
    rw [← hcell]
    rfl
  have hfirst : cell operation (.list l) h = (.ok (x, rest), h) := HeapM.bind_ok hitems
  exact (HeapM.bind_ok hfirst).trans (HeapM.bind_ok hcells)

/-- Until then, the next tuple is what stands first in the cells, and the others are what their
rests spell. -/
theorem exists_rests (hstreams : List.Forall₂ h.Spells streams xss)
    (hmore : tuples xss = args :: more) :
    anyEmpty streams = false ∧ ∃ rests xss',
      (∀ operation, cells operation streams h = (.ok (args, rests), h)) ∧ rests ≠ [] ∧
      List.Forall₂ h.Spells rests xss' ∧ tuples xss' = more := by
  induction hstreams generalizing args more with
  | nil => cases hmore
  | @cons v xs vs xss hv hvs ih =>
      cases hvs with
      | nil =>
          cases hv with
          | empty => cases hmore
          | @cell l x rest xs hcell hrest =>
              cases hmore
              exact ⟨rfl, [rest], [xs], fun _ => cells_cons hcell rfl, by simp,
                .cons hrest .nil, rfl⟩
      | @cons v' xs' vs' xss' hv' hvs' =>
          cases hv with
          | empty => cases hmore
          | @cell l x rest xs hcell hrest =>
              rw [tuples.eq_3 _ _ (by simp)] at hmore
              cases hothers : tuples (xs' :: xss') with
              | nil =>
                  rw [hothers] at hmore
                  cases hmore
              | cons args' more' =>
                  rw [hothers] at hmore
                  cases hmore
                  obtain ⟨hany, rests, xss'', hcells, hne, hrests, htuples⟩ := ih hothers
                  refine ⟨?_, rest :: rests, xs :: xss'', fun op => cells_cons hcell (hcells op),
                    by simp, .cons hrest hrests, ?_⟩
                  · rw [anyEmpty, List.any_cons, ← anyEmpty, hany]
                    rfl
                  · cases hrests with
                    | nil => exact absurd rfl hne
                    | cons => rw [tuples.eq_3 _ _ (by simp), htuples]

/-- A rest that is a stream is there without being forced. -/
theorem forceRest_of_spells {rest : Value} {xs : List Value} (hrest : h.Spells rest xs)
    (scope : Scope) (t : State) : forceRest rest scope t = .done (.ok rest) t := by
  cases hrest with
  | empty => rfl
  | cell => rfl

theorem forceRests_of_spells {rests : List Value} (hrests : List.Forall₂ h.Spells rests xss)
    (scope : Scope) (done : List Value) (t : State) :
    forceRests scope done rests t = .done (.ok (done.reverse ++ rests)) t := by
  induction hrests generalizing done with
  | nil =>
      rw [List.append_nil]
      rfl
  | cons hrest _ ih =>
      rw [forceRests, Eval.bind_ok (forceRest_of_spells hrest scope t), ih, List.reverse_cons,
        List.append_assoc, List.singleton_append]

end Prelude

/-! ### Functions without effects -/

namespace State

/-- The function is total and without effect on the arguments: called in a state to which something
has been added, it gives a value and at most adds to the state.  The jobs, the value and the state
are then as `post` says. -/
def Computes (s : State) (scope : Scope) (f : FunctionRef) (args : List Value)
    (post : List Job → Value → State → Prop) : Prop :=
  ∀ t, s.Keeps t → (applyValue (.function f) args scope).Succeeds t post

variable {s t : State} {scope : Scope} {f : FunctionRef} {args : List Value}
  {post : List Job → Value → State → Prop}

/-- A native function that always gives a value and at most adds to the heap. -/
theorem computes_native {e : Entry} {run : List Value → HeapM Value}
    (hlt : f.id < s.functions.size) (hspecial : (s.overloads f).special? = none)
    (hselected : (s.overloads f).selected args = .ok e) (hbody : e.body = .native run)
    (hrun : ∀ t, s.Keeps t → ∃ v h, run args t.heap = (.ok v, h) ∧ t.heap.Grows h ∧
      post [] v { t with heap := h }) :
    s.Computes scope f args post := by
  intro t hkeeps
  have hsame : t.overloads f = s.overloads f := overloads_of_prefix hkeeps.functions hlt
  obtain ⟨v, h, hv, hgrows, hpost⟩ := hrun t hkeeps
  refine Eval.succeeds_of_done ?_ (t.adds_heap hgrows) hpost
  have hheap : Eval.onHeap (run args) (t.pushCall e.name) =
      .done (.ok v) { t.pushCall e.name with heap := h } := Eval.onHeap_of_eq hv
  simp only [applyValue, hsame, hspecial, Overloads.call, hselected, Entry.call, Eval.framed,
    Eval.atEnd, Entry.run, hbody, hheap]
  rfl

/-- A function that can be called is one of the functions that there are. -/
theorem Computes.lt_size (hf : s.Computes scope f args post) : f.id < s.functions.size := by
  by_contra hout
  have hnone : s.overloads f = ⟨f.name, []⟩ := by
    rw [overloads, Array.getD_eq_getD_getElem?, Array.getElem?_eq_none (by omega)]
    rfl
  obtain ⟨e, hcall⟩ : ∃ e, applyValue (.function f) args scope s = .done (.error e) s := by
    simp only [applyValue, hnone]
    exact ⟨_, rfl⟩
  have hends := hf s (Adds.refl s).keeps
  rw [Eval.Succeeds, hcall] at hends
  cases hends with
  | done ends =>
      obtain ⟨v, hv, -⟩ := ends
      cases hv

/-- **The call as a job.** -/
theorem Computes.succeeds (hf : s.Computes scope f args post) (hquiet : s.freshThread? = none)
    (hkeeps : s.Keeps t) :
    (Eval.apply (.function f) args scope).Succeeds t fun js v u =>
      ∃ js', js = .apply (.function f) args scope :: js' ∧ post js' v u := by
  refine Eval.succeeds_perform (hkeeps.quiet hquiet) fun clock => ?_
  refine (hf _ (hkeeps.trans (t.adds_clock clock).keeps)).mono ?_
  exact fun js v u _ hv => ⟨js, rfl, hv⟩

end State

/-! ### Streams that are computed -/

namespace Prelude

/-- What is said of a value stays true when something is added to the heap. -/
def Stable (meets : Value → Heap → Prop) : Prop :=
  ∀ v {h h' : Heap}, meets v h → h.Grows h' → meets v h'

/-- Forcing the stream step by step gives elements as `meets` says, and then its end.  To come to
where the elements `as` are left, jobs as `spent as` says are carried out. -/
def Delivers {α : Type} (scope : Scope) (meets : α → Value → Heap → Prop)
    (spent : List α → List Job → Prop) : List α → State → Value → Prop
  | [], _, v => v = .emptyStream
  | a :: as, t, v => ∃ l x rest, v = .list l ∧ t.heap.items l = [x, rest] ∧ meets a x t.heap ∧
    ∀ t', t.Keeps t' → (forceRest rest scope).Succeeds t' fun js v' u =>
      spent as js ∧ Delivers scope meets spent as u v'

section

variable {α : Type} {scope : Scope} {meets : α → Value → Heap → Prop}
  {spent : List α → List Job → Prop} {as : List α} {t : State} {v : Value} {n : Nat}

/-- A new list of items. -/
theorem succeeds_newList {post : List Job → Value → State → Prop} (items : List Value) (t : State)
    (hpost : ∀ l u, t.Adds u → u.heap.items l = items → post [] (.list l) u) :
    (Eval.newList items).Succeeds t post := by
  have hadds := t.adds_heap (t.heap.grows_newList items)
  exact Eval.succeeds_of_done rfl hadds (hpost _ _ hadds (t.heap.items_newList items))

/-- A stream that is computed stays what it is when something is added to the state. -/
theorem Delivers.of_keeps (hstable : ∀ a, Stable (meets a)) {u : State}
    (h : Delivers scope meets spent as t v) (hkeeps : t.Keeps u) :
    Delivers scope meets spent as u v := by
  cases as with
  | nil => exact h
  | cons a as =>
      obtain ⟨l, x, rest, rfl, hcell, hx, hforce⟩ := h
      refine ⟨l, x, rest, rfl, ?_, hstable a x hx hkeeps.heap,
        fun t' hkeeps' => hforce t' (hkeeps.trans hkeeps')⟩
      rw [hkeeps.heap.items_eq (by simp [hcell]), hcell]

/-- **Taking elements of a stream that is computed.**  The stream is forced once for each element
that is taken. -/
theorem Delivers.take (hstable : ∀ a, Stable (meets a))
    (h : Delivers scope meets spent as t v) (n : Nat) (done : List Value) :
    (takeElements scope n v done).Succeeds t fun js w u => ∃ l ys jss, w = .list l ∧
      u.heap.items l = done.reverse ++ ys ∧
      List.Forall₂ (fun a y => meets a y u.heap) (as.take n) ys ∧
      js = jss.flatten ∧ List.Forall₂ spent (as.tails.tail.take n) jss := by
  induction n generalizing as t v done with
  | zero =>
      refine succeeds_newList _ t fun l u _ hl => ⟨l, [], [], rfl, ?_, ?_, rfl, ?_⟩
      · rw [hl, List.append_nil]
      · exact .nil
      · exact .nil
  | succ n ih =>
      cases as with
      | nil =>
          subst h
          refine succeeds_newList _ t fun l u _ hl => ⟨l, [], [], rfl, ?_, .nil, rfl, .nil⟩
          rw [hl, List.append_nil]
      | cons a as =>
          obtain ⟨l, x, rest, rfl, hcell, hx, hforce⟩ := h
          refine Eval.Succeeds.congr ?_ (takeElements_cell hcell)
          refine (hforce t (State.Adds.refl t).keeps).bind fun js v' u hadds ⟨hspent, hv'⟩ => ?_
          refine (ih hv' (x :: done)).mono ?_
          rintro js' w u' hadds' ⟨l', ys, jss, rfl, hitems, hys, rfl, hjss⟩
          refine ⟨l', x :: ys, js :: jss, rfl, ?_, ?_, rfl, ?_⟩
          · rw [hitems, List.reverse_cons, List.append_assoc, List.singleton_append]
          · exact .cons (hstable a x hx (hadds.trans hadds').heap) hys
          · cases as with
            | nil => exact .cons hspent hjss
            | cons b as => exact .cons hspent hjss

end

/-- A cell is made, and its rest is a routine that was not there before. -/
theorem succeeds_lazyCell {post : List Job → Value → State → Prop} {t : State} {operation : String}
    {r : Routine} {head : Value}
    (hpost : ∀ l g u, t.Adds u → u.heap.items l = [head, .function g] → t.functions.size ≤ g.id →
      g.id < u.functions.size → u.overloads g = .single ⟨operation, [], none, .routine r⟩ →
      post [] (.list l) u) :
    (lazyCell operation head r).Succeeds t post := by
  have hadds := (t.adds_newFunction (.single ⟨operation, [], none, .routine r⟩)).trans
    (State.adds_heap _ (Heap.grows_newList _ [head, .function ⟨t.functions.size, operation⟩]))
  refine Eval.succeeds_of_done rfl hadds
    (hpost _ ⟨t.functions.size, operation⟩ _ hadds (Heap.items_newList _ _) le_rfl ?_ ?_)
  · simp
  · simp [State.overloads]

/-- The routine runs when the rest is forced. -/
theorem succeeds_forceRest {post : List Job → Value → State → Prop} {t : State} {scope : Scope}
    {g : FunctionRef} {operation : String} {r : Routine} (hquiet : t.freshThread? = none)
    (hg : t.overloads g = .single ⟨operation, [], none, .routine r⟩)
    (h : ∀ clock, (r.run [] scope).Succeeds (State.pushCall { t with clock } operation)
      fun js v u => post (.apply (.function g) [] scope :: js) v u.popCall) :
    (forceRest (.function g) scope).Succeeds t post := by
  refine Eval.succeeds_perform hquiet fun clock => ?_
  refine Eval.Succeeds.congr (Eval.succeeds_framed (h clock)) ?_
  have hg : State.overloads { t with clock } g = .single ⟨operation, [], none, .routine r⟩ := hg
  simp only [Job.body, applyValue, hg]
  rfl

/-- **A cell whose rest is left to a routine.**  If the routine delivers the other elements whenever
it runs, the cell delivers all of them. -/
theorem succeeds_lazyCell_delivers {α : Type} {scope : Scope} {meets : α → Value → Heap → Prop}
    {spent : List α → List Job → Prop} {a : α} {as : List α} {t : State} {head : Value}
    {operation : String} {r : Routine} (hquiet : t.freshThread? = none)
    (hstable : ∀ a, Stable (meets a)) (hhead : meets a head t.heap)
    (hspent : ∀ (g : FunctionRef) js, t.functions.size ≤ g.id → spent as js →
      spent as (.apply (.function g) [] scope :: js))
    (hrest : ∀ t', t.Keeps t' → (r.run [] scope).Succeeds t' fun js v u =>
      spent as js ∧ Delivers scope meets spent as u v) :
    (lazyCell operation head r).Succeeds t fun js v u =>
      js = [] ∧ Delivers scope meets spent (a :: as) u v := by
  refine succeeds_lazyCell fun l g u hadds hcell hnew hlt hg => ⟨rfl, l, head, .function g, rfl,
    hcell, hstable a head hhead hadds.heap, fun t' hkeeps => ?_⟩
  have hg' : t'.overloads g = .single ⟨operation, [], none, .routine r⟩ :=
    (State.overloads_of_prefix hkeeps.functions hlt).trans hg
  have hlater : t.Keeps t' := hadds.keeps.trans hkeeps
  refine succeeds_forceRest (hlater.quiet hquiet) hg' fun clock => ?_
  have hcalled : t'.Keeps (State.pushCall { t' with clock } operation) :=
    (t'.adds_clock clock).keeps.trans (State.keeps_pushCall _ _)
  refine (hrest _ (hlater.trans hcalled)).mono ?_
  rintro js v u' - ⟨hjs, hdelivers⟩
  exact ⟨hspent g js hnew hjs, hdelivers.of_keeps hstable (State.keeps_popCall u')⟩

/-! ### Maps -/

section

variable {s t : State} {scope : Scope} {f : FunctionRef} {tups : List (List Value)}
  {inner : List Value → List (List Value)} {meets : List Value → Value → Heap → Prop}
  {streams : List Value} {xss : List (List Value)}

/-- The calls of a function on the tuples, each one followed by the calls of the function that it
makes in turn. -/
def callsFor (inner : List Value → List (List Value)) (tups : List (List Value)) :
    List (List Value) :=
  tups.flatMap fun args => args :: inner args

theorem callsFor_cons (args : List Value) :
    callsFor inner (args :: tups) = args :: (inner args ++ callsFor inner tups) := rfl

theorem callsFor_append (tups' : List (List Value)) :
    callsFor inner (tups ++ tups') = callsFor inner tups ++ callsFor inner tups' :=
  List.flatMap_append

/-- A call of the function, and then other jobs. -/
theorem callsOf_call (scope : Scope) {args : List Value} {js js' : List Job}
    (hjs : Job.callsOf (.function f) js = inner args) :
    Job.callsOf (.function f) ((.apply (.function f) args scope :: js) ++ js') =
      args :: (inner args ++ Job.callsOf (.function f) js') := by
  rw [List.cons_append, Job.callsOf_apply_self, Job.callsOf_append, hjs]

/-- Among the jobs, the function is called for the next tuple only. -/
def asksNext (f : FunctionRef) (inner : List Value → List (List Value)) (tups : List (List Value))
    (js : List Job) : Prop :=
  Job.callsOf (.function f) js = callsFor inner (tups.take 1)

/-- Asking for tuples one at a time comes to asking for all of them. -/
theorem callsOf_flatten {tupss : List (List (List Value))} {jss : List (List Job)}
    (h : List.Forall₂ (asksNext f inner) tupss jss) :
    Job.callsOf (.function f) jss.flatten =
      callsFor inner (tupss.flatMap fun tups => tups.take 1) := by
  induction h with
  | nil => rfl
  | cons hasks _ ih =>
      rw [List.flatten_cons, Job.callsOf_append, hasks, ih, List.flatMap_cons, callsFor_append]

/-- **A mapped stream is computed one tuple at a time.**  The induction is on the tuples that are
left; the state is any that has grown from the first one. -/
theorem succeeds_mapStreams (hquiet : s.freshThread? = none) (hkeeps : s.Keeps t)
    (hf : ∀ args ∈ tups, s.Computes scope f args fun js v u =>
      Job.callsOf (.function f) js = inner args ∧ meets args v u.heap)
    (hstable : ∀ args, Stable (meets args)) (hne : streams ≠ [])
    (hstreams : List.Forall₂ t.heap.Spells streams xss) (htuples : tuples xss = tups) :
    (mapStreams (.function f) streams scope).Succeeds t fun js v u =>
      asksNext f inner tups js ∧ Delivers scope meets (asksNext f inner) tups u v := by
  induction tups generalizing t streams xss with
  | nil =>
      have hend := anyEmpty_of_tuples_eq_nil hne hstreams htuples
      refine Eval.succeeds_of_done ?_ (.refl t) ⟨rfl, rfl⟩
      rw [mapStreams, if_pos hend]
      rfl
  | cons args tups ih =>
      obtain ⟨hany, rests, xss', hcells, hrests, hspells, hmore⟩ := exists_rests hstreams htuples
      obtain ⟨hargs, htups⟩ := List.forall_mem_cons.mp hf
      have hread : Eval.onHeap (cells "stream-map" streams) t = .done (.ok (args, rests)) t :=
        Eval.onHeap_of_eq (hcells _)
      have hmap : mapStreams (.function f) streams scope t =
          (Eval.apply (.function f) args scope >>= fun head =>
            lazyCell "stream-map" head (.mapRest (.function f) rests)) t := by
        rw [mapStreams, if_neg (by simp [hany]), Eval.bind_ok hread]
      refine Eval.Succeeds.congr ((hargs.succeeds hquiet hkeeps).bind ?_) hmap
      rintro _ v u hadds ⟨js, rfl, hjs, hv⟩
      have hkeeps' := hkeeps.trans hadds.keeps
      have hcell : (lazyCell "stream-map" v (.mapRest (.function f) rests)).Succeeds u
          fun js v u => js = [] ∧ Delivers scope meets (asksNext f inner) (args :: tups) u v := by
        refine succeeds_lazyCell_delivers (hkeeps'.quiet hquiet) hstable hv ?_ ?_
        · intro g js hnew hjs
          -- The rest is a new function, so forcing it is no call of `f` itself.
          have hother : Value.function g ≠ .function f := by
            rintro ⟨⟩
            have hold := hargs.lt_size
            have hsize := hkeeps'.functions.length_le
            simp only [Array.length_toList] at hsize
            omega
          exact (Job.callsOf_apply_of_ne hother [] scope js).trans hjs
        · intro t' hlater
          have hspells' : List.Forall₂ t'.heap.Spells rests xss' :=
            hspells.imp fun _ _ hv => hv.mono (hadds.heap.trans hlater.heap)
          exact Eval.Succeeds.congr (ih (hkeeps'.trans hlater) htups hrests hspells' hmore)
            (Eval.bind_ok (forceRests_of_spells hspells' scope [] t'))
      refine hcell.mono ?_
      rintro _ v u' - ⟨rfl, hdelivers⟩
      exact ⟨callsOf_call scope hjs, hdelivers⟩

/-- **A walk calls the function for one tuple after the other.** -/
theorem succeeds_walk (hquiet : s.freshThread? = none) (hkeeps : s.Keeps t)
    (hf : ∀ args ∈ tups, s.Computes scope f args fun js _ _ =>
      Job.callsOf (.function f) js = inner args)
    (hne : streams ≠ []) (hstreams : List.Forall₂ t.heap.Spells streams xss)
    (htuples : tuples xss = tups) :
    (Eval.perform (.walk (.function f) streams scope)).Succeeds t fun js v _ =>
      v = .nil ∧ Job.callsOf (.function f) js = callsFor inner tups := by
  induction tups generalizing t streams xss with
  | nil =>
      have hend := anyEmpty_of_tuples_eq_nil hne hstreams htuples
      refine Eval.succeeds_perform (hkeeps.quiet hquiet) fun clock => ?_
      refine Eval.succeeds_of_done ?_ (.refl _) ⟨rfl, rfl⟩
      rw [Job.body, walkStep, if_pos hend]
      rfl
  | cons args tups ih =>
      obtain ⟨hany, rests, xss', hcells, hrests, hspells, hmore⟩ := exists_rests hstreams htuples
      obtain ⟨hargs, htups⟩ := List.forall_mem_cons.mp hf
      refine Eval.succeeds_perform (hkeeps.quiet hquiet) fun clock => ?_
      have hclock := hkeeps.trans (t.adds_clock clock).keeps
      have hread : Eval.onHeap (cells "stream-for-each" streams) { t with clock } =
          .done (.ok (args, rests)) { t with clock } := Eval.onHeap_of_eq (hcells _)
      have hwalk : walkStep (.function f) streams scope { t with clock } =
          (Eval.apply (.function f) args scope >>= fun _ =>
            forceRests scope [] rests >>= fun streams =>
              Eval.perform (.walk (.function f) streams scope)) { t with clock } := by
        rw [walkStep, if_neg (by simp [hany]), Eval.bind_ok hread]
      refine Eval.Succeeds.congr ((hargs.succeeds hquiet hclock).bind ?_) hwalk
      rintro _ v u hadds ⟨js, rfl, hjs⟩
      have hspells' : List.Forall₂ u.heap.Spells rests xss' :=
        hspells.imp fun _ _ hv => hv.mono hadds.heap
      refine Eval.Succeeds.congr
        ((ih (hclock.trans hadds.keeps) htups hrests hspells' hmore).mono ?_)
        (Eval.bind_ok (forceRests_of_spells hspells' scope [] u))
      rintro js' v' _ - ⟨rfl, hcalls⟩
      refine ⟨rfl, (callsOf_call scope hjs).trans ?_⟩
      rw [hcalls, callsFor_cons]

/-- **The items of a list are mapped one after the other.** -/
theorem succeeds_mapItems (hquiet : s.freshThread? = none) (hkeeps : s.Keeps t)
    (hstable : ∀ args, Stable (meets args)) {items : List Value}
    (hf : ∀ x ∈ items, s.Computes scope f [x] fun _ v u => meets [x] v u.heap)
    (done : List Value) :
    (mapItems (.function f) scope done items).Succeeds t fun _ v u => ∃ l ys, v = .list l ∧
      u.heap.items l = done.reverse ++ ys ∧
      List.Forall₂ (fun x y => meets [x] y u.heap) items ys := by
  induction items generalizing t done with
  | nil =>
      refine succeeds_newList _ t fun l u _ hl => ⟨l, [], rfl, ?_, .nil⟩
      rw [hl, List.append_nil]
  | cons x items ih =>
      obtain ⟨hx, hitems⟩ := List.forall_mem_cons.mp hf
      refine (hx.succeeds hquiet hkeeps).bind ?_
      rintro _ y u hadds ⟨js, -, hy⟩
      refine (ih (hkeeps.trans hadds.keeps) hitems (y :: done)).mono ?_
      rintro js' v u' hadds' ⟨l, ys, rfl, hl, hys⟩
      refine ⟨l, y :: ys, rfl, ?_, .cons (hstable [x] y hy hadds'.heap) hys⟩
      rw [hl, List.reverse_cons, List.append_assoc, List.singleton_append]

end

/-! ### Filters -/

section

variable {s t : State} {scope : Scope} {p : FunctionRef} {keep : Value → Bool} {xs : List Value}

/-- Forcing the stream step by step gives these elements. -/
abbrev Unfolds (scope : Scope) : List Value → State → Value → Prop :=
  Delivers scope (fun x v _ => v = x) fun _ _ => True

/-- **A filtered stream is computed up to the next element that is kept.** -/
theorem succeeds_sift (hquiet : s.freshThread? = none) (hkeeps : s.Keeps t)
    (hp : ∀ x ∈ xs, s.Computes scope p [x] fun _ v _ => v = .bool (keep x)) {stream : Value}
    (hstream : t.heap.Spells stream xs) :
    (Eval.perform (.sift (.function p) stream scope)).Succeeds t fun _ v u =>
      Unfolds scope (xs.filter keep) u v := by
  induction xs generalizing t stream with
  | nil =>
      cases hstream
      exact Eval.succeeds_perform (hkeeps.quiet hquiet) fun clock =>
        Eval.succeeds_of_done rfl (.refl _) rfl
  | cons x xs ih =>
      cases hstream with
      | @cell l _ rest _ hcell hrest =>
          obtain ⟨hx, hxs⟩ := List.forall_mem_cons.mp hp
          refine Eval.succeeds_perform (hkeeps.quiet hquiet) fun clock => ?_
          have hclock := hkeeps.trans (t.adds_clock clock).keeps
          have hread : Eval.onHeap (cell "stream-filter" (.list l)) { t with clock } =
              .done (.ok (x, rest)) { t with clock } := onHeap_cell _ hcell
          have hsift : siftStep (.function p) (.list l) scope { t with clock } =
              (Eval.apply (.function p) [x] scope >>= fun v => Eval.expectBool v >>= fun kept =>
                if kept then lazyCell "stream-filter" x (.filterRest (.function p) rest)
                else filterRest (.function p) rest scope) { t with clock } := by
            rw [siftStep, if_neg (by simp), Eval.bind_ok hread]
            rfl
          refine Eval.Succeeds.congr ((hx.succeeds hquiet hclock).bind ?_) hsift
          rintro _ v u hadds ⟨js, -, rfl⟩
          have hkeeps' := hclock.trans hadds.keeps
          have hothers : ∀ t', u.Keeps t' → (filterRest (.function p) rest scope).Succeeds t'
              fun _ v u => Unfolds scope (xs.filter keep) u v :=
            fun t' hlater => Eval.Succeeds.congr
              (ih (hkeeps'.trans hlater) hxs (hrest.mono (hadds.heap.trans hlater.heap)))
              (Eval.bind_ok (forceRest_of_spells hrest scope t'))
          cases hkept : keep x with
          | true =>
              rw [List.filter_cons_of_pos hkept]
              have hmade : (lazyCell "stream-filter" x (.filterRest (.function p) rest)).Succeeds u
                  fun js v u => js = [] ∧ Unfolds scope (x :: xs.filter keep) u v := by
                refine succeeds_lazyCell_delivers (hkeeps'.quiet hquiet) (fun _ _ _ _ hv _ => hv)
                  rfl (fun _ _ _ _ => trivial) fun t' hlater => ?_
                exact (hothers t' hlater).mono fun _ _ _ _ hv => ⟨trivial, hv⟩
              exact hmade.mono fun _ _ _ _ hv => hv.2
          | false =>
              rw [List.filter_cons_of_neg (by simp [hkept])]
              exact hothers u (State.Adds.refl u).keeps

/-- **The items of a list are filtered one after the other.** -/
theorem succeeds_filterItems (hquiet : s.freshThread? = none) (hkeeps : s.Keeps t)
    (hp : ∀ x ∈ xs, s.Computes scope p [x] fun _ v _ => v = .bool (keep x)) (kept : List Value) :
    (filterItems (.function p) scope kept xs).Succeeds t fun _ v u => ∃ l, v = .list l ∧
      u.heap.items l = kept.reverse ++ xs.filter keep := by
  induction xs generalizing t kept with
  | nil =>
      refine succeeds_newList _ t fun l u _ hl => ⟨l, rfl, ?_⟩
      rw [hl, List.filter_nil, List.append_nil]
  | cons x xs ih =>
      obtain ⟨hx, hxs⟩ := List.forall_mem_cons.mp hp
      refine (hx.succeeds hquiet hkeeps).bind ?_
      rintro _ v u hadds ⟨js, -, rfl⟩
      refine (ih (hkeeps.trans hadds.keeps) hxs (if keep x then x :: kept else kept)).mono ?_
      rintro js' v u' - ⟨l, rfl, hl⟩
      refine ⟨l, rfl, ?_⟩
      cases hkept : keep x with
      | true =>
          rw [hl, hkept, if_pos rfl, List.filter_cons_of_pos hkept, List.reverse_cons,
            List.append_assoc, List.singleton_append]
      | false => rw [hl, hkept, if_neg (by simp), List.filter_cons_of_neg (by simp [hkept])]

end

end Prelude

namespace World

open Prelude

/-! ### The functions of the prelude -/

variable {s t : State} {scope : Scope} {n : Nat} {f p : FunctionRef}
  {inner : List Value → List (List Value)} {meets : List Value → Value → Heap → Prop}
  {streams xs : List Value} {xss : List (List Value)} {stream : Value} {keep : Value → Bool}

/-- The routine runs inside a call that is noted. -/
theorem succeeds_calling {post : List Job → Value → State → Prop} {limit : Nat} {name : String}
    {args : List Value} {m : Eval Value}
    (hcalling : (new limit).calling name args scope = Eval.framed name m)
    (hm : m.Succeeds (t.pushCall name) fun js v u => post js v u.popCall) :
    ((new limit).calling name args scope).Succeeds t post := by
  rw [hcalling]
  exact Eval.succeeds_framed hm

theorem succeeds_streamTake {α : Type} {meets : α → Value → Heap → Prop}
    {spent : List α → List Job → Prop} {as : List α} {v : Value} (limit : Nat)
    (hn : Word.fitsSigned 64 n = true) (hstable : ∀ a, Stable (meets a))
    (hv : Delivers scope meets spent as t v) :
    ((new limit).calling "stream-take" [v, .int n] scope).Succeeds t fun js w u => ∃ jss,
      u.heap.Collects meets (as.take n) w ∧ js = jss.flatten ∧
      List.Forall₂ spent (as.tails.tail.take n) jss := by
  refine succeeds_calling (calling_streamTake limit v n scope) ?_
  rw [streamTake_of_toCount? (toCount?_natCast hn)]
  refine ((hv.of_keeps hstable (t.keeps_pushCall "stream-take")).take hstable n []).mono ?_
  rintro js w u - ⟨l, ys, jss, rfl, hitems, hys, hjs, hjss⟩
  have hlist : u.heap.items l = ys := hitems
  exact ⟨jss, ⟨l, rfl, hlist ▸ hys⟩, hjs, hjss⟩

/-- Elements of a mapped stream.  One tuple more than is asked for has been computed. -/
theorem succeeds_streamMap (limit : Nat) (hn : Word.fitsSigned 64 n = true)
    (hquiet : s.freshThread? = none) (hne : streams ≠ [])
    (hstreams : List.Forall₂ s.heap.Spells streams xss)
    (hf : ∀ args ∈ tuples xss, s.Computes scope f args fun js v u =>
      Job.callsOf (.function f) js = inner args ∧ meets args v u.heap)
    (hstable : ∀ args, Stable (meets args)) :
    ((new limit).calling "stream-map" (.function f :: streams) scope >>= fun mapped =>
      (new limit).calling "stream-take" [mapped, .int n] scope).Succeeds s fun js v u =>
        u.heap.Collects meets ((tuples xss).take n) v ∧
        Job.callsOf (.function f) js = callsFor inner ((tuples xss).take (n + 1)) := by
  have hnamed : Overloads.named "stream-map" (Prelude.core ++ entries) =
      ⟨"stream-map", [routine "stream-map" [.function, .any] (some .any) .streamMap]⟩ := rfl
  have hcalling : (new limit).calling "stream-map" (.function f :: streams) scope =
      Eval.framed "stream-map" (mapStreams (.function f) streams scope) := by
    obtain ⟨first, others, rfl⟩ := List.exists_cons_of_ne_nil hne
    exact calling_routine limit scope hnamed (by simp [Entry.Matches])
  have hmapped : ((new limit).calling "stream-map" (.function f :: streams) scope).Succeeds s
      fun js v u => asksNext f inner (tuples xss) js ∧
        Delivers scope meets (asksNext f inner) (tuples xss) u v := by
    refine succeeds_calling hcalling ?_
    refine (succeeds_mapStreams hquiet (s.keeps_pushCall "stream-map") hf hstable hne hstreams
      rfl).mono ?_
    rintro js v u - ⟨hasks, hv⟩
    exact ⟨hasks, hv.of_keeps hstable u.keeps_popCall⟩
  refine hmapped.bind ?_
  rintro js mapped t - ⟨hasks, hmapped⟩
  refine (succeeds_streamTake limit hn hstable hmapped).mono ?_
  rintro _ v u - ⟨jss, hv, rfl, hjss⟩
  refine ⟨hv, ?_⟩
  rw [Job.callsOf_append, hasks, callsOf_flatten hjss, ← flatMap_take_tails (n + 1)]
  cases tuples xss with
  | nil => rfl
  | cons args tups => exact (callsFor_append _).symm

theorem succeeds_streamForEach (limit : Nat) (hquiet : s.freshThread? = none) (hne : streams ≠ [])
    (hstreams : List.Forall₂ s.heap.Spells streams xss)
    (hf : ∀ args ∈ tuples xss, s.Computes scope f args fun js v u =>
      Job.callsOf (.function f) js = inner args ∧ meets args v u.heap) :
    ((new limit).calling "stream-for-each" (.function f :: streams) scope).Succeeds s fun js v _ =>
      v = .nil ∧ Job.callsOf (.function f) js = callsFor inner (tuples xss) := by
  have hnamed : Overloads.named "stream-for-each" (Prelude.core ++ entries) =
      ⟨"stream-for-each",
        [routine "stream-for-each" [.function, .any] (some .any) .streamForEach]⟩ := rfl
  have hcalling : (new limit).calling "stream-for-each" (.function f :: streams) scope =
      Eval.framed "stream-for-each" (Eval.perform (.walk (.function f) streams scope)) := by
    obtain ⟨first, others, rfl⟩ := List.exists_cons_of_ne_nil hne
    exact calling_routine limit scope hnamed (by simp [Entry.Matches])
  refine succeeds_calling hcalling ?_
  refine succeeds_walk hquiet (s.keeps_pushCall "stream-for-each") ?_ hne hstreams rfl
  exact fun args hargs t hkeeps => (hf args hargs t hkeeps).mono fun _ _ _ _ hv => hv.1

theorem succeeds_map (limit : Nat) (hquiet : s.freshThread? = none) {l : Nat}
    (hf : ∀ args ∈ tuples [s.heap.items l], s.Computes scope f args fun js v u =>
      Job.callsOf (.function f) js = inner args ∧ meets args v u.heap)
    (hstable : ∀ args, Stable (meets args)) :
    ((new limit).calling "map" [.function f, .list l] scope).Succeeds s fun _ v u =>
      u.heap.Collects meets (tuples [s.heap.items l]) v := by
  have hnamed : Overloads.named "map" (Prelude.core ++ entries) =
      ⟨"map", [routine "map" [.function, .list] none .map]⟩ := rfl
  refine succeeds_calling (calling_routine limit scope hnamed (by simp [Entry.Matches])) ?_
  have hitems : ∀ x ∈ s.heap.items l, s.Computes scope f [x] fun _ v u => meets [x] v u.heap :=
    fun x hx t hkeeps => (hf [x] (List.mem_map_of_mem hx) t hkeeps).mono fun _ _ _ _ hv => hv.2
  refine (succeeds_mapItems hquiet (s.keeps_pushCall "map") hstable hitems []).mono ?_
  rintro js v u - ⟨l', ys, rfl, hl, hys⟩
  have hlist : u.heap.items l' = ys := hl
  exact ⟨l', rfl, List.forall₂_map_left_iff.mpr (hlist ▸ hys)⟩

theorem succeeds_streamFilter (limit : Nat) (hn : Word.fitsSigned 64 n = true)
    (hquiet : s.freshThread? = none) (hstream : s.heap.Spells stream xs)
    (hp : ∀ x ∈ xs, s.Computes scope p [x] fun _ v _ => v = .bool (keep x)) :
    ((new limit).calling "stream-filter" [.function p, stream] scope >>= fun filtered =>
      (new limit).calling "stream-take" [filtered, .int n] scope).Succeeds s fun _ v u =>
        ∃ l, v = .list l ∧ u.heap.items l = (xs.filter keep).take n := by
  have hnamed : Overloads.named "stream-filter" (Prelude.core ++ entries) =
      ⟨"stream-filter", [routine "stream-filter" [.function, .any] none .streamFilter]⟩ := rfl
  have hcalling : (new limit).calling "stream-filter" [.function p, stream] scope =
      Eval.framed "stream-filter" (Eval.perform (.sift (.function p) stream scope)) :=
    calling_routine limit scope hnamed (by simp [Entry.Matches])
  have hstable : ∀ x : Value, Stable fun v _ => v = x := fun _ _ _ _ hv _ => hv
  have hfiltered : ((new limit).calling "stream-filter" [.function p, stream] scope).Succeeds s
      fun _ v u => Unfolds scope (xs.filter keep) u v :=
    succeeds_calling hcalling
      ((succeeds_sift hquiet (s.keeps_pushCall "stream-filter") hp hstream).mono
        fun _ _ u _ hv => hv.of_keeps hstable u.keeps_popCall)
  refine hfiltered.bind fun js filtered t _ hfiltered => ?_
  refine (succeeds_streamTake limit hn hstable hfiltered).mono ?_
  rintro _ v u - ⟨jss, ⟨l, rfl, hitems⟩, -, -⟩
  refine ⟨l, rfl, ?_⟩
  have hsame := hitems.flip
  rwa [List.forall₂_eq_eq_eq] at hsame

theorem succeeds_filter (limit : Nat) (hquiet : s.freshThread? = none) {l : Nat}
    (hp : ∀ x ∈ s.heap.items l, s.Computes scope p [x] fun _ v _ => v = .bool (keep x)) :
    ((new limit).calling "filter" [.function p, .list l] scope).Succeeds s fun _ v u =>
      ∃ l', v = .list l' ∧ u.heap.items l' = (s.heap.items l).filter keep := by
  have hnamed : Overloads.named "filter" (Prelude.core ++ entries) =
      ⟨"filter", [routine "filter" [.function, .list] none .filter]⟩ := rfl
  refine succeeds_calling (calling_routine limit scope hnamed (by simp [Entry.Matches])) ?_
  exact succeeds_filterItems hquiet (s.keeps_pushCall "filter") hp []

/-- **Functions on streams compute what those on lists compute.**  In a fiber without others, let
`n` fit a word of 64 bits.

Let finite streams, at least one, be written out, and let `f` be total and without effect on the
tuples of their elements at one place, up to the end of the shortest.  Then `n` elements of
`stream-map` are a list of what `f` gives on the first `n` tuples, or on all if there are fewer; on
all tuples it is what `map` gives if there is one stream.  And `stream-for-each` calls `f` on
exactly the tuples on which `stream-map` calls it when it comes to its end, in the same order.  (If
`f` calls itself, these calls come after the call that makes them; and `stream-take` asks for one
more element than it needs.)

Let a finite stream be written out, and let `p` be total, without effect and boolean on its
elements.  Then `n` elements of `stream-filter` are the first `n` of those that `filter` gives. -/
theorem lazy_streams_agree (limit n : Nat) (hn : Word.fitsSigned 64 n = true) (s : State)
    (hquiet : s.freshThread? = none) (scope : Scope) :
    (∀ (f : FunctionRef) (streams : List Value) (xss : List (List Value))
        (inner : List Value → List (List Value)) (meets : List Value → Value → Heap → Prop),
      streams ≠ [] → List.Forall₂ s.heap.Spells streams xss →
      (∀ args ∈ tuples xss, s.Computes scope f args fun js v u =>
        Job.callsOf (.function f) js = inner args ∧ meets args v u.heap) →
      (∀ args, Stable (meets args)) →
      (∀ i : Nat, (tuples xss)[i]? = xss.mapM fun xs => xs[i]?) ∧
      ((new limit).calling "stream-map" (.function f :: streams) scope >>= fun mapped =>
        (new limit).calling "stream-take" [mapped, .int n] scope).Finishes s (fun js v u =>
          u.heap.Collects meets ((tuples xss).take n) v ∧
          Job.callsOf (.function f) js = callsFor inner ((tuples xss).take (n + 1))) ∧
      ((new limit).calling "stream-for-each" (.function f :: streams) scope).Finishes s
        (fun js v _ => v = .nil ∧ Job.callsOf (.function f) js = callsFor inner (tuples xss)) ∧
      ∀ l, xss = [s.heap.items l] →
        ((new limit).calling "map" [.function f, .list l] scope).Finishes s fun _ v u =>
          u.heap.Collects meets (tuples xss) v) ∧
    ∀ (p : FunctionRef) (stream : Value) (xs : List Value) (keep : Value → Bool),
      s.heap.Spells stream xs →
      (∀ x ∈ xs, s.Computes scope p [x] fun _ v _ => v = .bool (keep x)) →
      ((new limit).calling "stream-filter" [.function p, stream] scope >>= fun filtered =>
        (new limit).calling "stream-take" [filtered, .int n] scope).Finishes s (fun _ v u =>
          ∃ l, v = .list l ∧ u.heap.items l = (xs.filter keep).take n) ∧
      ∀ l, s.heap.items l = xs →
        ((new limit).calling "filter" [.function p, .list l] scope).Finishes s fun _ v u =>
          ∃ l', v = .list l' ∧ u.heap.items l' = xs.filter keep := by
  constructor
  · intro f streams xss inner meets hne hstreams hf hstable
    have hlists : xss ≠ [] := by
      rintro rfl
      exact hne (List.forall₂_nil_right_iff.mp hstreams)
    refine ⟨getElem?_tuples hlists,
      (succeeds_streamMap limit hn hquiet hne hstreams hf hstable).finishes,
      (succeeds_streamForEach limit hquiet hne hstreams hf).finishes, ?_⟩
    rintro l rfl
    exact (succeeds_map limit hquiet hf hstable).finishes
  · intro p stream xs keep hstream hp
    refine ⟨(succeeds_streamFilter limit hn hquiet hstream hp).finishes, ?_⟩
    rintro l rfl
    exact (succeeds_filter limit hquiet hp).finishes

/-- Pairs of elements, made with `list`, and a predicate for `nil`.  The first stream is longer than
the second one. -/
theorem lazy_streams_agree_pairs :
    let s : State := {
      heap := { lists := #[
        .ofList [.int 1, .list 1], .ofList [.int 2, .list 2], .ofList [.int 3, .emptyStream],
        .ofList [.int 10, .list 4], .ofList [.nil, .emptyStream]] }
      functions := #[.named "list" entries, .named "nil?" entries] }
    let f : FunctionRef := ⟨0, "list"⟩
    let p : FunctionRef := ⟨1, "nil?"⟩
    let holds : List Value → Value → Heap → Prop :=
      fun args v h => ∃ l, v = .list l ∧ l < h.lists.size ∧ h.items l = args
    ((new 10).calling "stream-map" [.function f, .list 0, .list 3] ⟨0, []⟩ >>= fun mapped =>
      (new 10).calling "stream-take" [mapped, .int 1] ⟨0, []⟩).Finishes s (fun js v u =>
        u.heap.Collects holds [[.int 1, .int 10]] v ∧
        Job.callsOf (.function f) js = [[.int 1, .int 10], [.int 2, .nil]]) ∧
    ((new 10).calling "stream-for-each" [.function f, .list 0, .list 3] ⟨0, []⟩).Finishes s
      (fun js v _ => v = .nil ∧
        Job.callsOf (.function f) js = [[.int 1, .int 10], [.int 2, .nil]]) ∧
    ((new 10).calling "stream-filter" [.function p, .list 3] ⟨0, []⟩ >>= fun filtered =>
      (new 10).calling "stream-take" [filtered, .int 1] ⟨0, []⟩).Finishes s (fun _ v u =>
        ∃ l, v = .list l ∧ u.heap.items l = [.nil]) := by
  intro s f p holds
  have hlong : s.heap.Spells (.list 0) [.int 1, .int 2, .int 3] :=
    .cell rfl (.cell rfl (.cell rfl .empty))
  have hshort : s.heap.Spells (.list 3) [.int 10, .nil] := .cell rfl (.cell rfl .empty)
  have hholds : ∀ args, Stable (holds args) := by
    rintro args v h h' ⟨l, rfl, hl, hitems⟩ hgrows
    exact ⟨l, rfl, hl.trans_le hgrows.lists.size_le, (hgrows.lists.items_eq hl).trans hitems⟩
  have hlist : ∀ args, s.Computes ⟨0, []⟩ f args fun js v u =>
      Job.callsOf (.function f) js = [] ∧ holds args v u.heap := by
    intro args
    have hset : Overloads.named "list" entries = ⟨"list", [variadic "list" [] .any list]⟩ := rfl
    refine State.computes_native (by decide) rfl
      (Overloads.selected_sole hset (by simp [Entry.Matches, variadic])) rfl fun t _ => ?_
    refine ⟨_, _, rfl, t.heap.grows_newList args, rfl, _, rfl, ?_, t.heap.items_newList args⟩
    simp
  have hisNil : ∀ x, s.Computes ⟨0, []⟩ p [x] fun _ v _ =>
      v = .bool ([Kind.nil].contains x.kind) := by
    intro x
    have hset : Overloads.named "nil?" entries =
        ⟨"nil?", [fixed "nil?" [.any] (hasKind [.nil])]⟩ := rfl
    refine State.computes_native (by decide) rfl
      (Overloads.selected_sole hset (by simp [Entry.Matches, fixed])) rfl fun t _ => ?_
    exact ⟨_, _, rfl, .refl _, rfl⟩
  obtain ⟨hmap, hfilter⟩ := lazy_streams_agree 10 1 (by decide) s rfl ⟨0, []⟩
  obtain ⟨-, hmapped, hwalked, -⟩ := hmap f _ _ (fun _ => []) holds (by simp)
    (.cons hlong (.cons hshort .nil)) (fun args _ => hlist args) hholds
  obtain ⟨hfiltered, -⟩ := hfilter p _ _ _ hshort fun x _ => hisNil x
  exact ⟨hmapped, hwalked, hfiltered⟩

end World

end DispatchLisp
