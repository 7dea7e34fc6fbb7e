import DispatchLisp.Proofs.InPlace
import DispatchLisp.Proofs.Pieces

/-! # Taking elements of a stream

The rest of a cell is a program: it may have effects, fail, or never end.  So it matters which rests
are forced.  `World.Unrolls` says what it is to go along a stream: to reach `n` cells, `n - 1` rests
are forced one after the other, each in the world that the one before has left.

`stream-take` forces one more.  When it has taken the last element it still asks for the stream
behind it, which it then throws away (`World.completes_takeElements`).  So what it ends with is what
that last forcing ends with, and the elements are lost if it fails (`World.lost_element`). -/

namespace DispatchLisp

namespace Machine

/-- When the main fiber has ended, only fibers of other threads are left. -/
theorem EndsWith.idle {m : Machine} {r : Result} {s : State} {left : List Fiber} {turn : Nat}
    (h : m.EndsWith (r, s, left, turn)) (hmain : m.OneMain) : ∀ g ∈ left, g.thread ≠ none := by
  induction h using EndsWith.induct with
  | ended hstep hout =>
      cases hout
      obtain rfl := eq_of_step_ended hstep
      exact (oneMain_iff rfl).mp hmain
  | next hstep _ ih => exact ih ((moves_of_step hstep).oneMain hmain)

theorem EndsWith.unique {m : Machine} {out out' : Outcome} (h : m.EndsWith out)
    (h' : m.EndsWith out') : out = out' := by
  induction h using EndsWith.induct with
  | ended hstep hout => rw [hout, (endsWith_of_ended hstep).mp h']
  | next hstep _ ih => exact ih ((endsWith_of_next hstep).mp h')

end Machine

/-- A computation on the heap is done at once. -/
theorem Eval.onHeap_of_eq {α : Type} {m : HeapM α} {t : State} {r : Except Error α} {h : Heap}
    (hm : m t.heap = (r, h)) : Eval.onHeap m t = .done r { t with heap := h } := by
  simp only [onHeap, attempt, State.onHeap, hm]

namespace Prelude

variable {scope : Scope} {t : State} {l n : Nat} {head rest : Value} {done : List Value}

/-- Reading a cell changes nothing. -/
theorem onHeap_cell (operation : String) (hcell : t.heap.items l = [head, rest]) :
    Eval.onHeap (cell operation (.list l)) t = .done (.ok (head, rest)) t := by
  have hitems : HeapM.items l t.heap = (.ok [head, rest], t.heap) := by
    rw [← hcell]
    rfl
  exact Eval.onHeap_of_eq (HeapM.bind_ok hitems)

/-- One more element is taken, and then the rest is forced. -/
theorem takeElements_cell (hcell : t.heap.items l = [head, rest]) :
    takeElements scope (n + 1) (.list l) done t =
      (forceRest rest scope >>= fun s => takeElements scope n s (head :: done)) t := by
  have hafter : after (.list l) scope t = forceRest rest scope t :=
    Eval.bind_ok (onHeap_cell "stream-cdr" hcell)
  rw [takeElements, if_neg (by simp), Eval.bind_ok (onHeap_cell "stream-take" hcell)]
  simp only [Eval.bind_apply, hafter]

theorem toCount?_natCast (hfits : Word.fitsSigned 64 n = true) :
    (Value.int n).toCount? = some n := by
  rw [toCount?_int, if_pos ⟨Int.natCast_nonneg n, hfits⟩, Int.toNat_natCast]

theorem streamTake_of_toCount? {count : Value} (hcount : count.toCount? = some n) (s : Value)
    (scope : Scope) : streamTake [s, count] scope = takeElements scope n s [] := by
  simp only [streamTake, hcount]

end Prelude

namespace World

/-- Run in the world, the computation comes to an end, with this result and in this world. -/
def Completes (w : World) (m : Eval Value) (out : Result × World) : Prop :=
  ∃ fuel, w.execute fuel m = some out

/-- **Going along a stream.**  Starting with the stream `s`, forcing one rest after the other
succeeds and reaches cells with these first elements.  The rest of the last cell is `rest`, which is
not forced; the world is then `w'`. -/
inductive Unrolls (scope : Scope) : (w : World) → (s : Value) → (heads : List Value) →
    (rest : Value) → (w' : World) → Prop
  | one {w : World} {l : Nat} {head rest : Value}
      (cell : w.state.heap.items l = [head, rest]) : Unrolls scope w (.list l) [head] rest w
  | more {w w' w'' : World} {l : Nat} {head rest s last : Value} {heads : List Value}
      (cell : w.state.heap.items l = [head, rest])
      (forced : w.Completes (Prelude.forceRest rest scope) (.ok s, w'))
      (others : Unrolls scope w' s heads last w'') :
      Unrolls scope w (.list l) (head :: heads) last w''

/-- The world with a new list. -/
def withList (w : World) (items : List Value) : World :=
  { w with state := { w.state with heap := (w.state.heap.newList items).2 } }

/-- The function that the name stands for in the prelude is called. -/
def calling (w : World) (name : String) (args : List Value) (scope : Scope) : Eval Value :=
  match w.state.scopes.lookup w.prelude name with
  | some (.function f) => (w.state.overloads f).call args scope
  | _ => Eval.fail (.unbound name)

variable {w w' : World} {m : Eval Value} {out out' : Result × World} {scope : Scope}
  {s rest : Value} {heads : List Value}

theorem completes_iff : w.Completes m out ↔ ∃ o, (w.machine m).EndsWith o ∧ w.leave o = out :=
  exists_execute_iff

theorem Completes.unique (h : w.Completes m out) (h' : w.Completes m out') : out = out' := by
  obtain ⟨o, hends, rfl⟩ := completes_iff.mp h
  obtain ⟨o', hends', rfl⟩ := completes_iff.mp h'
  rw [hends.unique hends']

theorem Completes.idle (h : w.Completes m out) (hidle : w.Idle) : out.2.Idle := by
  obtain ⟨⟨r, s, left, turn⟩, hends, rfl⟩ := completes_iff.mp h
  exact hends.idle (hidle.oneMain m)

/-- What is run depends on the state of the world only. -/
theorem completes_congr {m' : Eval Value} (h : m w.state = m' w.state) :
    w.Completes m out ↔ w.Completes m' out := by
  simp only [Completes, execute, machine, h]

/-- A computation that is done at once. -/
theorem completes_done {r : Result} {t : State} (h : m w.state = .done r t) :
    w.Completes m out ↔ out = (r, { w with state := t }) := by
  rw [completes_iff]
  have hended : (w.machine m).step = .ended r t w.waiting w.turn := by
    simp only [machine, h]
    rfl
  simp only [Machine.endsWith_of_ended hended, exists_eq_left]
  exact eq_comm

theorem completes_bind {f : Value → Eval Value} (hidle : w.Idle) :
    w.Completes (m >>= f) out ↔ ∃ r w', w.Completes m (r, w') ∧
      match r with
      | .ok v => w'.Completes (f v) out
      | .error e => out = (.error e, w') :=
  execute_bind hidle

/-- **The rest of the last cell is forced, too.**  The induction is along the stream; what has been
taken so far is arbitrary. -/
theorem completes_takeElements (hidle : w.Idle) (h : w.Unrolls scope s heads rest w')
    (done : List Value) (out : Result × World) :
    w.Completes (Prelude.takeElements scope heads.length s done) out ↔
      ∃ r w'', w'.Completes (Prelude.forceRest rest scope) (r, w'') ∧
        match r with
        | .ok _ =>
          out = (.ok (.list w''.state.heap.lists.size), w''.withList (done.reverse ++ heads))
        | .error e => out = (.error e, w'') := by
  induction h generalizing done with
  | @one w l head rest cell =>
      rw [List.length_singleton, completes_congr (Prelude.takeElements_cell cell),
        completes_bind hidle]
      refine exists_congr fun r => exists_congr fun w'' => and_congr_right fun _ => ?_
      cases r with
      | error e => rfl
      | ok v =>
          have hlist : Prelude.takeElements scope 0 v (head :: done) w''.state =
              .done (.ok (.list w''.state.heap.lists.size))
                (w''.withList (done.reverse ++ [head])).state := by
            rw [Prelude.takeElements, List.reverse_cons]
            rfl
          exact completes_done hlist
  | @more w w' w'' l head rest s last heads cell forced _ ih =>
      rw [List.length_cons, completes_congr (Prelude.takeElements_cell cell), completes_bind hidle]
      have hnext := ih (forced.idle hidle) (head :: done)
      rw [List.reverse_cons, List.append_assoc, List.singleton_append] at hnext
      rw [← hnext]
      constructor
      · rintro ⟨r, w₁, hforced, hrest⟩
        cases forced.unique hforced
        exact hrest
      · intro hrest
        exact ⟨_, _, forced, hrest⟩

/-- A function of the prelude that is a routine notes the call and runs the routine. -/
theorem calling_routine (limit : Nat) {name : String} {params : List Kind} {others : Option Kind}
    {r : Routine} {args : List Value} (scope : Scope)
    (hnamed : Overloads.named name (Prelude.core ++ Prelude.entries) =
      ⟨name, [Prelude.routine name params others r]⟩)
    (hargs : Entry.Matches others params args) :
    (new limit).calling name args scope = Eval.framed name (r.run args scope) := by
  have hmem : Prelude.routine name params others r ∈
      (Overloads.named name (Prelude.core ++ Prelude.entries)).entries := by
    rw [hnamed]
    exact List.mem_singleton_self _
  obtain ⟨f, hlookup, -, hset⟩ := (registered_new limit).found _ (Overloads.mem_named.mp hmem).1
  have hlookup : (new limit).state.scopes.lookup (new limit).prelude name = some (.function f) :=
    hlookup
  have hset : (new limit).state.overloads f =
      .named name (Prelude.core ++ Prelude.entries) := hset
  have hselected := Overloads.selected_sole hnamed hargs
  simp only [calling, hlookup, hset, Overloads.call, hselected]
  rfl

theorem calling_streamTake (limit : Nat) (s : Value) (n : Int) (scope : Scope) :
    (new limit).calling "stream-take" [s, .int n] scope =
      Eval.framed "stream-take" (Prelude.streamTake [s, .int n] scope) := by
  have hnamed : Overloads.named "stream-take" (Prelude.core ++ Prelude.entries) =
      ⟨"stream-take", [Prelude.routine "stream-take" [.any, .int] none .streamTake]⟩ := rfl
  exact calling_routine limit scope hnamed (by simp [Entry.Matches])

/-- **`stream-take` forces a rest after every element it takes.**  Let going along a stream reach
cells with the first elements `heads`, and let their number fit a word of 64 bits.  Then taking that
many elements ends if and only if the rest of the last cell, when it is forced next, comes to an
end.  If that succeeds, the result is a new list of the elements, in the world that this last
forcing has left; if it fails, taking the elements fails in the same way.

So nothing is lost if the rest of the last cell is not a function: then the result is the list of
the elements, in the world in which the last cell was reached.

The function of the prelude does this inside a call that it notes. -/
theorem stream_take_forces_last_rest (limit : Nat) (scope : Scope) :
    (∀ s n, (new limit).calling "stream-take" [s, .int n] scope =
      Eval.framed "stream-take" (Prelude.streamTake [s, .int n] scope)) ∧
    ∀ (w w' : World) (s : Value) (heads : List Value) (rest : Value), w.Idle →
      w.Unrolls scope s heads rest w' → Word.fitsSigned 64 heads.length = true →
      (∀ out, w.Completes (Prelude.streamTake [s, .int heads.length] scope) out ↔
        ∃ r w'', w'.Completes (Prelude.forceRest rest scope) (r, w'') ∧
          match r with
          | .ok _ => out = (.ok (.list w''.state.heap.lists.size), w''.withList heads)
          | .error e => out = (.error e, w'')) ∧
      ((∀ f, rest ≠ .function f) →
        w.Completes (Prelude.streamTake [s, .int heads.length] scope)
          (.ok (.list w'.state.heap.lists.size), w'.withList heads)) := by
  refine ⟨fun s n => calling_streamTake limit s n scope, ?_⟩
  intro w w' s heads rest hidle hunrolls hfits
  have htake := completes_takeElements hidle hunrolls []
  rw [Prelude.streamTake_of_toCount? (Prelude.toCount?_natCast hfits)]
  refine ⟨htake, fun hrest => (htake _).mpr ⟨.ok rest, w', ?_, rfl⟩⟩
  have hforce : Prelude.forceRest rest scope w'.state = .done (.ok rest) w'.state := by
    cases rest with
    | function f => exact absurd rfl (hrest f)
    | _ => rfl
  exact (completes_done hforce).mpr rfl

/-- A stream of two cells.  The rest of the second one makes a list, which is at address 2 when both
elements have been taken. -/
theorem stream_take_forces_last_rest_list :
    let tail : Entry := Prelude.fixed "tail" [] fun _ => HeapM.newList [.int 9]
    let state : State := {
      heap := { lists := #[.ofList [.int 1, .list 1], .ofList [.int 2, .function ⟨0, "tail"⟩]] }
      functions := #[.single tail] }
    let w : World := ⟨state, [], ⟨0, []⟩, ⟨0, []⟩, 10⟩
    ∃ w', w.Completes (Prelude.streamTake [.list 0, .int 2] ⟨0, []⟩) (.ok (.list 3), w') ∧
      w'.state.heap.items 2 = [.int 9] ∧ w'.state.heap.items 3 = [.int 1, .int 2] := by
  intro tail state w
  have hidle : w.Idle := fun f hf => absurd hf List.not_mem_nil
  have hsecond : w.Unrolls ⟨0, []⟩ (.list 1) [.int 2] (.function ⟨0, "tail"⟩) w := .one rfl
  have hboth : w.Unrolls ⟨0, []⟩ (.list 0) [.int 1, .int 2] (.function ⟨0, "tail"⟩) w :=
    .more rfl ⟨1, rfl⟩ hsecond
  have htake := ((stream_take_forces_last_rest 10 ⟨0, []⟩).2 w w _ _ _ hidle hboth (by decide)).1
  have hforced : w.Completes (Prelude.forceRest (.function ⟨0, "tail"⟩) ⟨0, []⟩)
      (.ok (.list 2), { w.withList [.int 9] with turn := 9 }) := ⟨3, rfl⟩
  exact ⟨_, (htake _).mpr ⟨_, _, hforced, rfl⟩, rfl, rfl⟩

/-- The first element of a stream is there without anything being forced, and is lost if the rest
behind it cannot be had: in a session, and for a cell in the heap. -/
theorem lost_element :
    (let session := ((new 10).newSession true).1
    let w := ((new 10).newSession true).2
    (w.evalText 300 session "(stream-ref (cons-stream 1 (car (list))) 0)").map Prod.fst =
      some (.ok (.int 1)) ∧
    (w.evalText 300 session "(stream-take (cons-stream 1 (car (list))) 1)").map Prod.fst =
      some (.error (.traced (.base (.eval (.emptyList "car"))) ["car", "delay", "stream-take"]))) ∧
    ∃ w : World, w.Idle ∧ w.Unrolls ⟨0, []⟩ (.list 0) [.int 1] (.function ⟨0, "tail"⟩) w ∧
      ∀ v w', ¬ w.Completes (Prelude.streamTake [.list 0, .int 1] ⟨0, []⟩) (.ok v, w') := by
  refine ⟨by decide +kernel, ?_⟩
  let tail : Entry := Prelude.fixed "tail" [] fun _ => HeapM.fail (.eval (.emptyList "car"))
  let state : State := {
    heap := { lists := #[.ofList [.int 1, .function ⟨0, "tail"⟩]] }
    functions := #[.single tail] }
  let w : World := ⟨state, [], ⟨0, []⟩, ⟨0, []⟩, 10⟩
  refine ⟨w, fun f hf => absurd hf List.not_mem_nil, .one rfl, fun v w' h => ?_⟩
  have hfails : w.Completes (Prelude.streamTake [.list 0, .int 1] ⟨0, []⟩)
      (.error (.traced (.base (.eval (.emptyList "car"))) ["tail"]), { w with turn := 9 }) :=
    ⟨4, rfl⟩
  cases h.unique hfails

end World

end DispatchLisp
