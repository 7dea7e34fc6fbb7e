import DispatchLisp.Proofs.Bindings
import DispatchLisp.Proofs.Sequel
import Mathlib.Algebra.Ring.Nat

/-! # A held lock excludes

Workers share a lock and a counter.  Each of them repeats the same work some number of times: it
takes the lock, reads the counter, writes back what it has read plus one, and frees the lock.  These
are the operations of the language, each of them carried out at once (`Worker.turn`).

* **Interleavings.**  A schedule says whose turn it is, step after step (`Crew.run`).  A step is
  possible unless the worker has finished, or wants the lock while it is held.  A turn that fails
  leaves the worker where it can do no more, with its error.
* **The invariant** (`Crew.Sound`).  The lock has no owner, so what keeps workers apart is the link
  between the lock and their stages: as many workers have it as it says, one or none.  A value that
  was read is therefore still the value of the counter when it is written back, and the counter and
  what the workers still have to add make up the same sum at all times.

`Crew.lock_excludes` draws the conclusions for every schedule. -/

namespace DispatchLisp

/-! ### What is carried out at once -/

/-- The end of a program that asks for no job and does not have to wait. -/
def Program.atOnce {α : Type} : Program α → Option (Except Error α × State)
  | .done r s => some (r, s)
  | .call .. => none
  | .await c s next => if c.holds s then (next s).atOnce else none

namespace Heap

theorem lockAt_setLock {h : Heap} {l : Nat} (hl : l < h.locks.size) (lock : Lock) :
    (h.setLock l lock).lockAt l = lock := by
  simp [lockAt, setLock, hl]

theorem size_setLock (h : Heap) (l : Nat) (lock : Lock) :
    (h.setLock l lock).locks.size = h.locks.size := by
  simp [setLock]

end Heap

/-! ### Workers -/

/-- Where a worker stands in its work. -/
inductive Stage where
  /-- Before it takes the lock. -/
  | outside
  /-- It has the lock. -/
  | entered
  /-- It has the lock and has read this value. -/
  | informed (v : Value)
  /-- It has the lock and has written. -/
  | written
  /-- Something has failed. -/
  | failed (e : Error)
deriving Inhabited

/-- What the workers share: a lock, and a name for the counter. -/
structure Task where
  lock : Nat
  counter : String

/-- A worker: the scope from which it sees the counter, where it stands, and how many times the work
is not yet complete. -/
structure Worker where
  scope : Scope
  stage : Stage
  left : Nat
deriving Inhabited

namespace Worker

/-- The worker is between its lock and its unlock. -/
def inside (w : Worker) : Bool :=
  match w.stage with
  | .entered | .informed _ | .written => true
  | .outside | .failed _ => false

/-- The worker has something left to do, and can go on. -/
def busy (w : Worker) : Bool :=
  match w.stage with
  | .outside => 0 < w.left
  | .failed _ => false
  | _ => true

/-- The next step of the work. -/
def turn (task : Task) (w : Worker) : Eval Worker :=
  match w.stage with
  | .outside => do
    let _ ← Prelude.lock [.lock task.lock]
    return { w with stage := .entered }
  | .entered => do
    let v ← Eval.attempt fun s => (s.get w.scope task.counter, s)
    return { w with stage := .informed v }
  | .informed v => do
    let sum ← Eval.onHeap (Prelude.onInts Prelude.sumInts [v, .int 1])
    Form.assign w.scope task.counter sum
    return { w with stage := .written }
  | .written => do
    let _ ← Eval.onHeap (Prelude.unlock [.lock task.lock])
    return { w with stage := .outside, left := w.left - 1 }
  | .failed e => Eval.throw e

/-- The worker after a turn with this result. -/
def settle (w : Worker) : Except Error Worker → Worker
  | .ok w' => w'
  | .error e => { w with stage := .failed e }

/-- The number of times that the worker has yet to write. -/
def due (w : Worker) : Nat :=
  match w.stage with
  | .written => w.left - 1
  | _ => w.left

/-- The worker is as it can be while the counter is `n`: it has not failed, and has read nothing
else. -/
def Fits (n : Int) (w : Worker) : Prop :=
  match w.stage with
  | .outside => True
  | .entered | .written => 0 < w.left
  | .informed v => 0 < w.left ∧ v = .int n
  | .failed _ => False

end Worker

/-- The state, and the workers. -/
structure Crew where
  state : State
  workers : List Worker

namespace Crew

/-- It is the turn of a worker, which must be able to go on. -/
def step (task : Task) (c : Crew) (i : Nat) : Option Crew :=
  match c.workers[i]? with
  | none => none
  | some w =>
    if w.busy then
      (w.turn task c.state).atOnce.map fun (r, s) => ⟨s, c.workers.set i (w.settle r)⟩
    else none

/-- The workers take turns in a given order. -/
def run (task : Task) (c : Crew) : List Nat → Option Crew
  | [] => some c
  | i :: schedule => (c.step task i).bind fun c' => c'.run task schedule

end Crew

/-! ### What a turn does -/

theorem Prelude.unlock_eq (l : Nat) (h : Heap) :
    unlock [.lock l] h =
      (if (h.lockAt l).held then .ok .nil else .error (.base (.eval .lockNotHeld)),
        h.setLock l ⟨false⟩) := by
  have hrun : unlock [.lock l] h =
      (if (h.lockAt l).held then (pure .nil : HeapM Value) else HeapM.fail (.eval .lockNotHeld))
        (h.setLock l ⟨false⟩) := rfl
  rw [hrun]
  split <;> rfl

namespace Worker

variable {task : Task} {w : Worker} {s : State}

/-- The lock can be taken only while it is free, and is held afterwards. -/
theorem atOnce_turn_outside (hw : w.stage = .outside) :
    (w.turn task s).atOnce =
      if (s.heap.lockAt task.lock).held then none
      else some (.ok { w with stage := .entered },
        { s with heap := s.heap.setLock task.lock ⟨true⟩ }) := by
  have hprogram : (w.turn task s).atOnce =
      if Condition.holds s (.free task.lock) then
        let lock := s.heap.lockAt task.lock
        some (.ok { w with stage := .entered },
          { s with heap := s.heap.setLock task.lock (lock.acquire?.getD lock) })
      else none := by
    unfold turn
    rw [hw]
    rfl
  rw [hprogram]
  cases hheld : (s.heap.lockAt task.lock).held <;>
    simp [Condition.holds, Lock.acquire?, hheld]

theorem turn_entered {v : Value} (hw : w.stage = .entered)
    (hv : s.scopes.lookup w.scope task.counter = some v) :
    w.turn task s = .done (.ok { w with stage := .informed v }) s := by
  have hread : Eval.attempt (fun s => (s.get w.scope task.counter, s)) s = .done (.ok v) s := by
    simp only [Eval.attempt, State.get, hv]
  unfold turn
  rw [hw]
  exact Eval.bind_ok hread

theorem turn_informed {n : Int} {owner : Nat} (hw : w.stage = .informed (.int n))
    (howner : s.scopes.owner? w.scope task.counter = some owner) :
    w.turn task s = .done (.ok { w with stage := .written })
      { s with scopes := s.scopes.rebind owner task.counter (.int (n + 1)) } := by
  have hsum : Eval.onHeap (Prelude.onInts Prelude.sumInts [.int n, .int 1]) s =
      .done (.ok (.int (n + 1))) s := by
    have hvalue : [n, 1].foldl (· + ·) 0 = n + 1 := by simp
    rw [← hvalue]
    rfl
  unfold turn
  rw [hw]
  exact (Eval.bind_ok hsum).trans (Eval.bind_ok (Form.assign_of_owner? howner (.int (n + 1))))

/-- Freeing the lock fails if it is not held. -/
theorem turn_written (hw : w.stage = .written) :
    w.turn task s = .done
      (if (s.heap.lockAt task.lock).held then .ok { w with stage := .outside, left := w.left - 1 }
        else .error (.base (.eval .lockNotHeld)))
      { s with heap := s.heap.setLock task.lock ⟨false⟩ } := by
  have hunlock : Eval.onHeap (Prelude.unlock [.lock task.lock]) s =
      .done (if (s.heap.lockAt task.lock).held then .ok .nil
          else .error (.base (.eval .lockNotHeld)))
        { s with heap := s.heap.setLock task.lock ⟨false⟩ } := by
    simp only [Eval.onHeap, Eval.attempt, State.onHeap, Prelude.unlock_eq]
  unfold turn
  rw [hw]
  cases hheld : (s.heap.lockAt task.lock).held with
  | true =>
      rw [hheld] at hunlock
      exact Eval.bind_ok hunlock
  | false =>
      rw [hheld] at hunlock
      exact Eval.bind_error hunlock

theorem busy_of_inside (h : w.inside = true) : w.busy = true := by
  unfold inside at h
  unfold busy
  cases hw : w.stage <;> simp_all

theorem Fits.of_not_inside {n m : Int} (h : w.Fits n) (hinside : w.inside = false) :
    w.Fits m := by
  unfold Fits inside at *
  cases hw : w.stage <;> simp_all

end Worker

/-! ### The invariant -/

namespace Crew

variable {task : Task} {owner : Nat} {goal n : Int} {s : State} {w : Worker}
  {before after : List Worker} {c c' : Crew}

/-- What holds of a crew at all times, while the counter is `n`. -/
structure Sound (task : Task) (owner : Nat) (goal n : Int) (c : Crew) : Prop where
  lock : task.lock < c.state.heap.locks.size
  /-- As many workers are inside as the lock says. -/
  held : c.workers.countP Worker.inside = (c.state.heap.lockAt task.lock).held.toNat
  /-- All workers see the same binding of the counter. -/
  shared : ∀ w ∈ c.workers, c.state.scopes.owner? w.scope task.counter = some owner
  counter : (c.state.scopes.frame owner).get? task.counter = some (.int n)
  /-- What is there and what will be added make up the goal. -/
  sum : n + ((c.workers.map Worker.due).sum : Nat) = goal
  fits : ∀ w ∈ c.workers, w.Fits n

section

variable {P : Worker → Prop} {p : Worker → Bool} {f : Worker → Nat}

theorem forall_mem_middle :
    (∀ u ∈ before ++ w :: after, P u) ↔ P w ∧ ∀ u ∈ before ++ after, P u := by
  rw [List.forall_mem_append, List.forall_mem_cons, List.forall_mem_append, and_left_comm]

theorem countP_middle :
    (before ++ w :: after).countP p = (before ++ after).countP p + (p w).toNat := by
  rw [List.countP_append, List.countP_cons, List.countP_append]
  cases p w
  · simp
  · simp only [if_true, Bool.toNat_true]
    omega

theorem sum_middle :
    ((before ++ w :: after).map f).sum = ((before ++ after).map f).sum + f w := by
  simp only [List.map_append, List.map_cons, List.sum_append, List.sum_cons]
  omega

end

namespace Sound

theorem others_outside (h : Sound task owner goal n ⟨s, before ++ w :: after⟩)
    (hw : w.inside = true) : ∀ u ∈ before ++ after, u.inside = false := by
  have hcount : _ = (s.heap.lockAt task.lock).held.toNat := h.held
  rw [countP_middle, hw, Bool.toNat_true] at hcount
  have hle := Bool.toNat_le (s.heap.lockAt task.lock).held
  have hzero : (before ++ after).countP Worker.inside = 0 := by omega
  simpa using List.countP_eq_zero.mp hzero

/-- One worker and the state change.  The lock must go with the worker's stage, and the counter with
what the worker has still to add. -/
theorem replace (h : Sound task owner goal n ⟨s, before ++ w :: after⟩) {s' : State} {w' : Worker}
    {m : Int} (hscope : w'.scope = w.scope)
    (hsize : s'.heap.locks.size = s.heap.locks.size)
    (hheld : (s'.heap.lockAt task.lock).held.toNat + w.inside.toNat =
      (s.heap.lockAt task.lock).held.toNat + w'.inside.toNat)
    (howner : ∀ e, s'.scopes.owner? e task.counter = s.scopes.owner? e task.counter)
    (hcounter : (s'.scopes.frame owner).get? task.counter = some (.int m))
    (hdue : m + w'.due = n + w.due) (hfits : w'.Fits m)
    (hothers : ∀ u ∈ before ++ after, u.Fits n → u.Fits m) :
    Sound task owner goal m ⟨s', before ++ w' :: after⟩ where
  lock := hsize ▸ h.lock
  held := by
    have hcount := h.held
    rw [countP_middle] at hcount ⊢
    simp only at hcount ⊢
    omega
  shared := by
    obtain ⟨hw, hrest⟩ := forall_mem_middle.mp h.shared
    refine forall_mem_middle.mpr ⟨?_, fun u hu => ?_⟩
    · rw [howner, hscope]
      exact hw
    · rw [howner]
      exact hrest u hu
  counter := hcounter
  sum := by
    have hsum := h.sum
    rw [sum_middle] at hsum ⊢
    push_cast at hsum ⊢
    omega
  fits := by
    obtain ⟨-, hrest⟩ := forall_mem_middle.mp h.fits
    exact forall_mem_middle.mpr ⟨hfits, fun u hu => hothers u hu (hrest u hu)⟩

theorem enter (h : Sound task owner goal n ⟨s, before ++ w :: after⟩) (hw : w.stage = .outside)
    (hleft : 0 < w.left) (hfree : (s.heap.lockAt task.lock).held = false) :
    Sound task owner goal n ⟨{ s with heap := s.heap.setLock task.lock ⟨true⟩ },
      before ++ { w with stage := .entered } :: after⟩ := by
  refine h.replace rfl (Heap.size_setLock _ _ _) ?_ (fun _ => rfl) h.counter ?_ hleft
    fun _ _ hu => hu
  · simp only [Heap.lockAt_setLock h.lock, hfree, Worker.inside, hw]
    rfl
  · simp only [Worker.due, hw]

theorem read (h : Sound task owner goal n ⟨s, before ++ w :: after⟩) (hw : w.stage = .entered) :
    Sound task owner goal n ⟨s, before ++ { w with stage := .informed (.int n) } :: after⟩ := by
  have hfits := (forall_mem_middle.mp h.fits).1
  simp only [Worker.Fits, hw] at hfits
  refine h.replace rfl rfl ?_ (fun _ => rfl) h.counter ?_ ⟨hfits, rfl⟩ fun _ _ hu => hu
  · simp only [Worker.inside, hw]
  · simp only [Worker.due, hw]

/-- All other workers are outside, so none of them has read the value that is overwritten. -/
theorem write (h : Sound task owner goal n ⟨s, before ++ w :: after⟩)
    (hw : w.stage = .informed (.int n)) :
    Sound task owner goal (n + 1)
      ⟨{ s with scopes := s.scopes.rebind owner task.counter (.int (n + 1)) },
        before ++ { w with stage := .written } :: after⟩ := by
  have hinside : w.inside = true := by simp only [Worker.inside, hw]
  have hfits := (forall_mem_middle.mp h.fits).1
  simp only [Worker.Fits, hw, and_true] at hfits
  have hbinds : (s.scopes.frame owner).binds task.counter = true := by
    rw [← Frame.isSome_get?, h.counter]
    rfl
  refine h.replace rfl rfl ?_ (fun e => ?_) ?_ ?_ hfits fun u hu hfit => ?_
  · simp only [Worker.inside, hw]
  · exact Scopes.ownerIn?_congr fun i _ => Scopes.binds_rebind hbinds _ i _
  · rw [Scopes.get?_rebind (Scopes.lt_size_of_binds hbinds), if_pos ⟨rfl, rfl⟩]
  · simp only [Worker.due, hw]
    omega
  · exact hfit.of_not_inside (h.others_outside hinside u hu)

/-- A worker that is about to free the lock holds it. -/
theorem leave (h : Sound task owner goal n ⟨s, before ++ w :: after⟩) (hw : w.stage = .written) :
    (s.heap.lockAt task.lock).held = true ∧
      Sound task owner goal n ⟨{ s with heap := s.heap.setLock task.lock ⟨false⟩ },
        before ++ { w with stage := .outside, left := w.left - 1 } :: after⟩ := by
  have hinside : w.inside = true := by simp only [Worker.inside, hw]
  have hheld : (s.heap.lockAt task.lock).held = true := by
    have hcount := h.held
    rw [countP_middle, hinside] at hcount
    cases hlock : (s.heap.lockAt task.lock).held with
    | true => rfl
    | false =>
        rw [hlock, Bool.toNat_true, Bool.toNat_false] at hcount
        omega
  refine ⟨hheld, h.replace rfl (Heap.size_setLock _ _ _) ?_ (fun _ => rfl) h.counter ?_ trivial
    fun _ _ hu => hu⟩
  · simp only [Heap.lockAt_setLock h.lock, hheld, hinside]
    rfl
  · simp only [Worker.due, hw]

end Sound

/-! ### Schedules -/

/-- What a step can be. -/
theorem exists_of_step {i : Nat} (h : c.step task i = some c') :
    ∃ before w after r s, c.workers = before ++ w :: after ∧ w.busy = true ∧
      (w.turn task c.state).atOnce = some (r, s) ∧ c' = ⟨s, before ++ w.settle r :: after⟩ := by
  unfold step at h
  split at h
  case h_1 => cases h
  case h_2 w hw =>
    split at h
    case isTrue hbusy =>
      obtain ⟨⟨r, s⟩, hturn, rfl⟩ := Option.map_eq_some_iff.mp h
      obtain ⟨hi, rfl⟩ := List.getElem?_eq_some_iff.mp hw
      refine ⟨c.workers.take i, c.workers[i], c.workers.drop (i + 1), r, s, ?_, hbusy, hturn, ?_⟩
      · rw [← List.drop_eq_getElem_cons hi, List.take_append_drop]
      · refine congrArg (Crew.mk s) ?_
        rw [List.set_eq_take_append_cons_drop, if_pos hi]
    case isFalse => cases h

/-- **One turn keeps the invariant.** -/
theorem Sound.step (h : Sound task owner goal n c) {i : Nat} (hstep : c.step task i = some c') :
    ∃ m, Sound task owner goal m c' := by
  obtain ⟨before, w, after, r, s', hworkers, hbusy, hturn, rfl⟩ := exists_of_step hstep
  obtain ⟨s, workers⟩ := c
  obtain rfl : workers = before ++ w :: after := hworkers
  have hfits := (forall_mem_middle.mp h.fits).1
  cases hw : w.stage with
  | outside =>
      simp only [Worker.busy, hw, decide_eq_true_eq] at hbusy
      simp only [Worker.atOnce_turn_outside hw] at hturn
      cases hheld : (s.heap.lockAt task.lock).held with
      | true =>
          -- The worker has to wait, so it cannot have been its turn.
          rw [hheld] at hturn
          cases hturn
      | false =>
          rw [hheld] at hturn
          cases hturn
          exact ⟨n, h.enter hw hbusy hheld⟩
  | entered =>
      have hlookup : s.scopes.lookup w.scope task.counter = some (.int n) :=
        (Scopes.lookupIn_of_ownerIn? (forall_mem_middle.mp h.shared).1).trans h.counter
      simp only [Worker.turn_entered hw hlookup] at hturn
      cases hturn
      exact ⟨n, h.read hw⟩
  | informed v =>
      -- What was read is still the value of the counter.
      simp only [Worker.Fits, hw] at hfits
      rw [hfits.2] at hw
      simp only [Worker.turn_informed hw (forall_mem_middle.mp h.shared).1] at hturn
      cases hturn
      exact ⟨n + 1, h.write hw⟩
  | written =>
      obtain ⟨hheld, hleft⟩ := h.leave hw
      simp only [Worker.turn_written hw, hheld] at hturn
      cases hturn
      exact ⟨n, hleft⟩
  | failed e =>
      simp only [Worker.Fits, hw] at hfits

/-- **A run keeps the invariant.** -/
theorem Sound.run (h : Sound task owner goal n c) {schedule : List Nat}
    (hrun : c.run task schedule = some c') : ∃ m, Sound task owner goal m c' := by
  induction schedule generalizing c n with
  | nil =>
      cases hrun
      exact ⟨n, h⟩
  | cons i schedule ih =>
      obtain ⟨c₁, hstep, hrest⟩ := Option.bind_eq_some_iff.mp hrun
      obtain ⟨m, hm⟩ := h.step hstep
      exact ih hm hrest

theorem exists_step {out : Except Error Worker × State} (hw : w ∈ c.workers)
    (hbusy : w.busy = true) (hturn : (w.turn task c.state).atOnce = some out) :
    ∃ i c', c.step task i = some c' := by
  obtain ⟨i, hi⟩ := List.mem_iff_getElem?.mp hw
  refine ⟨i, ⟨out.2, c.workers.set i (w.settle out.1)⟩, ?_⟩
  simp only [step, hi, hbusy, if_true, hturn]
  rfl

namespace Sound

/-- A worker that is inside can go on. -/
theorem exists_turn (h : Sound task owner goal n c) (hw : w ∈ c.workers)
    (hinside : w.inside = true) : ∃ out, (w.turn task c.state).atOnce = some out := by
  have hfits := h.fits w hw
  have howner := h.shared w hw
  unfold Worker.inside at hinside
  unfold Worker.Fits at hfits
  cases hstage : w.stage with
  | outside => simp [hstage] at hinside
  | entered =>
      have hlookup := (Scopes.lookupIn_of_ownerIn? howner).trans h.counter
      rw [Worker.turn_entered hstage hlookup]
      exact ⟨_, rfl⟩
  | informed v =>
      rw [hstage] at hfits
      rw [hfits.2] at hstage
      rw [Worker.turn_informed hstage howner]
      exact ⟨_, rfl⟩
  | written =>
      rw [Worker.turn_written hstage]
      exact ⟨_, rfl⟩
  | failed e => simp [hstage] at hinside

/-- A worker that is not inside is before its lock. -/
theorem stage_of_not_inside (h : Sound task owner goal n c) (hw : w ∈ c.workers)
    (hinside : w.inside = false) : w.stage = .outside := by
  have hfits := h.fits w hw
  unfold Worker.inside at hinside
  unfold Worker.Fits at hfits
  cases hstage : w.stage with
  | outside => rfl
  | failed e => simp [hstage] at hfits
  | entered => simp [hstage] at hinside
  | informed v => simp [hstage] at hinside
  | written => simp [hstage] at hinside

/-- **Someone can go on** as long as someone has something left to do. -/
theorem progress (h : Sound task owner goal n c) (hw : w ∈ c.workers) (hbusy : w.busy = true) :
    ∃ i c', c.step task i = some c' := by
  -- Whoever is inside can go on; if nobody is, the lock is free for the worker.
  by_cases hinside : ∃ u ∈ c.workers, u.inside = true
  · obtain ⟨u, hu, hinside⟩ := hinside
    obtain ⟨out, hturn⟩ := h.exists_turn hu hinside
    exact exists_step hu (Worker.busy_of_inside hinside) hturn
  · have hnone : c.workers.countP Worker.inside = 0 :=
      List.countP_eq_zero.mpr fun u hu hin => hinside ⟨u, hu, hin⟩
    have hfree : (c.state.heap.lockAt task.lock).held = false := by
      rw [h.held] at hnone
      exact Bool.toNat_eq_zero.mp hnone
    have hstage : w.stage = .outside := by
      refine h.stage_of_not_inside hw ?_
      exact Bool.eq_false_iff.mpr fun hin => hinside ⟨w, hw, hin⟩
    have hturn : (w.turn task c.state).atOnce = _ := Worker.atOnce_turn_outside hstage
    rw [hfree] at hturn
    exact exists_step hw hbusy hturn

/-- In the end there is nothing left to add. -/
theorem counter_of_finished (h : Sound task owner goal n c)
    (hfinished : ∀ w ∈ c.workers, w.busy = false) : n = goal := by
  have hdue : ∀ w ∈ c.workers, w.due = 0 := by
    intro w hw
    have hstage : w.stage = .outside := by
      refine h.stage_of_not_inside hw (Bool.eq_false_iff.mpr fun hin => ?_)
      exact Bool.eq_false_iff.mp (hfinished w hw) (Worker.busy_of_inside hin)
    have hbusy := hfinished w hw
    simp only [Worker.busy, hstage, decide_eq_false_iff_not] at hbusy
    simp only [Worker.due, hstage]
    omega
  have hzero : (c.workers.map Worker.due).sum = 0 :=
    List.sum_eq_zero_iff_forall_eq_nat.mpr (List.forall_mem_map.mpr hdue)
  have hsum := h.sum
  rw [hzero] at hsum
  omega

end Sound

/-! ### The main result -/

/-- At the beginning the lock is free, all workers are outside, and they see one binding of the
counter, which is `n`. -/
structure Starts (task : Task) (owner : Nat) (n : Int) (c : Crew) : Prop where
  lock : task.lock < c.state.heap.locks.size
  free : (c.state.heap.lockAt task.lock).held = false
  shared : ∀ w ∈ c.workers, c.state.scopes.owner? w.scope task.counter = some owner
  counter : (c.state.scopes.frame owner).get? task.counter = some (.int n)
  outside : ∀ w ∈ c.workers, w.stage = .outside

/-- How many times the work will be done in all. -/
def total (c : Crew) : Nat := (c.workers.map Worker.left).sum

theorem Starts.sound (h : c.Starts task owner n) : Sound task owner (n + c.total) n c where
  lock := h.lock
  held := by
    rw [h.free, Bool.toNat_false]
    refine List.countP_eq_zero.mpr fun w hw => ?_
    simp [Worker.inside, h.outside w hw]
  shared := h.shared
  counter := h.counter
  sum := by
    have hdue : ∀ w ∈ c.workers, w.due = w.left := by
      intro w hw
      simp only [Worker.due, h.outside w hw]
    rw [total, List.map_congr_left hdue]
  fits w hw := by simp [Worker.Fits, h.outside w hw]

/-- **A held lock excludes.**  Let any number of workers, each with any number of repetitions to do,
take turns in any order.  At every moment:

* at most one worker is between its lock and its unlock, and the lock is held if and only if there
  is exactly one;
* nothing has failed: no lock was freed that was not held;
* if all workers have finished, the counter has grown by the number of all repetitions;
* if some worker has not, some worker can take a turn. -/
theorem lock_excludes (h : c.Starts task owner n) {schedule : List Nat}
    (hrun : c.run task schedule = some c') :
    c'.workers.countP Worker.inside ≤ 1 ∧
    ((c'.state.heap.lockAt task.lock).held = true ↔ c'.workers.countP Worker.inside = 1) ∧
    (∀ w ∈ c'.workers, ∀ e, w.stage ≠ .failed e) ∧
    ((∀ w ∈ c'.workers, w.busy = false) →
      (c'.state.scopes.frame owner).get? task.counter = some (.int (n + c.total))) ∧
    ((∃ w ∈ c'.workers, w.busy = true) → ∃ i c'', c'.step task i = some c'') := by
  obtain ⟨m, hsound⟩ := h.sound.run hrun
  refine ⟨?_, ?_, ?_, ?_, ?_⟩
  · rw [hsound.held]
    exact Bool.toNat_le _
  · rw [hsound.held, Bool.toNat_eq_one]
  · intro w hw e hfailed
    have hfits := hsound.fits w hw
    simp only [Worker.Fits, hfailed] at hfits
  · intro hfinished
    rw [← hsound.counter_of_finished hfinished]
    exact hsound.counter
  · rintro ⟨w, hw, hbusy⟩
    exact hsound.progress hw hbusy

/-- Two workers in sibling scopes, of which the second works twice.  While the first is inside, the
second can do nothing but wait. -/
theorem lock_excludes_two :
    let task : Task := ⟨0, "c"⟩
    let s : State := { scopes := ⟨#[[("c", .int 5)], [], []]⟩, heap := { locks := #[{}] } }
    let crew : Crew := ⟨s, [⟨⟨1, [0]⟩, .outside, 1⟩, ⟨⟨2, [0]⟩, .outside, 2⟩]⟩
    (∃ c', crew.run task [0, 0] = some c' ∧ c'.step task 1 = none ∧
      (c'.state.heap.lockAt 0).held = true ∧ c'.workers.countP Worker.inside = 1) ∧
    ∃ c', crew.run task [1, 1, 1, 1, 0, 0, 0, 0, 1, 1, 1, 1] = some c' ∧
      (c'.state.scopes.frame 0).get? "c" = some (.int 8) := by
  intro task s crew
  have hstarts : crew.Starts task 0 5 := by
    refine ⟨by decide, rfl, by decide, rfl, ?_⟩
    simp [crew]
  constructor
  · have hmiddle : ((crew.run task [0, 0]).map fun c' =>
        ((c'.step task 1).isNone, (c'.state.heap.lockAt 0).held)) = some (true, true) := by
      decide +kernel
    obtain ⟨c', hrun, heq⟩ := Option.map_eq_some_iff.mp hmiddle
    obtain ⟨hblocked, hheld⟩ := Prod.mk.inj heq
    obtain ⟨-, hcount, -⟩ := lock_excludes hstarts hrun
    exact ⟨c', hrun, Option.isNone_iff_eq_none.mp hblocked, hheld, hcount.mp hheld⟩
  · have hend : ((crew.run task [1, 1, 1, 1, 0, 0, 0, 0, 1, 1, 1, 1]).map fun c' =>
        c'.workers.all fun w => !w.busy) = some true := by
      decide +kernel
    obtain ⟨c', hrun, hfinished⟩ := Option.map_eq_some_iff.mp hend
    obtain ⟨-, -, -, hcounter, -⟩ := lock_excludes hstarts hrun
    exact ⟨c', hrun, hcounter (by simpa using hfinished)⟩

end Crew

end DispatchLisp
