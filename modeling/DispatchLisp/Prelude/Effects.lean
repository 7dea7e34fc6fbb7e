import DispatchLisp.Prelude.HigherOrder

/-! # Output, locks and threads

Printing appends to the output.  A thread calls a function of no arguments; it starts with no calls
running and at depth zero, and its result can be asked for once.  Taking a lock, joining a thread
and sleeping may have to wait. -/

namespace DispatchLisp.Prelude

/-! ### Output -/

/-- The texts of values, separated by spaces. -/
def displayAll (h : Heap) (args : List Value) : String := " ".intercalate (args.map h.display)

/-- `(print v ...)` -/
def print (args : List Value) : Eval Value := do
  let text ← Eval.reads fun s => displayAll s.heap args
  Eval.modify (·.print text)
  return .nil

/-- `(println v ...)` -/
def printLine (args : List Value) : Eval Value := do
  let text ← Eval.reads fun s => displayAll s.heap args
  Eval.modify (·.print (text ++ "\n"))
  return .nil

/-- `(newline)` -/
def newLine : Eval Value := do
  Eval.modify (·.print "\n")
  return .nil

/-- The printing functions. -/
def output : List Entry := [
  routine "print" [] (some .any) .print,
  routine "println" [] (some .any) .printLine,
  routine "newline" [] none .newLine]

/-! ### Locks -/

/-- `(make-lock)` -/
def makeLock : List Value → HeapM Value
  | [] => HeapM.update (·.newLock {})
  | args => refuse args

/-- `(lock l)` waits until the lock is free and takes it. -/
def lock (args : List Value) : Eval Value :=
  match args with
  | [.lock l] => do
    Eval.await (.free l)
    Eval.onHeap (HeapM.modify fun h => h.setLock l ((h.lockAt l).acquire?.getD (h.lockAt l)))
    return .nil
  | args => refuseCall args

/-- `(unlock l)` frees the lock, which must be held. -/
def unlock : List Value → HeapM Value
  | [.lock l] => do
    let wasHeld ← HeapM.update fun h =>
      let (wasHeld, lock) := (h.lockAt l).release
      (wasHeld, h.setLock l lock)
    if wasHeld then pure .nil else HeapM.fail (.eval .lockNotHeld)
  | args => refuse args

/-- `(is-locked l)` -/
def isLocked : List Value → HeapM Value
  | [.lock l] => HeapM.reads fun h => .bool (h.lockAt l).held
  | args => refuse args

/-! ### Threads -/

/-- `(thread f)` makes a thread that calls `f`. -/
def thread (args : List Value) (scope : Scope) : Eval Value :=
  match args with
  | [.function f] => do
    let inner ← Eval.newChild scope
    Eval.update fun s =>
      let name := f.name ++ "-" ++ toString s.threads.size
      (.thread ⟨s.threads.size, name⟩,
        { s with threads := s.threads.push ⟨name, .fresh (.function f) inner, false⟩ })
  | args => refuseCall args

/-- Notes that someone asks for a thread's result, which can be done once. -/
def markJoined (t : ThreadRef) : Eval Unit := fun s =>
  if s.threads[t.id]?.any (·.joined) then
    .done (.error (.base (.eval (.alreadyJoined t.name)))) s
  else .done (.ok ()) { s with threads := s.threads.modify t.id fun r => { r with joined := true } }

/-- The result of a finished thread. -/
def resultOf (t : ThreadRef) : Eval Value := fun s =>
  match s.threads[t.id]? with
  | some ⟨_, .finished r, _⟩ => .done r s
  | _ => .done (.ok .nil) s

/-- `(thread-join t)` waits until the thread has finished and gives its result. -/
def threadJoin (args : List Value) : Eval Value :=
  match args with
  | [.thread t] => do
    markJoined t
    Eval.await (.finished t.id)
    resultOf t
  | args => refuseCall args

/-- `(thread-alive t)`: the thread has not finished, and nobody has asked for its result. -/
def threadAlive (args : List Value) : Eval Value :=
  match args with
  | [.thread t] =>
    Eval.reads fun s =>
      .bool (s.threads[t.id]?.any fun r => !r.joined && !Condition.holds s (.finished t.id))
  | args => refuseCall args

/-- `(sleep n)` waits for `n` milliseconds. -/
def sleep (args : List Value) : Eval Value :=
  match args with
  | [v] =>
    match v.toCount? with
    | some n => do
      let now ← Eval.reads (·.clock)
      Eval.await (.reached (now + n))
      return .nil
    | none => do
      let text ← Eval.reads fun s => s.heap.print v
      Eval.fail (.eval (.badDuration "sleep" text))
  | args => refuseCall args

/-- The functions on locks and threads. -/
def concurrency : List Entry := [
  fixed "make-lock" [] makeLock,
  routine "lock" [.lock] none .lock,
  fixed "unlock" [.lock] unlock,
  fixed "is-locked" [.lock] isLocked,
  routine "thread" [.function] none .thread,
  routine "thread-join" [.thread] none .threadJoin,
  routine "thread-alive" [.thread] none .threadAlive,
  routine "sleep" [.int] none .sleep]

end DispatchLisp.Prelude
