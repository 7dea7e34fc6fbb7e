import DispatchLisp.Prelude.HigherOrder

/-! # Streams

A stream is the empty stream or a cell: a list of two items, the first element and the rest.  The
rest is a function of no arguments that gives the stream of the further elements when it is called,
or that stream itself.

The lazy combinators give a cell whose rest is a routine that remembers what is still to be done. -/

namespace DispatchLisp.Prelude

/-- The first element and the rest of a cell. -/
def cell (operation : String) (stream : Value) : HeapM (Value × Value) :=
  match stream with
  | .emptyStream => HeapM.fail (.eval (.emptyStream operation))
  | .list l => do
    match ← HeapM.items l with
    | [head, rest] => pure (head, rest)
    | items => HeapM.fail (.eval (.notACell operation items.length))
  | v => HeapM.fail (.kind "list" v.kindName)

/-- The first elements and the rests of cells. -/
def cells (operation : String) : List Value → HeapM (List Value × List Value)
  | [] => pure ([], [])
  | s :: ss => do
    let (head, rest) ← cell operation s
    let (heads, rests) ← cells operation ss
    pure (head :: heads, rest :: rests)

/-- One of the streams is empty. -/
def anyEmpty (streams : List Value) : Bool := streams.any (· == .emptyStream)

/-! ### Forcing -/

/-- The stream that the rest of a cell stands for. -/
def forceRest (rest : Value) (scope : Scope) : Eval Value :=
  match rest with
  | .function f => Eval.apply (.function f) [] scope
  | v => pure v

/-- The streams that rests stand for; those forced so far are in `done`, the last one first. -/
def forceRests (scope : Scope) (done : List Value) : List Value → Eval (List Value)
  | [] => pure done.reverse
  | r :: rs => do
    let s ← forceRest r scope
    forceRests scope (s :: done) rs

/-- The stream after the first element. -/
def after (stream : Value) (scope : Scope) : Eval Value := do
  let (_, rest) ← Eval.onHeap (cell "stream-cdr" stream)
  forceRest rest scope

/-- `(force v)`: a function is called, any other value is its own result. -/
def force (args : List Value) (scope : Scope) : Eval Value :=
  match args with
  | [v] => forceRest v scope
  | args => refuseCall args

/-- `(force v)` of a value that is not a function. -/
def forced : List Value → HeapM Value
  | [v] => pure v
  | args => refuse args

/-! ### Elements -/

/-- `(empty-stream? v)` -/
def isEmptyStream : List Value → HeapM Value
  | [v] => pure (.bool (v == .emptyStream))
  | args => refuse args

/-- `(stream-car stream)` -/
def streamFirst : List Value → HeapM Value
  | [s] => do
    let (head, _) ← cell "stream-car" s
    pure head
  | args => refuse args

/-- `(stream-cdr stream)` -/
def streamRest (args : List Value) (scope : Scope) : Eval Value :=
  match args with
  | [s] => after s scope
  | args => refuseCall args

/-- The stream after its first `n` elements. -/
def dropElements (scope : Scope) : Nat → Value → Eval Value
  | 0, s => pure s
  | n + 1, s => do
    let s ← after s scope
    dropElements scope n s

/-- `(stream-ref stream i)` -/
def streamRef (args : List Value) (scope : Scope) : Eval Value :=
  match args with
  | [s, i] =>
    match i.toCount? with
    | some n => do
      let s ← dropElements scope n s
      let (head, _) ← Eval.onHeap (cell "stream-ref" s)
      pure head
    | none => do
      let text ← Eval.reads fun s => s.heap.print i
      Eval.fail (.eval (.badIndex "stream-ref" text))
  | args => refuseCall args

/-- Takes at most `n` elements; those taken so far are in `done`, the last one first.  The rest is
forced after each element that is taken. -/
def takeElements (scope : Scope) : Nat → Value → List Value → Eval Value
  | 0, _, done => Eval.newList done.reverse
  | n + 1, s, done =>
    if s = .emptyStream then Eval.newList done.reverse
    else do
      let (head, _) ← Eval.onHeap (cell "stream-take" s)
      let s ← after s scope
      takeElements scope n s (head :: done)

/-- `(stream-take stream n)` -/
def streamTake (args : List Value) (scope : Scope) : Eval Value :=
  match args with
  | [s, count] =>
    match count.toCount? with
    | some n => takeElements scope n s []
    | none => do
      let text ← Eval.reads fun s => s.heap.print count
      Eval.fail (.eval (.badCount "stream-take" text))
  | args => refuseCall args

/-! ### Combinators -/

/-- A cell whose rest is a routine. -/
def lazyCell (operation : String) (head : Value) (rest : Routine) : Eval Value := do
  let promise ← Eval.newFunction ⟨operation, [], none, .routine rest⟩
  Eval.newList [head, promise]

/-- The stream of the results of `f` on the elements of streams in step. -/
def mapStreams (f : Value) (streams : List Value) (scope : Scope) : Eval Value :=
  if anyEmpty streams then pure .emptyStream
  else do
    let (heads, rests) ← Eval.onHeap (cells "stream-map" streams)
    let head ← Eval.apply f heads scope
    lazyCell "stream-map" head (.mapRest f rests)

/-- `(stream-map f stream ...)` -/
def streamMap (args : List Value) (scope : Scope) : Eval Value :=
  match args with
  | f :: streams => mapStreams f streams scope
  | [] => refuseCall args

/-- The rest of a mapped stream. -/
def mapRest (f : Value) (rests : List Value) (scope : Scope) : Eval Value := do
  let streams ← forceRests scope [] rests
  mapStreams f streams scope

/-- Looks at the next element of a stream: if it meets the predicate it is the first element of the
result, otherwise the search goes on in the rest. -/
def siftStep (predicate stream : Value) (scope : Scope) : Eval Value :=
  if stream = .emptyStream then pure .emptyStream
  else do
    let (head, rest) ← Eval.onHeap (cell "stream-filter" stream)
    let v ← Eval.apply predicate [head] scope
    if ← Eval.expectBool v then lazyCell "stream-filter" head (.filterRest predicate rest)
    else
      let s ← forceRest rest scope
      Eval.perform (.sift predicate s scope)

/-- `(stream-filter f stream)` -/
def streamFilter (args : List Value) (scope : Scope) : Eval Value :=
  match args with
  | [f, s] => Eval.perform (.sift f s scope)
  | args => refuseCall args

/-- The rest of a filtered stream. -/
def filterRest (predicate rest : Value) (scope : Scope) : Eval Value := do
  let s ← forceRest rest scope
  Eval.perform (.sift predicate s scope)

/-- Calls `f` on the first elements of streams and goes on with the rests, until one of them is
empty. -/
def walkStep (f : Value) (streams : List Value) (scope : Scope) : Eval Value :=
  if anyEmpty streams then pure .nil
  else do
    let (heads, rests) ← Eval.onHeap (cells "stream-for-each" streams)
    let _ ← Eval.apply f heads scope
    let streams ← forceRests scope [] rests
    Eval.perform (.walk f streams scope)

/-- `(stream-for-each f stream ...)` -/
def streamForEach (args : List Value) (scope : Scope) : Eval Value :=
  match args with
  | f :: streams => Eval.perform (.walk f streams scope)
  | [] => refuseCall args

/-- The stream functions. -/
def streams : List Entry := [
  fixed "empty-stream?" [.any] isEmptyStream,
  routine "force" [.function] none .force,
  fixed "force" [.any] forced,
  fixed "stream-car" [.list] streamFirst,
  routine "stream-cdr" [.list] none .streamRest,
  routine "stream-ref" [.list, .int] none .streamRef,
  routine "stream-take" [.any, .int] none .streamTake,
  routine "stream-map" [.function, .any] (some .any) .streamMap,
  routine "stream-filter" [.function, .any] none .streamFilter,
  routine "stream-for-each" [.function, .any] (some .any) .streamForEach]

end DispatchLisp.Prelude
