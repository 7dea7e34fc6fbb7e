import DispatchLisp.Node.Reader
import DispatchLisp.Prelude.Predicates
import DispatchLisp.Program

/-! # Functions that call functions

Routines that apply functions to lists of arguments, fix arguments in advance, or evaluate source
text.  All of them call in the scope of their own caller. -/

namespace DispatchLisp.Prelude

/-- Refuses arguments that are not of the declared kinds. -/
def refuseCall {α : Type} (args : List Value) : Eval α := Eval.fail (misuse args)

/-- The items of a list. -/
def itemsOf (l : Nat) : Eval (List Value) := Eval.reads fun s => s.heap.items l

/-! ### Lists of arguments -/

/-- `(apply f v ...)` -/
def applyTo (args : List Value) (scope : Scope) : Eval Value :=
  match args with
  | f :: rest => Eval.apply f rest scope
  | [] => refuseCall args

/-- `(apply-list f list)` -/
def applyList (args : List Value) (scope : Scope) : Eval Value :=
  match args with
  | [f, .list l] => do
    let items ← itemsOf l
    Eval.apply f items scope
  | args => refuseCall args

/-! ### Maps and folds -/

/-- Calls `f` on each item; the results are in `done`, the last one first. -/
def mapItems (f : Value) (scope : Scope) (done : List Value) : List Value → Eval Value
  | [] => Eval.newList done.reverse
  | x :: xs => do
    let y ← Eval.apply f [x] scope
    mapItems f scope (y :: done) xs

/-- `(map f list)` -/
def map (args : List Value) (scope : Scope) : Eval Value :=
  match args with
  | [f, .list l] => do
    let items ← itemsOf l
    mapItems f scope [] items
  | args => refuseCall args

/-- Keeps the items on which `f` is true; those kept so far are in `kept`, the last one first. -/
def filterItems (f : Value) (scope : Scope) (kept : List Value) : List Value → Eval Value
  | [] => Eval.newList kept.reverse
  | x :: xs => do
    let v ← Eval.apply f [x] scope
    let keep ← Eval.expectBool v
    filterItems f scope (if keep then x :: kept else kept) xs

/-- `(filter f list)` -/
def filter (args : List Value) (scope : Scope) : Eval Value :=
  match args with
  | [f, .list l] => do
    let items ← itemsOf l
    filterItems f scope [] items
  | args => refuseCall args

/-- Combines items from the first to the last. -/
def foldItems (f : Value → Value → Eval Value) (acc : Value) : List Value → Eval Value
  | [] => pure acc
  | x :: xs => do
    let acc ← f acc x
    foldItems f acc xs

/-- `(foldl f start list)` -/
def foldLeft (args : List Value) (scope : Scope) : Eval Value :=
  match args with
  | [f, start, .list l] => do
    let items ← itemsOf l
    foldItems (fun acc x => Eval.apply f [acc, x] scope) start items
  | args => refuseCall args

/-- `(foldr f start list)` -/
def foldRight (args : List Value) (scope : Scope) : Eval Value :=
  match args with
  | [f, start, .list l] => do
    let items ← itemsOf l
    foldItems (fun acc x => Eval.apply f [x, acc] scope) start items.reverse
  | args => refuseCall args

/-- `(for-each f list)` -/
def forEach (args : List Value) (scope : Scope) : Eval Value :=
  match args with
  | [f, .list l] => do
    let items ← itemsOf l
    foldItems (fun _ x => do
      let _ ← Eval.apply f [x] scope
      pure .nil) .nil items
  | args => refuseCall args

/-! ### Single calls -/

/-- `(curry f v ...)`: a function that calls `f` with the given arguments and then its own. -/
def curry (args : List Value) : Eval Value :=
  match args with
  | .function f :: fixed =>
    Eval.newFunction
      ⟨"curry " ++ f.name, [], some .any, .routine (.curried (.function f) fixed)⟩
  | args => refuseCall args

/-- `(maybe f v)`: `nil` if the value is `nil`. -/
def maybe (args : List Value) (scope : Scope) : Eval Value :=
  match args with
  | [_, .nil] => pure .nil
  | [f, v] => Eval.apply f [v] scope
  | args => refuseCall args

/-! ### Source text and names -/

/-- `(eval text)` reads and evaluates in a fresh scope inside the caller's. -/
def evalText (args : List Value) (scope : Scope) : Eval Value :=
  match args with
  | [.str text] => do
    let nodes ← Eval.decode fun _ => Node.readAll text
    let inner ← Eval.newChild scope
    Eval.evalBody nodes inner
  | args => refuseCall args

/-- `(bound? name)` -/
def isBound (args : List Value) (scope : Scope) : Eval Value :=
  match args with
  | [.ident name] => Eval.reads fun s => .bool (s.scopes.contains scope name)
  | args => refuseCall args

/-- The functions that call functions. -/
def higherOrder : List Entry := [
  routine "apply-list" [.function, .list] none .applyList,
  routine "map" [.function, .list] none .map,
  routine "filter" [.function, .list] none .filter,
  routine "foldl" [.function, .any, .list] none .foldLeft,
  routine "foldr" [.function, .any, .list] none .foldRight,
  routine "for-each" [.function, .list] none .forEach,
  routine "curry" [.function] (some .any) .curry,
  routine "maybe" [.function, .any] none .maybe]

/-- The functions on source text and names. -/
def reflection : List Entry := [
  routine "eval" [.str] none .evalText,
  fixed "type-of" [.any] kindOf,
  routine "bound?" [.ident] none .isBound]

end DispatchLisp.Prelude
