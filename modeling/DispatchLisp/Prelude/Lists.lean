import DispatchLisp.Prelude.Declaration

/-! # Lists

Functions on lists.  Those whose name ends in an exclamation mark change the list they are given and
return it; the others make a new list. -/

namespace DispatchLisp.Prelude

/-- `(list v ...)` -/
def list (args : List Value) : HeapM Value := HeapM.newList args

/-- `(cons v list)` -/
def cons : List Value → HeapM Value
  | [v, .list l] => do
    let items ← HeapM.items l
    HeapM.newList (v :: items)
  | args => refuse args

/-- The first item. -/
def first (operation : String) : List Value → HeapM Value
  | [.list l] => do
    match ← HeapM.items l with
    | v :: _ => pure v
    | [] => HeapM.fail (.eval (.emptyList operation))
  | args => refuse args

/-- `(cdr list)`: a new list without the first item. -/
def rest : List Value → HeapM Value
  | [.list l] => do
    match ← HeapM.items l with
    | _ :: items => HeapM.newList items
    | [] => HeapM.fail (.eval (.emptyList "cdr"))
  | args => refuse args

/-- `(last list)` -/
def last : List Value → HeapM Value
  | [.list l] => do
    match (← HeapM.items l).getLast? with
    | some v => pure v
    | none => HeapM.fail (.eval (.emptyList "last"))
  | args => refuse args

/-- `(length collection)`: of a list, a string or a table. -/
def length : List Value → HeapM Value
  | [.list l] => HeapM.reads fun h => .int (h.itemCount l)
  | [.str text] => pure (.int text.toList.length)
  | [.table t] => HeapM.reads fun h => .int (h.tableAt t).size
  | args => refuse args

/-! ### Items by index -/

/-- The index that a value gives into a collection of the given length. -/
def index (operation : String) (v : Value) (length : Nat) : HeapM Nat := do
  match v.toCount? with
  | some i =>
    if i < length then pure i
    else HeapM.fail (.eval (.indexOutOfRange operation (← HeapM.print v) length))
  | none => HeapM.fail (.eval (.indexOutOfRange operation (← HeapM.print v) length))

/-- `(list-ref list i)` -/
def listRef : List Value → HeapM Value
  | [.list l, i] => do
    let items ← HeapM.items l
    let i ← index "list-ref" i items.length
    pure (items.getD i .nil)
  | args => refuse args

/-- `(list-add list v)` -/
def listAdd : List Value → HeapM Value
  | [.list l, v] => do
    let items ← HeapM.items l
    HeapM.newList (items ++ [v])
  | args => refuse args

/-- `(list-add! list v)` -/
def listAddInPlace : List Value → HeapM Value
  | [.list l, v] => do
    HeapM.modify (·.addItem l v)
    pure (.list l)
  | args => refuse args

/-- `(list-set list i v)` -/
def listSet : List Value → HeapM Value
  | [.list l, i, v] => do
    let items ← HeapM.items l
    let i ← index "list-set" i items.length
    HeapM.newList (items.set i v)
  | args => refuse args

/-- `(list-set! list i v)` -/
def listSetInPlace : List Value → HeapM Value
  | [.list l, i, v] => do
    let items ← HeapM.items l
    let i ← index "list-set!" i items.length
    HeapM.modify (·.setItems l (items.set i v))
    pure (.list l)
  | args => refuse args

/-- `(list-remove list i)` -/
def listRemove : List Value → HeapM Value
  | [.list l, i] => do
    let items ← HeapM.items l
    let i ← index "list-remove" i items.length
    HeapM.newList (items.eraseIdx i)
  | args => refuse args

/-- `(list-remove! list i)` -/
def listRemoveInPlace : List Value → HeapM Value
  | [.list l, i] => do
    let items ← HeapM.items l
    let i ← index "list-remove!" i items.length
    HeapM.modify (·.setItems l (items.eraseIdx i))
    pure (.list l)
  | args => refuse args

/-- `(list-contains list v)` -/
def listContains : List Value → HeapM Value
  | [.list l, v] => HeapM.reads fun h => .bool ((h.items l).any fun item => h.equal item v)
  | args => refuse args

/-! ### Whole lists -/

/-- `(reverse list)` -/
def reverse : List Value → HeapM Value
  | [.list l] => do
    let items ← HeapM.items l
    HeapM.newList items.reverse
  | args => refuse args

/-- The integers from one bound up to and without the other. -/
def integers (low high : Int) : List Value :=
  (List.range (high - low).toNat).map fun (i : Nat) => .int (low + i)

/-- `(range high)` and `(range low high)` -/
def range : List Value → HeapM Value
  | [.int high] => HeapM.newList (integers 0 high)
  | [.int low, .int high] => HeapM.newList (integers low high)
  | args => refuse args

/-- The texts of strings. -/
def texts? (args : List Value) : Option (List String) :=
  args.mapM fun
    | .str text => some text
    | _ => none

/-- `(++ string string ...)` -/
def joinTexts (args : List Value) : HeapM Value :=
  match texts? args with
  | some texts => pure (.str (String.join texts))
  | none => refuse args

/-- The addresses of lists. -/
def addresses? (args : List Value) : Option (List Nat) :=
  args.mapM fun
    | .list l => some l
    | _ => none

/-- `(++ list list ...)` -/
def joinLists (args : List Value) : HeapM Value :=
  match addresses? args with
  | some ls => HeapM.update fun h => h.newList (ls.flatMap h.items)
  | none => refuse args

/-- The list functions. -/
def lists : List Entry := [
  variadic "list" [] .any list,
  fixed "cons" [.any, .list] cons,
  fixed "car" [.list] (first "car"),
  fixed "head" [.list] (first "head"),
  fixed "cdr" [.list] rest,
  fixed "last" [.list] last,
  fixed "length" [.list] length,
  fixed "length" [.str] length,
  fixed "length" [.table] length,
  fixed "list-ref" [.list, .int] listRef,
  fixed "list-add" [.list, .any] listAdd,
  fixed "list-add!" [.list, .any] listAddInPlace,
  fixed "list-set" [.list, .int, .any] listSet,
  fixed "list-set!" [.list, .int, .any] listSetInPlace,
  fixed "list-remove" [.list, .int] listRemove,
  fixed "list-remove!" [.list, .int] listRemoveInPlace,
  fixed "list-contains" [.list, .any] listContains,
  fixed "reverse" [.list] reverse,
  fixed "range" [.int] range,
  fixed "range" [.int, .int] range,
  variadic "++" [.str, .str] .str joinTexts,
  variadic "++" [.list, .list] .list joinLists]

end DispatchLisp.Prelude
