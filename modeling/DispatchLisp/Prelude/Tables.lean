import DispatchLisp.Prelude.Declaration

/-! # Tables

Functions on tables.  A table keeps its entries in the order in which their keys were first put.
Functions whose name ends in an exclamation mark change the table they are given and return it; the
others make a new table. -/

namespace DispatchLisp.Prelude

/-- Keys and values in turn, as entries. -/
def pairs? : List Value → Option Entries
  | [] => some []
  | [_] => none
  | key :: value :: rest => (pairs? rest).map ((key, value) :: ·)

/-- `(table key value ...)` -/
def table (args : List Value) : HeapM Value :=
  match pairs? args with
  | some pairs => HeapM.update fun h => h.newTable (.ofPairs h.keys pairs)
  | none => HeapM.fail (.eval .oddEntries)

/-- `(table-put table key value)` -/
def tablePut : List Value → HeapM Value
  | [.table t, key, value] =>
    HeapM.update fun h => h.newTable ((h.tableAt t).put h.keys key value)
  | args => refuse args

/-- `(table-put! table key value)` -/
def tablePutInPlace : List Value → HeapM Value
  | [.table t, key, value] => do
    HeapM.modify fun h => h.setTable t ((h.tableAt t).put h.keys key value)
    pure (.table t)
  | args => refuse args

/-- `(table-get table key)` gives `nil` for a missing key, `(table-get table key default)` the
default. -/
def tableGet : List Value → HeapM Value
  | [.table t, key] => HeapM.reads fun h => ((h.tableAt t).find? h.keys key).getD .nil
  | [.table t, key, default] =>
    HeapM.reads fun h => ((h.tableAt t).find? h.keys key).getD default
  | args => refuse args

/-- `(table-remove table key)` -/
def tableRemove : List Value → HeapM Value
  | [.table t, key] => HeapM.update fun h => h.newTable ((h.tableAt t).remove h.keys key)
  | args => refuse args

/-- `(table-remove! table key)` -/
def tableRemoveInPlace : List Value → HeapM Value
  | [.table t, key] => do
    HeapM.modify fun h => h.setTable t ((h.tableAt t).remove h.keys key)
    pure (.table t)
  | args => refuse args

/-- `(table-keys table)` -/
def tableKeys : List Value → HeapM Value
  | [.table t] => HeapM.update fun h => h.newList ((h.entries t).map Prod.fst)
  | args => refuse args

/-- `(table-values table)` -/
def tableValues : List Value → HeapM Value
  | [.table t] => HeapM.update fun h => h.newList ((h.entries t).map Prod.snd)
  | args => refuse args

/-- `(table-contains table key)` -/
def tableContains : List Value → HeapM Value
  | [.table t, key] => HeapM.reads fun h => .bool ((h.tableAt t).find? h.keys key).isSome
  | args => refuse args

/-- The table functions. -/
def tables : List Entry := [
  variadic "table" [] .any table,
  fixed "table-put" [.table, .any, .any] tablePut,
  fixed "table-put!" [.table, .any, .any] tablePutInPlace,
  fixed "table-get" [.table, .any] tableGet,
  fixed "table-get" [.table, .any, .any] tableGet,
  fixed "table-remove" [.table, .any] tableRemove,
  fixed "table-remove!" [.table, .any] tableRemoveInPlace,
  fixed "table-keys" [.table] tableKeys,
  fixed "table-values" [.table] tableValues,
  fixed "table-contains" [.table, .any] tableContains]

end DispatchLisp.Prelude
