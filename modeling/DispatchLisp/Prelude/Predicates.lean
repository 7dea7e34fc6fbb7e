import DispatchLisp.Prelude.Declaration

/-! # Kinds at run time

One predicate for each kind of value that programs test for, and `type-of`, which names the kind. -/

namespace DispatchLisp.Prelude

/-- A predicate on a value's kind. -/
def hasKind (kinds : List Kind) : List Value → HeapM Value
  | [v] => pure (.bool (kinds.contains v.kind))
  | args => refuse args

/-- `(type-of v)` -/
def kindOf : List Value → HeapM Value
  | [v] => pure (.ident v.kindName)
  | args => refuse args

/-- The predicates. -/
def predicates : List Entry := [
  fixed "nil?" [.any] (hasKind [.nil]),
  fixed "bool?" [.any] (hasKind [.bool]),
  fixed "int?" [.any] (hasKind [.int]),
  fixed "real?" [.any] (hasKind [.real]),
  fixed "num?" [.any] (hasKind [.int, .real]),
  fixed "byte?" [.any] (hasKind [.byte]),
  fixed "string?" [.any] (hasKind [.str]),
  fixed "id?" [.any] (hasKind [.ident]),
  fixed "list?" [.any] (hasKind [.list]),
  fixed "table?" [.any] (hasKind [.table]),
  fixed "function?" [.any] (hasKind [.function])]

end DispatchLisp.Prelude
