import DispatchLisp.Decimal.Equality
import DispatchLisp.Heap.Digest

/-! # Equality of values

Two values are equal if they are of the same sort and have the same content.  Reals are compared as
numbers.  Two lists are equal if they have equal items in the same order.  Two tables are equal if
they have as many entries and each entry of the first has its like in the second, whatever the
order.  Functions, locks and threads are equal only to themselves.

The comparison descends at most as deep as collections can be nested, which is no restriction unless
a collection contains itself. -/

namespace DispatchLisp

namespace Heap

/-- Equality of values down to a given depth of nesting. -/
def equalWithin (h : Heap) : Nat → Value → Value → Bool
  | 0, _, _ => false
  | depth + 1, a, b =>
    match a, b with
    | .real x, .real y => Decimal.equal x y
    | .list i, .list j => i == j || (h.items i).isEqv (h.items j) (h.equalWithin depth)
    | .table i, .table j =>
      i == j ||
        let keys : KeyTest := ⟨h.equalWithin depth, h.digestWithin depth⟩
        (h.tableAt i).size == (h.tableAt j).size &&
          (h.entries i).all fun (key, value) =>
            match Table.find? keys key (h.tableAt j) with
            | some other => keys.equal value other
            | none => false
    | .nil, .nil => true
    | .emptyStream, .emptyStream => true
    | .bool x, .bool y => x == y
    | .int x, .int y => x == y
    | .byte x, .byte y => x == y
    | .str x, .str y => x == y
    | .ident x, .ident y => x == y
    | .function f, .function g => f.id == g.id
    | .lock i, .lock j => i == j
    | .thread t, .thread u => t.id == u.id
    | _, _ => false

/-- Equality of values. -/
def equal (h : Heap) (a b : Value) : Bool := h.equalWithin h.nesting a b

/-- How the keys of tables are compared. -/
def keys (h : Heap) : KeyTest := ⟨h.equal, h.digest⟩

end Heap

end DispatchLisp
