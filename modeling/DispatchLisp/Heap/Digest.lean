import DispatchLisp.Heap

/-! # Digests of values

The digest of a value begins with the kind of the value and goes on with the content.

A real has the mark of its number, whatever places it is written with.  A list has its length and
the digests of its items.  A table has its size only, since the order of its entries does not
matter. -/

namespace DispatchLisp

/-- The digits of a decimal as a number: without the point, and without the zeros at the end of the
fraction. -/
def Decimal.digest (d : Decimal) : Int :=
  if d.coefficient = 0 then 0
  else if 0 < d.scale then (d.stripZeros d.scale.toNat).coefficient
  else d.coefficientAt 0

namespace Heap

/-- The digest of a value down to a given depth of nesting, followed by other marks. -/
def marksWithin (h : Heap) : Nat → Value → Digest → Digest
  | 0, _, marks => marks
  | depth + 1, v, marks =>
    .kind v.kind ::
      match v with
      | .nil | .emptyStream => marks
      | .bool b => .truth b :: marks
      | .int n => .number n :: marks
      | .real d => .number d.digest :: marks
      | .byte b => .size b.toNat :: marks
      | .str text => .text text :: marks
      | .ident name => .text name :: marks
      | .list i => .size (h.items i).length :: (h.items i).foldr (h.marksWithin depth) marks
      | .table i => .size (h.tableAt i).size :: marks
      | .function f => .identity f.id :: marks
      | .lock i => .identity i :: marks
      | .thread t => .identity t.id :: marks

/-- The digest of a value down to a given depth of nesting. -/
def digestWithin (h : Heap) (depth : Nat) (v : Value) : Digest := h.marksWithin depth v []

/-- The digest of a value. -/
def digest (h : Heap) (v : Value) : Digest := h.digestWithin h.nesting v

end Heap

end DispatchLisp
