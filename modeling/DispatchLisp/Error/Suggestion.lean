import DispatchLisp.Error

/-! # Suggestions for unknown names

A name that is not bound may be a slip or a habit from another dialect.  `dialectHint?` knows the
names other dialects use; `similar?` finds the closest of the names in scope, measured by the number
of single-character insertions, deletions and substitutions between the two (`editDistance`). -/

namespace DispatchLisp

/-! ### Edit distance -/

/-- One row of the distance table from the row above it.  `above` holds the distances to the
prefixes of the word from the current one on, `left` the entry just computed. -/
def nextRow (c : Char) : List Char → List Nat → Nat → List Nat
  | w :: ws, diagonal :: up :: rest, left =>
    let here := min (min (diagonal + if c = w then 0 else 1) (up + 1)) (left + 1)
    here :: nextRow c ws (up :: rest) here
  | _, _, _ => []

/-- The distances between a prefix of the first word, one row after the other, and all prefixes of
the second. -/
def lastRow (word : List Char) : List Char → Nat → List Nat → List Nat
  | [], _, row => row
  | c :: cs, i, row => lastRow word cs (i + 1) ((i + 1) :: nextRow c word row (i + 1))

/-- The least number of single-character edits that turn one text into the other. -/
def editDistance (a b : String) : Nat :=
  (lastRow b.toList a.toList 0 (List.range (b.toList.length + 1))).getLastD 0

/-! ### Similar names -/

/-- The largest distance at which a name still counts as similar: a third of its length, but at
least one and at most three. -/
def similarityBound (name : String) : Nat := min 3 (max 1 (name.toList.length / 3))

/-- The closer of two candidates; the first if they are equally close. -/
def closer (best : Option (String × Nat)) (candidate : String × Nat) : Option (String × Nat) :=
  match best with
  | none => some candidate
  | some b => if candidate.2 < b.2 then some candidate else some b

/-- The first of the closest candidates that are similar to the name but not the name itself. -/
def similar? (name : String) (candidates : List String) : Option String :=
  let scored := candidates.map fun c => (c, editDistance name c)
  let near := scored.filter fun c => 0 < c.2 && c.2 ≤ similarityBound name
  (near.foldl closer none).map Prod.fst

/-! ### Names from other dialects -/

/-- What to use in place of a name that other dialects have. -/
def dialectHint? (name : String) : Option String :=
  if ["define", "defvar", "defparameter", "defn", "defun"].contains name then
    some "Sable uses 'def' for both values and functions: (def (f x) ...)"
  else if ["set!", "setq", "setf"].contains name then
    some "Sable uses 'set' to assign an existing binding"
  else if ["defmacro", "define-syntax", "syntax-rules"].contains name then
    some "Sable uses 'def-symbol' for textual macros"
  else if name == "progn" then some "Sable uses 'begin' to sequence expressions"
  else if name == "fn" then some "Sable uses 'lambda' for anonymous functions"
  else if name == "mapcar" then some "Sable uses 'map' for mapping over lists"
  else if ["hash-ref", "gethash"].contains name then
    some "Sable uses 'table-get' to look up table entries"
  else if ["make-hash-table", "hash-map"].contains name then
    some "Sable uses 'table' to build tables"
  else if name == "case" then
    some "Sable uses 'switch' to compare a value against alternatives"
  else if name == "loop" then some "Sable uses 'while' for iteration, or recursion"
  else none

/-- The error for a name that means nothing, with a hint if there is a likely intention. -/
def nameError (cause : Cause) (name : String) (visible : List String) : Error :=
  match dialectHint? name with
  | some hint => (Error.base cause).withHint hint
  | none =>
    match similar? name visible with
    | some other => (Error.base cause).withHint ("did you mean '" ++ other ++ "'?")
    | none => .base cause

end DispatchLisp
