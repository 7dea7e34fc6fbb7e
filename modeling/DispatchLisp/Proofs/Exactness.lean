import DispatchLisp.Proofs.NumberText
import Mathlib.Algebra.BigOperators.Group.List.Basic

/-! # Exact sums, differences and products

The operators `+`, `-` and `*` lose nothing: what they give is the sum, the difference or the
product of the rational numbers that their arguments are.  Each of them has an overload for integers
and one for all numbers.  Integers match both, and the first one always has the higher score
(`Operator.selected_ints`); one real among the arguments is enough for the second one
(`Operator.selected_nums`).  Either way the call gives a number (`Operator.exists_gives`).

The scale of a decimal is a word of 64 bits.  A sum has the largest of the scales, but the scales of
factors are added, and a sum of scales can leave the word.  A product is exact as long as this does
not happen on the way (`Decimal.value_foldl_mul`); for integers it never does (`Operator.Fits`).

Sums do not depend on the order of the arguments, not even in their digits.  Products have the same
value in any order.  Their places may differ, since a factor that is one leaves the other factor as
it is. -/

namespace DispatchLisp

theorem Word.wrapSigned_of_fits {bits : Nat} {n : Int} (h : fitsSigned (bits + 1) n = true) :
    wrapSigned (bits + 1) n = n := by
  have hpower : (Nat.pow 2 (bits + 1) : Int) = (Nat.pow 2 bits : Nat) * 2 := by
    rw [Nat.pow_eq, Nat.pow_eq, pow_succ, Nat.cast_mul]
    rfl
  simp only [fitsSigned, Nat.add_sub_cancel, Bool.and_eq_true, decide_eq_true_eq] at h
  exact Int.bmod_eq_of_le_mul_two (by omega) (by omega)

/-! ### Operations on decimals -/

namespace Decimal

theorem value_ofInt (n : Int) : (ofInt n).value = n := by simp [value, ofInt]

theorem value_of_isZero {d : Decimal} (h : d.isZero = true) : d.value = 0 := by
  have hzero : d.coefficient = 0 := by simpa [isZero] using h
  simp [value, hzero]

theorem value_of_isOne {d : Decimal} (h : d.isOne = true) : d.value = 1 := by
  simp only [isOne, Bool.and_eq_true, decide_eq_true_eq, beq_iff_eq] at h
  obtain ⟨⟨hscale, -⟩, hcoefficient⟩ := h
  obtain ⟨k, hk⟩ := Int.eq_ofNat_of_zero_le hscale
  have hpower : (d.coefficient : ℚ) = 10 ^ k := by
    rw [hcoefficient, hk, Int.toNat_natCast, powerOfTen, Nat.pow_eq]
    push_cast
    rfl
  rw [value, hpower, hk, zpow_natCast, div_self (by positivity)]

theorem value_neg (d : Decimal) : d.neg.value = -d.value := by
  simp [value, neg, neg_div]

theorem value_add (a b : Decimal) : (a.add b).value = a.value + b.value := by
  rw [← a.coefficientAt_div (le_max_left a.scale b.scale),
    ← b.coefficientAt_div (le_max_right a.scale b.scale), ← add_div, ← Int.cast_add]
  rfl

theorem value_sub (a b : Decimal) : (a.sub b).value = a.value - b.value := by
  unfold sub
  split
  case isTrue hb => rw [value_of_isZero hb, sub_zero]
  case isFalse =>
    split
    case isTrue ha => rw [value_neg, value_of_isZero ha, zero_sub]
    case isFalse =>
      rw [← a.coefficientAt_div (le_max_left a.scale b.scale),
        ← b.coefficientAt_div (le_max_right a.scale b.scale), ← sub_div, ← Int.cast_sub]
      rfl

/-- The scale of the product fits its word.  A factor that is one does not change the scale of the
other. -/
def productFits (a b : Decimal) : Bool :=
  a.isOne || b.isOne || Word.fitsSigned 64 (a.scale + b.scale)

theorem value_mul {a b : Decimal} (h : a.productFits b = true) :
    (a.mul b).value = a.value * b.value := by
  unfold mul
  split
  case isTrue ha => rw [value_of_isOne ha, one_mul]
  case isFalse ha =>
    split
    case isTrue hb => rw [value_of_isOne hb, mul_one]
    case isFalse hb =>
      have hscale : Word.fitsSigned 64 (a.scale + b.scale) = true := by
        simpa [productFits, ha, hb] using h
      simp only [value, Word.wrapSigned_of_fits hscale]
      rw [zpow_add₀ (by norm_num), Int.cast_mul, div_mul_div_comm]

/-- Without room for the sum of the scales, the product of two tiny numbers is large. -/
example : mul ⟨1, 2 ^ 63 - 1⟩ ⟨1, 2 ^ 63 - 1⟩ = ⟨1, -2⟩ := by decide +kernel

/-- Every scale fits its word when `d` is multiplied by the others in turn. -/
def scalesFit : Decimal → List Decimal → Bool
  | _, [] => true
  | d, e :: es => d.productFits e && scalesFit (d.mul e) es

theorem value_foldl_mul {d : Decimal} {ds : List Decimal} (h : d.scalesFit ds = true) :
    (ds.foldl mul d).value = d.value * (ds.map value).prod := by
  induction ds generalizing d with
  | nil => rw [List.foldl_nil, List.map_nil, List.prod_nil, mul_one]
  | cons e es ih =>
      obtain ⟨hfirst, hrest⟩ := Bool.and_eq_true_iff.mp h
      rw [List.foldl_cons, ih hrest, value_mul hfirst, List.map_cons, List.prod_cons, mul_assoc]

/-- Numbers without places have products without places. -/
theorem scalesFit_of_scale_eq_zero {d : Decimal} {ds : List Decimal} (hd : d.scale = 0)
    (hds : ∀ e ∈ ds, e.scale = 0) : d.scalesFit ds = true := by
  induction ds generalizing d with
  | nil => rfl
  | cons e es ih =>
      obtain ⟨he, hes⟩ := List.forall_mem_cons.mp hds
      have hscale : (d.mul e).scale = 0 := by
        unfold mul
        split
        · exact he
        · split
          · exact hd
          · simp only [hd, he]
            decide
      have hfirst : d.productFits e = true := by
        rw [productFits, hd, he, Bool.or_eq_true]
        exact .inr (by decide)
      rw [scalesFit, hfirst, ih hscale hes, Bool.and_self]

/-- A number has one coefficient for each scale. -/
theorem eq_of_value_eq {a b : Decimal} (hscale : a.scale = b.scale) (hvalue : a.value = b.value) :
    a = b := by
  have hne : (10 : ℚ) ^ b.scale ≠ 0 := zpow_ne_zero _ (by norm_num)
  rw [value, value, hscale, div_left_inj' hne, Int.cast_inj] at hvalue
  cases a
  cases b
  simp_all

/-- Sums have the larger of the scales, whatever the order. -/
theorem add_comm_right (a b c : Decimal) : (a.add b).add c = (a.add c).add b := by
  refine eq_of_value_eq ?_ ?_
  · exact max_right_comm a.scale b.scale c.scale
  · rw [value_add, value_add, value_add, value_add, add_right_comm]

end Decimal

/-! ### Numbers -/

namespace Value

/-- The value is an integer. -/
def IsInt (v : Value) : Prop := ∃ n, v = .int n

/-- The value is an integer or a real. -/
def IsNumber (v : Value) : Prop := (∃ n, v = .int n) ∨ ∃ d, v = .real d

/-- The rational number that a number is. -/
def number : Value → ℚ
  | .int n => n
  | .real d => d.value
  | _ => 0

theorem IsNumber.admits {v : Value} (h : v.IsNumber) : Kind.num.Admits v := Kind.admits_num.mpr h

theorem IsInt.admits {v : Value} (h : v.IsInt) : Kind.int.Admits v := Kind.admits_int.mpr h

theorem IsInt.number_eq {v : Value} (h : v.IsInt) : v.number = v.integer := by
  obtain ⟨n, rfl⟩ := h
  rfl

theorem IsNumber.value_decimal {v : Value} (h : v.IsNumber) : v.decimal.value = v.number := by
  rcases h with ⟨n, rfl⟩ | ⟨d, rfl⟩
  · exact Decimal.value_ofInt n
  · rfl

end Value

/-! ### The operators -/

/-- The operators that are exact. -/
inductive Operator
  | sum
  | difference
  | product
deriving DecidableEq

namespace Operator

/-- The name of the operator. -/
def name : Operator → String
  | sum => "+"
  | difference => "-"
  | product => "*"

/-- The operator on integers. -/
def ints : Operator → List Int → Option Int
  | sum => Prelude.sumInts
  | difference => Prelude.differenceInts
  | product => Prelude.productInts

/-- The operator on decimals. -/
def decimals : Operator → List Decimal → Option Decimal
  | sum => Prelude.sumDecimals
  | difference => Prelude.differenceDecimals
  | product => Prelude.productDecimals

/-- The overload for integers. -/
def onInts (op : Operator) : Entry := Prelude.variadic op.name [.int] .int (Prelude.onInts op.ints)

/-- The overload for all numbers. -/
def onNums (op : Operator) : Entry :=
  Prelude.variadic op.name [.num] .num (Prelude.onDecimals op.decimals)

/-- What the operator means: the sum, the difference from left to right, which is the negation of a
single number, or the product. -/
def meaning : Operator → List ℚ → ℚ
  | sum, qs => qs.sum
  | difference, [] => 0
  | difference, [q] => -q
  | difference, q :: qs => qs.foldl (· - ·) q
  | product, qs => qs.prod

/-- No scale leaves its word on the way.  Only a product with a real among its factors can do that. -/
def Fits (op : Operator) (args : List Value) : Prop :=
  op = product → (∃ v ∈ args, ¬ v.IsInt) →
    (Decimal.ofInt 1).scalesFit (args.map Value.decimal) = true

theorem Fits.scalesFit {op : Operator} {args : List Value} (h : op.Fits args)
    (hop : op = product) : (Decimal.ofInt 1).scalesFit (args.map Value.decimal) = true := by
  by_cases hreal : ∃ v ∈ args, ¬ v.IsInt
  · exact h hop hreal
  · refine Decimal.scalesFit_of_scale_eq_zero rfl fun d hd => ?_
    obtain ⟨v, hv, rfl⟩ := List.mem_map.mp hd
    obtain ⟨n, rfl⟩ : v.IsInt := by
      by_contra hnot
      exact hreal ⟨v, hv, hnot⟩
    rfl

theorem named_eq (op : Operator) :
    Overloads.named op.name (Prelude.core ++ Prelude.entries) =
      ⟨op.name, [op.onInts, op.onNums]⟩ := by
  cases op <;> rfl

theorem onInts_mem (op : Operator) : op.onInts ∈ Prelude.core ++ Prelude.entries := by
  have hmem : op.onInts ∈ (Overloads.named op.name (Prelude.core ++ Prelude.entries)).entries := by
    rw [named_eq]
    exact List.mem_cons_self
  exact (Overloads.mem_named.mp hmem).1

/-- A fold can be done after a map that keeps the operation. -/
theorem map_foldl {α β : Type} {f : α → α → α} {k : β → β → β} {g : α → β}
    (h : ∀ a b, g (f a b) = k (g a) (g b)) (l : List α) (a : α) :
    g (l.foldl f a) = (l.map g).foldl k (g a) := by
  rw [List.foldl_map]
  exact (List.foldl_hom g fun a b => (h a b).symm).symm

variable (op : Operator)

theorem exists_ints (n : Int) (ns : List Int) :
    ∃ m, op.ints (n :: ns) = some m ∧ (m : ℚ) = op.meaning ((n :: ns).map Int.cast) := by
  cases op with
  | sum =>
      refine ⟨_, rfl, ?_⟩
      rw [map_foldl Int.cast_add, meaning, List.sum_eq_foldl, Int.cast_zero]
  | difference =>
      cases ns with
      | nil => exact ⟨-n, rfl, Int.cast_neg n⟩
      | cons n' ns => exact ⟨_, rfl, map_foldl Int.cast_sub _ _⟩
  | product =>
      refine ⟨_, rfl, ?_⟩
      rw [map_foldl Int.cast_mul, meaning, List.prod_eq_foldl, Int.cast_one]

theorem exists_decimals (d : Decimal) (ds : List Decimal)
    (hfits : op = product → (Decimal.ofInt 1).scalesFit (d :: ds) = true) :
    ∃ r, op.decimals (d :: ds) = some r ∧ r.value = op.meaning ((d :: ds).map Decimal.value) := by
  cases op with
  | sum =>
      refine ⟨_, rfl, ?_⟩
      rw [map_foldl Decimal.value_add, meaning, List.sum_eq_foldl, Decimal.value_ofInt,
        Int.cast_zero]
  | difference =>
      cases ds with
      | nil => exact ⟨d.neg, rfl, d.value_neg⟩
      | cons d' ds => exact ⟨_, rfl, map_foldl Decimal.value_sub _ _⟩
  | product =>
      refine ⟨_, rfl, ?_⟩
      rw [Decimal.value_foldl_mul (hfits rfl), meaning, Decimal.value_ofInt, Int.cast_one, one_mul]

/-! ### Which overload runs -/

section

variable {args : List Value}

theorem matches_onInts_iff :
    Entry.Matches op.onInts.variadic op.onInts.params args ↔ args ≠ [] ∧ ∀ v ∈ args, v.IsInt := by
  refine (Entry.matches_all (k := .int) (by simp [onInts, Prelude.variadic])).trans ?_
  simp [onInts, Prelude.variadic, Value.IsInt, Nat.one_le_iff_ne_zero]

theorem matches_onNums_iff :
    Entry.Matches op.onNums.variadic op.onNums.params args ↔
      args ≠ [] ∧ ∀ v ∈ args, v.IsNumber := by
  refine (Entry.matches_all (k := .num) (by simp [onNums, Prelude.variadic])).trans ?_
  simp [onNums, Prelude.variadic, Value.IsNumber, Nat.one_le_iff_ne_zero]

theorem outweighs_onNums : op.onInts.outweighs op.onNums = true := rfl

/-- Integers run the overload for integers, however many they are. -/
theorem selected_ints (hne : args ≠ []) (h : ∀ v ∈ args, v.IsInt) :
    (Overloads.named op.name (Prelude.core ++ Prelude.entries)).selected args = .ok op.onInts := by
  rw [named_eq]
  refine Overloads.selected_of_matches (i := 0) rfl (op.matches_onInts_iff.mpr ⟨hne, h⟩) ?_
  intro j e' hj hother _
  rcases j with _ | _ | j
  · exact absurd rfl hother
  · cases hj
    exact Entry.weight_lt_of_outweighs op.outweighs_onNums _
  · cases hj

/-- One real among the arguments is enough for the overload for all numbers. -/
theorem selected_nums (hne : args ≠ []) (h : ∀ v ∈ args, v.IsNumber)
    (hreal : ¬ ∀ v ∈ args, v.IsInt) :
    (Overloads.named op.name (Prelude.core ++ Prelude.entries)).selected args = .ok op.onNums := by
  rw [named_eq]
  refine Overloads.selected_of_matches (i := 1) rfl (op.matches_onNums_iff.mpr ⟨hne, h⟩) ?_
  intro j e' hj hother hmatches
  rcases j with _ | _ | j
  · cases hj
    exact absurd (op.matches_onInts_iff.mp hmatches).2 hreal
  · exact absurd rfl hother
  · cases hj

/-! ### What a call gives -/

theorem gives_ints (limit : Nat) (hne : args ≠ []) (h : ∀ v ∈ args, v.IsInt) :
    ∃ m, op.ints (args.map Value.integer) = some m ∧
      (World.new limit).Gives op.name args (.int m) ∧
      (m : ℚ) = op.meaning (args.map Value.number) := by
  obtain ⟨v, vs, rfl⟩ := List.exists_cons_of_ne_nil hne
  obtain ⟨m, hm, hexact⟩ := op.exists_ints v.integer (vs.map Value.integer)
  refine ⟨m, hm, ?_, ?_⟩
  · refine World.gives_of_selected limit rfl (op.selected_ints hne h) fun heap => ?_
    rw [Prelude.onInts, Prelude.ints?_eq fun v hv => (h v hv).admits, Option.bind_some,
      List.map_cons, hm]
    rfl
  · rw [hexact, ← List.map_cons, List.map_map]
    refine congrArg op.meaning (List.map_congr_left fun w hw => ?_)
    exact (h w hw).number_eq.symm

/-- What the overload for all numbers gives, if it is run. -/
theorem run_nums (hne : args ≠ []) (h : ∀ v ∈ args, v.IsNumber) (hfits : op.Fits args) :
    ∃ d, op.decimals (args.map Value.decimal) = some d ∧
      (∀ heap, Prelude.onDecimals op.decimals args heap = (.ok (.real d), heap)) ∧
      d.value = op.meaning (args.map Value.number) := by
  obtain ⟨v, vs, rfl⟩ := List.exists_cons_of_ne_nil hne
  obtain ⟨d, hd, hexact⟩ := op.exists_decimals v.decimal (vs.map Value.decimal) hfits.scalesFit
  refine ⟨d, hd, fun heap => ?_, ?_⟩
  · rw [Prelude.onDecimals, Prelude.decimals?_eq fun v hv => (h v hv).admits, Option.bind_some,
      List.map_cons, hd]
    rfl
  · rw [hexact, ← List.map_cons, List.map_map]
    exact congrArg op.meaning (List.map_congr_left fun w hw => (h w hw).value_decimal)

theorem gives_nums (limit : Nat) (hne : args ≠ []) (h : ∀ v ∈ args, v.IsNumber)
    (hreal : ¬ ∀ v ∈ args, v.IsInt) (hfits : op.Fits args) :
    ∃ d, op.decimals (args.map Value.decimal) = some d ∧
      (World.new limit).Gives op.name args (.real d) ∧
      d.value = op.meaning (args.map Value.number) := by
  obtain ⟨d, hd, hrun, hexact⟩ := op.run_nums hne h hfits
  exact ⟨d, hd, World.gives_of_selected limit rfl (op.selected_nums hne h hreal) hrun, hexact⟩

end

/-! ### Arguments in another order -/

variable {op}

theorem meaning_perm (hop : op ≠ difference) {qs qs' : List ℚ} (h : qs.Perm qs') :
    op.meaning qs = op.meaning qs' := by
  cases op with
  | sum => exact h.sum_eq
  | difference => exact absurd rfl hop
  | product => exact h.prod_eq

theorem ints_perm (hop : op ≠ difference) {ns ns' : List Int} (h : ns.Perm ns') :
    op.ints ns = op.ints ns' := by
  cases op with
  | sum => exact congrArg some (h.foldl_eq' (fun _ _ _ _ _ => Int.add_right_comm _ _ _) 0)
  | difference => exact absurd rfl hop
  | product => exact congrArg some (h.foldl_eq' (fun _ _ _ _ _ => Int.mul_right_comm _ _ _) 1)

/-- A sum of decimals has the same digits in any order. -/
theorem decimals_perm {ds ds' : List Decimal} (h : ds.Perm ds') :
    sum.decimals ds = sum.decimals ds' :=
  congrArg some (h.foldl_eq' (fun _ _ _ _ _ => Decimal.add_comm_right _ _ _) _)

end Operator

namespace World

variable (limit : Nat)

theorem gives_equal_int (n : Int) : (new limit).Gives "=" [.int n, .int n] (.bool true) := by
  refine gives_of_selected limit (e := Prelude.fixed "=" [.any, .any] Prelude.equal) rfl rfl
    fun h => ?_
  have hequal : h.equal (.int n) (.int n) = true := by
    simp [Heap.equal, Heap.equalWithin, Heap.nesting]
  change (Except.ok (Value.bool (h.equal (.int n) (.int n))), h) = _
  rw [hequal]

end World

namespace Operator

variable (limit : Nat) {args : List Value}

theorem exists_gives (op : Operator) (hne : args ≠ []) (hargs : ∀ v ∈ args, v.IsNumber)
    (hfits : op.Fits args) :
    ∃ r, (World.new limit).Gives op.name args r ∧ r.IsNumber ∧ (r.IsInt ↔ ∀ v ∈ args, v.IsInt) ∧
      r.number = op.meaning (args.map Value.number) := by
  by_cases hints : ∀ v ∈ args, v.IsInt
  · obtain ⟨m, -, hgives, hmeaning⟩ := op.gives_ints limit hne hints
    exact ⟨.int m, hgives, .inl ⟨m, rfl⟩, iff_of_true ⟨m, rfl⟩ hints, hmeaning⟩
  · obtain ⟨d, -, hgives, hmeaning⟩ := op.gives_nums limit hne hargs hints hfits
    exact ⟨.real d, hgives, .inr ⟨d, rfl⟩, iff_of_false (by simp [Value.IsInt]) hints, hmeaning⟩

/-- Arguments in another order: sums, and products of integers, stay as they are, and all products
keep their value. -/
theorem gives_perm {op : Operator} (hop : op ≠ difference) {args' : List Value}
    (hperm : args'.Perm args) (hne : args ≠ []) (hargs : ∀ v ∈ args, v.IsNumber)
    (hfits : op.Fits args) (hfits' : op.Fits args') {r : Value}
    (hr : (World.new limit).Gives op.name args r) :
    ∃ r' equal, (World.new limit).Gives op.name args' r' ∧ r'.number = r.number ∧
      (r'.IsInt ↔ r.IsInt) ∧ (World.new limit).Gives "=" [r', r] (.bool equal) ∧
      (op = sum ∨ r.IsInt → r' = r ∧ equal = true) ∧
      ((∀ d d' : Decimal, r = .real d → r' = .real d' → (d'.scale - d.scale).natAbs ≤ 9) →
        equal = true) := by
  have hne' : args' ≠ [] := by
    rintro rfl
    exact hne hperm.nil_eq.symm
  by_cases hints : ∀ v ∈ args, v.IsInt
  · have hints' : ∀ v ∈ args', v.IsInt := fun v hv => hints v (hperm.mem_iff.mp hv)
    obtain ⟨m, hm, hgives, -⟩ := op.gives_ints limit hne hints
    obtain ⟨m', hm', hgives', -⟩ := op.gives_ints limit hne' hints'
    rw [ints_perm hop (hperm.map _), hm] at hm'
    obtain rfl := Option.some.inj hm'
    obtain rfl := hr.unique hgives
    exact ⟨.int m, true, hgives', rfl, Iff.rfl, World.gives_equal_int limit m,
      fun _ => ⟨rfl, rfl⟩, fun _ => rfl⟩
  · have hargs' : ∀ v ∈ args', v.IsNumber := fun v hv => hargs v (hperm.mem_iff.mp hv)
    have hints' : ¬ ∀ v ∈ args', v.IsInt := fun h => hints fun v hv => h v (hperm.mem_iff.mpr hv)
    have hreal (x : Decimal) : ¬ (Value.real x).IsInt := by simp [Value.IsInt]
    obtain ⟨d, hd, hgives, hmeaning⟩ := op.gives_nums limit hne hargs hints hfits
    obtain ⟨d', hd', hgives', hmeaning'⟩ := op.gives_nums limit hne' hargs' hints' hfits'
    obtain rfl := hr.unique hgives
    have hvalue : d'.value = d.value := by
      rw [hmeaning, hmeaning', meaning_perm hop (hperm.map _)]
    refine ⟨.real d', Decimal.equal d' d, hgives', hvalue, iff_of_false (hreal d') (hreal d),
      World.gives_equal_real limit d' d, ?_, ?_⟩
    · rintro (rfl | hint)
      · rw [decimals_perm (hperm.map _), hd] at hd'
        obtain rfl := Option.some.inj hd'
        exact ⟨rfl, Decimal.equal_self d⟩
      · exact absurd hint (hreal d)
    · intro hnear
      rw [Decimal.equal_eq_same (hnear d d' rfl rfl)]
      exact Decimal.same_iff.mpr hvalue

end Operator

namespace World

variable (limit : Nat)

/-- **Sums, differences and products are exact.**  A call of `+`, `-` or `*` with numbers gives a
number, which is an integer if and only if all arguments are.  Its value is the sum, the difference
or the product of the values of the arguments.  The overload for all numbers would give a real of
the same value, also for integers.  The scales of a product with a real have to fit their word on
the way; for sums, for differences and for integers nothing is asked.

A sum is the same in any order of the arguments, and so is a product of integers.  A product with a
real has the same value in any order, and the equality of the language finds this if the places of
the two products differ by nine at most. -/
theorem arithmetic_exact (op : Operator) {args : List Value} (hne : args ≠ [])
    (hargs : ∀ v ∈ args, v.IsNumber) (hfits : op.Fits args) :
    (∃ f, (new limit).state.scopes.lookup (new limit).prelude op.name = some (.function f) ∧
      ((new limit).state.overloads f).entries = [op.onInts, op.onNums]) ∧
    ∃ r, (new limit).Gives op.name args r ∧ r.IsNumber ∧ (r.IsInt ↔ ∀ v ∈ args, v.IsInt) ∧
      r.number = op.meaning (args.map Value.number) ∧
      (∃ d : Decimal, d.value = r.number ∧
        ∀ scope s, op.onNums.run args scope s = .done (.ok (.real d)) s) ∧
      (op ≠ .difference → ∀ args', args'.Perm args → op.Fits args' → ∃ r' equal,
        (new limit).Gives op.name args' r' ∧ r'.number = r.number ∧ (r'.IsInt ↔ r.IsInt) ∧
        (new limit).Gives "=" [r', r] (.bool equal) ∧
        (op = .sum ∨ r.IsInt → r' = r ∧ equal = true) ∧
        ((∀ d d' : Decimal, r = .real d → r' = .real d' → (d'.scale - d.scale).natAbs ≤ 9) →
          equal = true)) := by
  constructor
  · obtain ⟨f, hlookup, -, hset⟩ := (registered_new limit).found op.onInts op.onInts_mem
    exact ⟨f, hlookup, hset ▸ congrArg Overloads.entries op.named_eq⟩
  · obtain ⟨r, hgives, hnumber, hint, hmeaning⟩ := op.exists_gives limit hne hargs hfits
    obtain ⟨d, -, hrun, hvalue⟩ := op.run_nums hne hargs hfits
    refine ⟨r, hgives, hnumber, hint, hmeaning, ⟨d, hvalue.trans hmeaning.symm, ?_⟩, ?_⟩
    · exact Entry.run_native rfl hrun
    · intro hop args' hperm hfits'
      exact Operator.gives_perm limit hop hperm hne hargs hfits hfits' hgives

/-- One real after integers: `(- 3 4 -2.50)` is a real, `1.5`, `(* 3 4 -2.50)` is `-30`, and
`(+ 3 4 -2.50)` is the same in the other order. -/
theorem arithmetic_exact_trailing_real :
    let args : List Value := [.int 3, .int 4, .real ⟨-250, 2⟩]
    args ≠ [] ∧ (∀ v ∈ args, v.IsNumber) ∧ Operator.product.Fits args ∧
      (∃ r, (new 10).Gives "-" args r ∧ ¬ r.IsInt ∧ r.number = 3 / 2) ∧
      (∃ r, (new 10).Gives "*" args r ∧ ¬ r.IsInt ∧ r.number = -30) ∧
      ∃ r, (new 10).Gives "+" args r ∧ r.number = 9 / 2 ∧ (new 10).Gives "+" args.reverse r ∧
        (new 10).Gives "=" [r, r] (.bool true) := by
  intro args
  have hne : args ≠ [] := List.cons_ne_nil _ _
  have hargs : ∀ v ∈ args, v.IsNumber := by simp [args, Value.IsNumber]
  have hreal : ¬ ∀ v ∈ args, v.IsInt := by simp [args, Value.IsInt]
  have hfits : Operator.product.Fits args := fun _ _ => by decide +kernel
  obtain ⟨-, r, hgives, -, hint, hmeaning, -, -⟩ :=
    arithmetic_exact 10 .difference hne hargs (nofun)
  obtain ⟨-, p, hproduct, -, hintp, hmeaningp, -, -⟩ :=
    arithmetic_exact 10 .product hne hargs hfits
  obtain ⟨-, r', hgives', -, -, hmeaning', -, hperm⟩ :=
    arithmetic_exact 10 .sum hne hargs (nofun)
  obtain ⟨r'', equal, hgives'', -, -, hequal, hsame, -⟩ :=
    hperm (by decide) args.reverse args.reverse_perm (nofun)
  obtain ⟨rfl, rfl⟩ := hsame (.inl rfl)
  refine ⟨hne, hargs, hfits, ⟨r, hgives, mt hint.mp hreal, ?_⟩,
    ⟨p, hproduct, mt hintp.mp hreal, ?_⟩, r'', hgives', ?_, hgives'', hequal⟩
  · rw [hmeaning]
    simp only [args, List.map_cons, List.map_nil, Operator.meaning, List.foldl_cons, List.foldl_nil,
      Value.number, Decimal.value]
    norm_num
  · rw [hmeaningp]
    simp only [args, List.map_cons, List.map_nil, Operator.meaning, List.prod_cons, List.prod_nil,
      Value.number, Decimal.value]
    norm_num
  · rw [hmeaning']
    simp only [args, List.map_cons, List.map_nil, Operator.meaning, List.sum_cons, List.sum_nil,
      Value.number, Decimal.value]
    norm_num

/-- A product whose first two factors make one keeps the places of the third factor.  In another
order it has ten places more, and the two are not found equal, although they are the same number. -/
theorem product_order_not_equal :
    let args : List Value := [.real ⟨200000, 5⟩, .real ⟨50000, 5⟩, .int 7922816251533193472]
    let args' : List Value := [.real ⟨200000, 5⟩, .int 7922816251533193472, .real ⟨50000, 5⟩]
    let d : Decimal := ⟨7922816251533193472, 0⟩
    let d' : Decimal := ⟨79228162515331934720000000000, 10⟩
    let session := ((new 10).newSession true).1
    let w := ((new 10).newSession true).2
    args.Perm args' ∧ (new 10).Gives "*" args (.real d) ∧ (new 10).Gives "*" args' (.real d') ∧
      d.value = d'.value ∧ (new 10).Gives "=" [.real d, .real d'] (.bool false) ∧
      (w.evalText 100 session ("(= (* 2.00000 0.50000 7922816251533193472) " ++
        "(* 2.00000 7922816251533193472 0.50000))")).map Prod.fst = some (.ok (.bool false)) := by
  intro args args' d d' session w
  have hargs : ∀ v ∈ args, v.IsNumber := by simp [args, Value.IsNumber]
  have hargs' : ∀ v ∈ args', v.IsNumber := by simp [args', Value.IsNumber]
  have hreal : ¬ ∀ v ∈ args, v.IsInt := by simp [args, Value.IsInt]
  have hreal' : ¬ ∀ v ∈ args', v.IsInt := by simp [args', Value.IsInt]
  obtain ⟨x, hx, hgives, -⟩ := Operator.product.gives_nums 10 (List.cons_ne_nil _ _) hargs hreal
    fun _ _ => by decide +kernel
  obtain ⟨x', hx', hgives', -⟩ :=
    Operator.product.gives_nums 10 (List.cons_ne_nil _ _) hargs' hreal' fun _ _ => by decide +kernel
  have hd : Operator.product.decimals (args.map Value.decimal) = some d := by decide +kernel
  have hd' : Operator.product.decimals (args'.map Value.decimal) = some d' := by decide +kernel
  have hequal : Decimal.equal d d' = false := by decide +kernel
  obtain rfl : x = d := Option.some.inj (hx.symm.trans hd)
  obtain rfl : x' = d' := Option.some.inj (hx'.symm.trans hd')
  refine ⟨.cons _ (.swap _ _ _), hgives, hgives', Decimal.same_iff.mp (by decide +kernel),
    hequal ▸ gives_equal_real 10 _ _, ?_⟩
  decide +kernel

end World

end DispatchLisp
