import DispatchLisp.Proofs.Exactness
import DispatchLisp.Proofs.Outcomes

/-! # Chains of comparisons

A chain `(< a b c ...)` looks at adjacent pairs only.  Two integers are compared as such, and any
other two numbers as decimals.  Both are the order of the rational numbers that they are
(`Prelude.compareValues_eq`), which is transitive.  So a chain holds if and only if every number is
in order with every later one (`Comparison.chainHolds_eq`). -/

namespace DispatchLisp

/-- Decimals are compared by value. -/
theorem Decimal.compare_eq (a b : Decimal) : compare a b = Ord.compare a.value b.value := by
  have hpow : (0 : ℚ) < 10 ^ (max a.scale b.scale) := zpow_pos (by norm_num) _
  have hmono : StrictMono fun n : Int => (n : ℚ) / 10 ^ (max a.scale b.scale) := by
    intro m n hmn
    exact div_lt_div_of_pos_right (by exact_mod_cast hmn) hpow
  rw [← a.coefficientAt_div (le_max_left a.scale b.scale),
    ← b.coefficientAt_div (le_max_right a.scale b.scale), ← cmp_eq_compare]
  exact ((hmono.cmp_map_eq _ _).trans (cmp_eq_compare _ _)).symm

namespace Prelude

/-- Numbers are compared by value, whether they are integers or reals. -/
theorem compareValues_eq {a b : Value} (ha : a.IsNumber) (hb : b.IsNumber) :
    compareValues a b = some (compare a.number b.number) := by
  have hdecimals : some (Decimal.compare a.decimal b.decimal) =
      some (compare a.number b.number) := by
    rw [Decimal.compare_eq, ha.value_decimal, hb.value_decimal]
  rcases ha with ⟨m, rfl⟩ | ⟨d, rfl⟩ <;> rcases hb with ⟨n, rfl⟩ | ⟨e, rfl⟩
  · rw [← hdecimals]
    simp [compareValues, Value.decimal, Value.toDecimal?, Decimal.compare, Decimal.ofInt,
      Decimal.coefficientAt, Decimal.powerOfTen]
  · exact hdecimals
  · exact hdecimals
  · exact hdecimals

end Prelude

/-- The comparisons of numbers. -/
inductive Comparison
  | less
  | greater
  | atMost
  | atLeast
deriving DecidableEq

namespace Comparison

/-- The name of the comparison. -/
def name : Comparison → String
  | less => "<"
  | greater => ">"
  | atMost => "<="
  | atLeast => ">="

/-- The orders of two numbers that are wanted. -/
def wanted : Comparison → Ordering → Bool
  | less => (· == .lt)
  | greater => (· == .gt)
  | atMost => (· != .gt)
  | atLeast => (· != .lt)

/-- What the comparison means for two numbers. -/
def InOrder : Comparison → Value → Value → Prop
  | less, v, w => v.number < w.number
  | greater, v, w => v.number > w.number
  | atMost, v, w => v.number ≤ w.number
  | atLeast, v, w => v.number ≥ w.number

/-- The comparison the other way round. -/
def converse : Comparison → Comparison
  | less => greater
  | greater => less
  | atMost => atLeast
  | atLeast => atMost

variable (c : Comparison)

theorem wanted_compare_iff (v w : Value) :
    c.wanted (compare v.number w.number) = true ↔ c.InOrder v w := by
  cases c <;> simp [wanted, InOrder, compare_lt_iff_lt, compare_gt_iff_gt]

instance : Trans c.InOrder c.InOrder c.InOrder where
  trans := by
    intro u v w huv hvw
    cases c with
    | less => exact lt_trans huv hvw
    | greater => exact gt_trans huv hvw
    | atMost => exact le_trans huv hvw
    | atLeast => exact ge_trans huv hvw

theorem inOrder_converse (v w : Value) : c.converse.InOrder v w ↔ c.InOrder w v := by
  cases c <;> rfl

/-- **A chain of numbers** holds if and only if each number is in order with all later ones. -/
theorem chainHolds_eq {args : List Value} (h : ∀ v ∈ args, v.IsNumber) :
    ∃ b, Prelude.chainHolds c.name c.wanted args = .ok b ∧
      (b = true ↔ args.Pairwise c.InOrder) := by
  -- Adjacent pairs are enough, since the order is transitive.
  simp only [← List.isChain_iff_pairwise]
  fun_induction Prelude.chainHolds c.name c.wanted args with
  | case1 a b rest o ho hwanted ih =>
      obtain ⟨ha, hrest⟩ := List.forall_mem_cons.mp h
      have hb := (List.forall_mem_cons.mp hrest).1
      obtain ⟨r, hr, hiff⟩ := ih hrest
      rw [Prelude.compareValues_eq ha hb, Option.some.injEq] at ho
      rw [← ho, c.wanted_compare_iff] at hwanted
      exact ⟨r, hr, by rw [hiff, List.isChain_cons_cons, and_iff_right hwanted]⟩
  | case2 a b rest o ho hwanted =>
      obtain ⟨ha, hrest⟩ := List.forall_mem_cons.mp h
      have hb := (List.forall_mem_cons.mp hrest).1
      rw [Prelude.compareValues_eq ha hb, Option.some.injEq] at ho
      rw [← ho, c.wanted_compare_iff] at hwanted
      refine ⟨false, rfl, iff_of_false (by decide) fun hchain => ?_⟩
      exact hwanted (List.isChain_cons_cons.mp hchain).1
  | case3 a b rest hnone =>
      obtain ⟨ha, hrest⟩ := List.forall_mem_cons.mp h
      rw [Prelude.compareValues_eq ha (List.forall_mem_cons.mp hrest).1] at hnone
      cases hnone
  | case4 args hshort =>
      refine ⟨true, rfl, iff_of_true rfl ?_⟩
      rcases args with _ | ⟨a, _ | ⟨b, rest⟩⟩
      · exact .nil
      · exact .singleton a
      · exact absurd rfl (hshort a b rest)

theorem named_eq : Overloads.named c.name (Prelude.core ++ Prelude.entries) =
    ⟨c.name, [Prelude.variadic c.name [.num, .num] .num (Prelude.chain c.name c.wanted)]⟩ := by
  cases c <;> rfl

/-- A chain of two numbers or more gives a truth value. -/
theorem gives (limit : Nat) {args : List Value} (hlength : 2 ≤ args.length)
    (h : ∀ v ∈ args, v.IsNumber) :
    ∃ b, (World.new limit).Gives c.name args (.bool b) ∧
      (b = true ↔ args.Pairwise c.InOrder) := by
  obtain ⟨b, hb, hiff⟩ := c.chainHolds_eq h
  have hmatches : Entry.Matches (some .num) [.num, .num] args :=
    (Entry.matches_all (by simp)).mpr ⟨hlength, fun v hv => (h v hv).admits⟩
  refine ⟨b, World.gives_of_selected limit rfl (Overloads.selected_sole c.named_eq hmatches)
    fun heap => ?_, hiff⟩
  rw [Prelude.chain, hb]
  rfl

/-- A chain gives the same as the converse chain of the numbers in the opposite order. -/
theorem gives_reverse (limit : Nat) {args : List Value} (hlength : 2 ≤ args.length)
    (h : ∀ v ∈ args, v.IsNumber) {b : Bool} (hb : (World.new limit).Gives c.name args (.bool b)) :
    (World.new limit).Gives c.converse.name args.reverse (.bool b) := by
  have hlength' : 2 ≤ args.reverse.length := by rwa [List.length_reverse]
  have h' : ∀ v ∈ args.reverse, v.IsNumber := fun v hv => h v (List.mem_reverse.mp hv)
  obtain ⟨b₁, hb₁, hiff⟩ := c.gives limit hlength h
  obtain ⟨b₂, hb₂, hiff'⟩ := c.converse.gives limit hlength' h'
  simp only [List.pairwise_reverse, inOrder_converse] at hiff'
  obtain rfl : b = b₁ := Value.bool.inj (hb.unique hb₁)
  obtain rfl : b = b₂ := Bool.eq_iff_iff.mpr (hiff.trans hiff'.symm)
  exact hb₂

end Comparison

namespace World

/-- **Chains of comparisons compare everything.**  With two numbers or more, none of the comparisons
fails.  The chain `<` holds if and only if each number is less than every later one, and `<=` if and
only if none is greater than a later one; `>` and `>=` give what `<` and `<=` give for the numbers
in the opposite order. -/
theorem chains_compare_all (limit : Nat) {args : List Value} (hlength : 2 ≤ args.length)
    (hargs : ∀ v ∈ args, v.IsNumber) :
    ∃ less atMost greater atLeast : Bool,
      ((new limit).Gives "<" args (.bool less) ∧
        (less = true ↔ args.Pairwise fun v w => v.number < w.number)) ∧
      ((new limit).Gives "<=" args (.bool atMost) ∧
        (atMost = true ↔ args.Pairwise fun v w => v.number ≤ w.number)) ∧
      ((new limit).Gives ">" args (.bool greater) ∧
        (new limit).Gives "<" args.reverse (.bool greater)) ∧
      (new limit).Gives ">=" args (.bool atLeast) ∧
        (new limit).Gives "<=" args.reverse (.bool atLeast) := by
  obtain ⟨less, hless, hless'⟩ := Comparison.less.gives limit hlength hargs
  obtain ⟨atMost, hatMost, hatMost'⟩ := Comparison.atMost.gives limit hlength hargs
  obtain ⟨greater, hgreater, -⟩ := Comparison.greater.gives limit hlength hargs
  obtain ⟨atLeast, hatLeast, -⟩ := Comparison.atLeast.gives limit hlength hargs
  exact ⟨less, atMost, greater, atLeast, ⟨hless, hless'⟩, ⟨hatMost, hatMost'⟩,
    ⟨hgreater, Comparison.greater.gives_reverse limit hlength hargs hgreater⟩, hatLeast,
    Comparison.atLeast.gives_reverse limit hlength hargs hatLeast⟩

/-- Integers and reals in turn: `-2`, `-1.50`, `-1.5` and `0` are in order, but not strictly. -/
theorem chains_compare_all_mixed :
    let args : List Value := [.int (-2), .real ⟨-150, 2⟩, .real ⟨-15, 1⟩, .int 0]
    2 ≤ args.length ∧ (∀ v ∈ args, v.IsNumber) ∧ (new 10).Gives "<" args (.bool false) ∧
      (new 10).Gives "<=" args (.bool true) ∧ (new 10).Gives ">=" args.reverse (.bool true) := by
  intro args
  have hlength : 2 ≤ args.length := by decide
  have hargs : ∀ v ∈ args, v.IsNumber := by simp [args, Value.IsNumber]
  have hreverse : ∀ v ∈ args.reverse, v.IsNumber := fun v hv => hargs v (List.mem_reverse.mp hv)
  obtain ⟨less, atMost, -, -, ⟨hless, hless'⟩, ⟨hatMost, hatMost'⟩, -⟩ :=
    chains_compare_all 10 hlength hargs
  obtain ⟨-, -, -, atLeast, -, -, -, hatLeast, hback⟩ :=
    chains_compare_all 10 (by decide) hreverse
  have hnumbers : args.map Value.number = [-2, -3 / 2, -3 / 2, 0] := by
    simp only [args, List.map_cons, List.map_nil, Value.number, Decimal.value]
    norm_num
  have hstrict : ¬ args.Pairwise fun v w => v.number < w.number := by
    rw [← List.pairwise_map, hnumbers]
    norm_num
  have hweak : args.Pairwise fun v w => v.number ≤ w.number := by
    rw [← List.pairwise_map, hnumbers]
    norm_num
  obtain rfl : less = false := by simpa [hstrict] using hless'
  obtain rfl : atMost = true := hatMost'.mpr hweak
  rw [List.reverse_reverse] at hback
  obtain rfl : true = atLeast := Value.bool.inj (hatMost.unique hback)
  exact ⟨hlength, hargs, hless, hatMost, hatLeast⟩

end World

end DispatchLisp
