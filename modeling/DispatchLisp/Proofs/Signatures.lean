import DispatchLisp.Proofs.Selection
import Mathlib.Algebra.Ring.Nat

/-! # Signatures

What the declared kinds of an overload say about the arguments that it is called with.

* Arguments have a score if and only if they are of the declared kinds, `Entry.Matches`
  (`Entry.accepts_score_iff`).  A statement about all arguments of the declared kinds opens to one
  about the form that they have (`Entry.forall_matches_cons`).
* A constraint gives the same score to every value that meets it (`Kind.score_eq_rank`), so the
  score of a call depends on the number of the arguments only (`Entry.weight`).
* Two overloads are apart (`Entry.apart`) if they never have the same score: no arguments are taken
  by both, or one of them always has the higher score.  This can be computed from the signatures,
  and a set of overloads that are apart from each other is never ambiguous
  (`Overloads.select_ne_ambiguous`). -/

namespace DispatchLisp

/-! ### One constraint -/

namespace Kind

variable {k k' : Kind} {v : Value} {n : Nat}

/-- The score of every value that meets the constraint. -/
def rank : Kind → Nat
  | any => 1
  | num => 2
  | _ => 3

/-- The value meets the constraint. -/
def Admits (k : Kind) (v : Value) : Prop := ∃ n, k.score v = some n

/-- A value meets a constraint as anything, as a number, or exactly. -/
theorem score_eq_some_iff : k.score v = some n ↔ n = k.rank ∧
    (k = any ∨ (k = num ∧ (v.kind = int ∨ v.kind = real)) ∨ k = v.kind) := by
  have hkind : v.kind ≠ any ∧ v.kind ≠ num := by cases v <;> simp [Value.kind]
  generalize hv : v.kind = actual at hkind
  unfold score
  rw [hv]
  split
  · simp [rank, eq_comm]
  · simp [rank, eq_comm]
  · simp [rank, eq_comm]
  · next hany hint hreal =>
    by_cases heq : k = actual
    · subst heq
      have hrank : k.rank = 3 := by cases k <;> simp_all [rank]
      simp [hrank, eq_comm]
    · rw [if_neg heq]
      refine iff_of_false (by simp) ?_
      rintro ⟨-, rfl | ⟨rfl, hactual | hactual⟩ | hactual⟩
      · exact hany rfl
      · exact hint rfl hactual
      · exact hreal rfl hactual
      · exact heq hactual

theorem score_eq_rank (h : k.score v = some n) : n = k.rank := (score_eq_some_iff.mp h).1

theorem admits_iff : k.Admits v ↔
    k = any ∨ (k = num ∧ (v.kind = int ∨ v.kind = real)) ∨ k = v.kind := by
  simp only [Admits, score_eq_some_iff, exists_eq_left]

@[simp] theorem admits_any : any.Admits v := admits_iff.mpr (.inl rfl)

@[simp] theorem admits_num : num.Admits v ↔ (∃ i, v = .int i) ∨ ∃ d, v = .real d := by
  cases v <;> simp [admits_iff, Value.kind]

@[simp] theorem admits_bool : bool.Admits v ↔ ∃ b, v = .bool b := by
  cases v <;> simp [admits_iff, Value.kind]

@[simp] theorem admits_int : int.Admits v ↔ ∃ i, v = .int i := by
  cases v <;> simp [admits_iff, Value.kind]

@[simp] theorem admits_real : real.Admits v ↔ ∃ d, v = .real d := by
  cases v <;> simp [admits_iff, Value.kind]

@[simp] theorem admits_str : str.Admits v ↔ ∃ text, v = .str text := by
  cases v <;> simp [admits_iff, Value.kind]

@[simp] theorem admits_list : list.Admits v ↔ ∃ l, v = .list l := by
  cases v <;> simp [admits_iff, Value.kind]

@[simp] theorem admits_table : table.Admits v ↔ ∃ t, v = .table t := by
  cases v <;> simp [admits_iff, Value.kind]

@[simp] theorem admits_function : function.Admits v ↔ ∃ f, v = .function f := by
  cases v <;> simp [admits_iff, Value.kind]

/-- No value meets both constraints. -/
def excludes (k k' : Kind) : Bool :=
  match k, k' with
  | any, _ | _, any => false
  | num, k => k != num && k != int && k != real
  | k, num => k != int && k != real
  | k, k' => k != k'

theorem not_admits_of_excludes (h : k.excludes k' = true) (hv : k.Admits v) : ¬ k'.Admits v := by
  rw [admits_iff] at hv ⊢
  intro hv'
  unfold excludes at h
  split at h
  · cases h
  · cases h
  all_goals simp_all

end Kind

/-! ### Signatures -/

namespace Entry

variable {variadic : Option Kind} {ks : List Kind} {args : List Value} {n : Nat} {e e' : Entry}

/-- The arguments are of the declared kinds: the first ones meet the constraints one by one, and all
others the constraint for further arguments. -/
def Matches (variadic : Option Kind) : List Kind → List Value → Prop
  | [], vs => ∀ v ∈ vs, ∃ k, variadic = some k ∧ k.Admits v
  | k :: ks, v :: vs => k.Admits v ∧ Matches variadic ks vs
  | _ :: _, [] => False

theorem matches_nil : Matches none [] args ↔ args = [] := by
  constructor
  · intro h
    refine List.eq_nil_iff_forall_not_mem.mpr fun v hv => ?_
    obtain ⟨k, hk, -⟩ := h v hv
    cases hk
  · rintro rfl
    simp [Matches]

/-- What holds of the arguments is said of the first one and of the others. -/
theorem forall_matches_cons {k : Kind} {p : List Value → Prop} :
    (∀ args, Matches variadic (k :: ks) args → p args) ↔
      ∀ v, k.Admits v → ∀ vs, Matches variadic ks vs → p (v :: vs) := by
  constructor
  · intro h v hv vs hvs
    exact h (v :: vs) ⟨hv, hvs⟩
  · intro h args hargs
    cases args with
    | nil => exact hargs.elim
    | cons v vs => exact h v hargs.1 vs hargs.2

theorem forall_matches_nil {p : List Value → Prop} :
    (∀ args, Matches none [] args → p args) ↔ p [] := by
  simp only [matches_nil, forall_eq]

/-- Arguments that all have the same kind. -/
theorem matches_all {k : Kind} (hks : ∀ k' ∈ ks, k' = k) :
    Matches (some k) ks args ↔ ks.length ≤ args.length ∧ ∀ v ∈ args, k.Admits v := by
  induction ks generalizing args with
  | nil => simp [Matches]
  | cons k' ks ih =>
      obtain ⟨rfl, hks⟩ := List.forall_mem_cons.mp hks
      cases args with
      | nil => simp [Matches]
      | cons v vs => simp [Matches, ih hks, and_left_comm]

/-- The score of any arguments that are of the declared kinds, given their number. -/
def weight (e : Entry) (n : Nat) : Nat :=
  (e.params.map Kind.rank).sum + (n - e.params.length) * e.variadic.elim 0 Kind.rank

theorem scoreArgs_nil_eq_some_iff {k : Kind} :
    scoreArgs (some k) [] args = some n ↔ (∀ v ∈ args, k.Admits v) ∧ n = args.length * k.rank := by
  induction args generalizing n with
  | nil => simp [scoreArgs, eq_comm]
  | cons v vs ih =>
      have hstep : scoreArgs (some k) [] (v :: vs) = some n ↔
          ∃ a, k.score v = some a ∧ ∃ b, scoreArgs (some k) [] vs = some b ∧ a + b = n := by
        simp [scoreArgs, Option.bind_eq_some_iff]
      rw [hstep, List.forall_mem_cons, List.length_cons]
      constructor
      · rintro ⟨a, ha, b, hb, rfl⟩
        obtain ⟨hvs, rfl⟩ := ih.mp hb
        refine ⟨⟨⟨a, ha⟩, hvs⟩, ?_⟩
        rw [Kind.score_eq_rank ha, Nat.succ_mul, Nat.add_comm]
      · rintro ⟨⟨⟨a, ha⟩, hvs⟩, rfl⟩
        refine ⟨a, ha, _, ih.mpr ⟨hvs, rfl⟩, ?_⟩
        rw [Kind.score_eq_rank ha, Nat.succ_mul, Nat.add_comm]

/-- **Arguments have a score if and only if they are of the declared kinds**, and the score depends
on their number only. -/
theorem accepts_score_iff : (e.accepts args.length = true ∧ e.score args = some n) ↔
    Matches e.variadic e.params args ∧ n = e.weight args.length := by
  obtain ⟨name, ks, variadic, body⟩ := e
  simp only [accepts, score, weight]
  induction ks generalizing args n with
  | nil =>
      cases variadic with
      | none =>
          rw [matches_nil]
          cases args <;> simp [scoreArgs, eq_comm]
      | some k => simp [Matches, scoreArgs_nil_eq_some_iff]
  | cons k ks ih =>
      cases args with
      | nil => simp [Matches]
      | cons v vs =>
          have hstep : scoreArgs variadic (k :: ks) (v :: vs) = some n ↔
              ∃ a, k.score v = some a ∧ ∃ b, scoreArgs variadic ks vs = some b ∧ a + b = n := by
            simp [scoreArgs, Option.bind_eq_some_iff]
          have haccepts : (if variadic.isSome then decide ((k :: ks).length ≤ (v :: vs).length)
              else (k :: ks).length == (v :: vs).length) =
              if variadic.isSome then decide (ks.length ≤ vs.length)
                else ks.length == vs.length := by
            simp
          have hlength : (v :: vs).length - (k :: ks).length = vs.length - ks.length := by simp
          rw [haccepts, hstep, Matches, List.map_cons, List.sum_cons, hlength]
          constructor
          · rintro ⟨hacc, a, ha, b, hb, rfl⟩
            obtain ⟨hvs, rfl⟩ := ih.mp ⟨hacc, hb⟩
            refine ⟨⟨⟨a, ha⟩, hvs⟩, ?_⟩
            rw [Kind.score_eq_rank ha, Nat.add_assoc]
          · rintro ⟨⟨⟨a, ha⟩, hvs⟩, rfl⟩
            obtain ⟨hacc, hb⟩ := ih.mpr ⟨hvs, rfl⟩
            refine ⟨hacc, a, ha, _, hb, ?_⟩
            rw [Kind.score_eq_rank ha, Nat.add_assoc]

/-! ### Overloads that are apart -/

/-- No number of arguments is accepted by both overloads. -/
def differInLength (e e' : Entry) : Bool :=
  match e.variadic, e'.variadic with
  | none, none => e.params.length != e'.params.length
  | none, some _ => decide (e.params.length < e'.params.length)
  | some _, none => decide (e'.params.length < e.params.length)
  | some _, some _ => false

/-- Some argument would have to be of two kinds that exclude each other. -/
def differInKind (e e' : Entry) : Bool :=
  (e.params.zip e'.params).any fun (k, k') => k.excludes k'

/-- The first overload has a higher score than the second one, whatever the number of arguments. -/
def outweighs (e e' : Entry) : Bool :=
  e.params.length == e'.params.length &&
    decide ((e'.params.map Kind.rank).sum < (e.params.map Kind.rank).sum) &&
    decide (e'.variadic.elim 0 Kind.rank ≤ e.variadic.elim 0 Kind.rank)

/-- The two overloads never have the same score. -/
def apart (e e' : Entry) : Bool :=
  e.differInLength e' || e.differInKind e' || e.outweighs e' || e'.outweighs e

theorem not_accepts_of_differInLength (h : e.differInLength e' = true) (hn : e.accepts n = true) :
    e'.accepts n = false := by
  obtain ⟨name, ks, variadic, body⟩ := e
  obtain ⟨name', ks', variadic', body'⟩ := e'
  cases variadic <;> cases variadic' <;> simp [differInLength, accepts] at h hn ⊢ <;> omega

theorem not_matches_of_any_excludes {variadic variadic' : Option Kind} {ks ks' : List Kind}
    (h : (ks.zip ks').any (fun (k, k') => k.excludes k') = true)
    (hargs : Matches variadic ks args) :
    ¬ Matches variadic' ks' args := by
  induction ks generalizing ks' args with
  | nil => simp at h
  | cons k ks ih =>
      cases ks' with
      | nil => simp at h
      | cons k' ks' =>
          cases args with
          | nil => exact hargs.elim
          | cons v vs =>
              rintro ⟨hv', hvs'⟩
              obtain ⟨hv, hvs⟩ := hargs
              rw [List.zip_cons_cons, List.any_cons, Bool.or_eq_true] at h
              rcases h with h | h
              · exact Kind.not_admits_of_excludes h hv hv'
              · exact ih h hvs hvs'

theorem weight_lt_of_outweighs (h : e.outweighs e' = true) (n : Nat) :
    e'.weight n < e.weight n := by
  simp only [outweighs, Bool.and_eq_true, beq_iff_eq, decide_eq_true_eq] at h
  obtain ⟨⟨hlength, hparams⟩, hvariadic⟩ := h
  have hrest := Nat.mul_le_mul_left (n - e.params.length) hvariadic
  rw [weight, weight, ← hlength]
  omega

/-- **Overloads that are apart never have the same score.** -/
theorem score_ne_of_apart (h : e.apart e' = true) (hacc : e.accepts args.length = true)
    (hacc' : e'.accepts args.length = true) {k k' : Nat} (hscore : e.score args = some k)
    (hscore' : e'.score args = some k') : k ≠ k' := by
  obtain ⟨hargs, rfl⟩ := accepts_score_iff.mp ⟨hacc, hscore⟩
  obtain ⟨hargs', rfl⟩ := accepts_score_iff.mp ⟨hacc', hscore'⟩
  simp only [apart, Bool.or_eq_true] at h
  rcases h with ((hlength | hkind) | hmore) | hless
  · rw [not_accepts_of_differInLength hlength hacc] at hacc'
    cases hacc'
  · exact absurd hargs' (not_matches_of_any_excludes hkind hargs)
  · exact Nat.ne_of_gt (weight_lt_of_outweighs hmore _)
  · exact Nat.ne_of_lt (weight_lt_of_outweighs hless _)

end Entry

namespace Overloads

variable {o : Overloads}

theorem matches_of_select {args : List Value} {i : Nat} (h : o.select args = .ok i) :
    ∃ e, o.entries[i]? = some e ∧ Entry.Matches e.variadic e.params args := by
  obtain ⟨k, ⟨e, he, hacc, hscore⟩, -⟩ := (o.select_eq_ok_iff args).mp h
  exact ⟨e, he, (Entry.accepts_score_iff.mp ⟨hacc, hscore⟩).1⟩

/-- An overload that outweighs all others of the arguments' kinds is selected. -/
theorem selected_of_matches {args : List Value} {e : Entry} {i : Nat} (hi : o.entries[i]? = some e)
    (hargs : Entry.Matches e.variadic e.params args)
    (hbest : ∀ j e', o.entries[j]? = some e' → j ≠ i → Entry.Matches e'.variadic e'.params args →
      e'.weight args.length < e.weight args.length) : o.selected args = .ok e := by
  obtain ⟨hacc, hscore⟩ := Entry.accepts_score_iff.mpr ⟨hargs, rfl⟩
  refine (o.selected_eq_ok_iff args).mpr ⟨i, ?_, hi⟩
  refine (o.select_eq_ok_iff args).mpr ⟨_, ⟨e, hi, hacc, hscore⟩, ?_⟩
  rintro j k ⟨e', hj, hacc', hscore'⟩ hne
  obtain ⟨hargs', rfl⟩ := Entry.accepts_score_iff.mp ⟨hacc', hscore'⟩
  exact hbest j e' hj hne hargs'

/-- **Overloads that are apart from each other are never ambiguous.** -/
theorem select_ne_ambiguous (h : o.entries.Pairwise fun e e' => e.apart e' = true)
    (args : List Value) (name kinds : String) : o.select args ≠ .error (.ambiguous name kinds) := by
  intro hselect
  obtain ⟨i, j, k, hne, ⟨e, he, hacc, hscore⟩, ⟨e', he', hacc', hscore'⟩, -⟩ :=
    (o.select_ambiguous_iff args).mp ⟨name, kinds, hselect⟩
  obtain ⟨hi, rfl⟩ := List.getElem?_eq_some_iff.mp he
  obtain ⟨hj, rfl⟩ := List.getElem?_eq_some_iff.mp he'
  rw [List.pairwise_iff_getElem] at h
  rcases Nat.lt_or_gt_of_ne hne with hlt | hgt
  · exact Entry.score_ne_of_apart (h i j hi hj hlt) hacc hacc' hscore hscore' rfl
  · exact Entry.score_ne_of_apart (h j i hj hi hgt) hacc' hacc hscore' hscore rfl

end Overloads

end DispatchLisp
