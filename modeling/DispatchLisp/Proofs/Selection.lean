import DispatchLisp.Function.Overload
import Mathlib.Data.List.Nodup
import Mathlib.Data.List.OfFn
import Mathlib.Logic.Equiv.Basic

/-! # Overload selection is the unique best match

`Overloads.select` filters the overloads by the number of arguments, scores and sorts the rest and
compares the first two.  What it means is said here without these steps.

* A *candidate* is an overload that accepts the number of arguments and has a score
  (`Overloads.Candidate`), known by its place in the set.
* The ranking is the library's stable sort (`Overloads.ranked_eq_mergeSort`).  Its first candidate
  has the highest score, and the second one shows whether another candidate has it too.
* The chosen overload is the candidate whose score is above that of every other candidate, and each
  of the three errors stands for one way in which there is none.
* The order of registration has no influence: `permute` reorders a set, and the selection moves
  along with the overloads. -/

namespace DispatchLisp

theorem Kind.score_le {k : Kind} {v : Value} {n : Nat} (h : k.score v = some n) : n ≤ 3 := by
  unfold score at h
  grind

namespace Entry

/-- Arguments of which nothing is asked score one each. -/
theorem scoreArgs_any {variadic : Option Kind} {ks : List Kind} {args : List Value}
    (hks : ∀ k ∈ ks, k = .any) (h : variadic = some .any ∨ args.length ≤ ks.length) :
    scoreArgs variadic ks args = some args.length := by
  induction args generalizing ks with
  | nil => cases ks <;> rfl
  | cons v vs ih =>
      cases ks with
      | nil =>
          obtain rfl := h.resolve_right (by simp)
          simp [scoreArgs, ih hks (.inl rfl), Kind.score, Nat.add_comm]
      | cons k ks =>
          obtain ⟨rfl, hothers⟩ := List.forall_mem_cons.mp hks
          have hrest : variadic = some .any ∨ vs.length ≤ ks.length := by simpa using h
          simp [scoreArgs, ih hothers hrest, Kind.score, Nat.add_comm]

/-- The score stays far below the largest 32-bit word: it is at most three for each argument. -/
theorem scoreArgs_le {variadic : Option Kind} {ks : List Kind} {args : List Value} {n : Nat}
    (h : scoreArgs variadic ks args = some n) : n ≤ 3 * args.length := by
  induction args generalizing ks n with
  | nil =>
      rw [scoreArgs] at h
      cases h
      exact Nat.zero_le _
  | cons v vs ih =>
      have hstep : ∀ {k : Kind} {ks : List Kind} {m l : Nat},
          k.score v = some m → scoreArgs variadic ks vs = some l →
            m + l ≤ 3 * (v :: vs).length := by
        intro k ks m l hm hl
        have := Kind.score_le hm
        have := ih hl
        rw [List.length_cons]
        omega
      cases ks with
      | nil =>
          simp only [scoreArgs, Option.bind_eq_bind, Option.bind_eq_some_iff, Option.pure_def,
            Option.some.injEq] at h
          obtain ⟨k, -, m, hm, l, hl, rfl⟩ := h
          exact hstep hm hl
      | cons k ks =>
          simp only [scoreArgs, Option.bind_eq_bind, Option.bind_eq_some_iff, Option.pure_def,
            Option.some.injEq] at h
          obtain ⟨m, hm, l, hl, rfl⟩ := h
          exact hstep hm hl

end Entry

namespace Overloads

variable (o : Overloads) (args : List Value)

/-- The overload at place `i` accepts the number of arguments and has the score `k` on them. -/
def Candidate (i k : Nat) : Prop :=
  ∃ e, o.entries[i]? = some e ∧ e.accepts args.length = true ∧ e.score args = some k

/-! ### The lists that selection goes through -/

theorem mem_accepting {e : Entry} {i : Nat} :
    (e, i) ∈ o.accepting args ↔ o.entries[i]? = some e ∧ e.accepts args.length = true := by
  unfold accepting
  rw [List.mem_filter, List.mem_zipIdx_iff_getElem?]

theorem accepting_isEmpty_iff :
    (o.accepting args).isEmpty = true ↔ ∀ e ∈ o.entries, e.accepts args.length = false := by
  rw [List.isEmpty_iff, List.eq_nil_iff_forall_not_mem]
  constructor
  · intro h e he
    obtain ⟨i, hi⟩ := List.mem_iff_getElem?.mp he
    have := h (e, i)
    rw [mem_accepting, not_and, Bool.not_eq_true] at this
    exact this hi
  · rintro h ⟨e, i⟩ hm
    obtain ⟨hi, hacc⟩ := (o.mem_accepting args).mp hm
    rw [h e (List.mem_of_getElem? hi)] at hacc
    cases hacc

theorem mem_candidates {i k : Nat} : (i, k) ∈ o.candidates args ↔ o.Candidate args i k := by
  unfold candidates Candidate
  simp only [List.mem_filterMap, Option.map_eq_some_iff, Prod.mk.injEq]
  constructor
  · rintro ⟨⟨e, j⟩, hm, k', hk, rfl, rfl⟩
    obtain ⟨he, hacc⟩ := (o.mem_accepting args).mp hm
    exact ⟨e, he, hacc, hk⟩
  · rintro ⟨e, he, hacc, hk⟩
    exact ⟨(e, i), (o.mem_accepting args).mpr ⟨he, hacc⟩, k, hk, rfl, rfl⟩

/-- No overload is listed twice. -/
theorem nodup_places : ((o.candidates args).map Prod.fst).Nodup := by
  have hzip : o.entries.zipIdx.Pairwise fun c d => c.2 ≠ d.2 := by
    have := List.nodup_range' (s := 0) (n := o.entries.length)
    rw [← List.zipIdx_map_snd] at this
    exact List.pairwise_map.mp this
  unfold candidates accepting
  refine List.pairwise_map.mpr ((hzip.filter _).filterMap _ ?_)
  rintro ⟨e, i⟩ ⟨e', j⟩ hne c hc d hd
  obtain ⟨_, _, rfl⟩ := Option.map_eq_some_iff.mp hc
  obtain ⟨_, _, rfl⟩ := Option.map_eq_some_iff.mp hd
  exact hne

/-! ### The ranked candidates -/

/-- The order of the ranking: the first candidate has at least the score of the second. -/
def leads (c d : Nat × Nat) : Bool := d.2 ≤ c.2

theorem leads_iff {c d : Nat × Nat} : leads c d = true ↔ d.2 ≤ c.2 := decide_eq_true_iff

theorem leads_trans (a b c : Nat × Nat) (hab : leads a b = true) (hbc : leads b c = true) :
    leads a c = true := leads_iff.mpr ((leads_iff.mp hbc).trans (leads_iff.mp hab))

theorem leads_total (a b : Nat × Nat) : (leads a b || leads b a) = true := by
  rw [Bool.or_eq_true, leads_iff, leads_iff]
  exact le_total _ _

/-- Inserting by score is one step of the library's stable sort. -/
theorem insertByScore_mergeSort (c : Nat × Nat) (cs : List (Nat × Nat)) :
    insertByScore c (cs.mergeSort leads) = (c :: cs).mergeSort leads := by
  obtain ⟨higher, others, hsorted, hcs, hhigher⟩ := List.mergeSort_cons leads_trans leads_total c cs
  have horder := List.pairwise_mergeSort leads_trans leads_total (c :: cs)
  rw [hsorted] at horder
  rw [hcs, hsorted]
  -- All candidates with a higher score are passed, and the next one has none.
  clear hsorted hcs
  induction higher with
  | nil =>
      cases others with
      | nil => rfl
      | cons d others =>
          exact if_pos (leads_iff.mp ((List.pairwise_cons.mp horder).1 d List.mem_cons_self))
  | cons d higher ih =>
      obtain ⟨hd, hhigher⟩ := List.forall_mem_cons.mp hhigher
      have hd : ¬ d.2 ≤ c.2 := by simpa [leads] using hd
      rw [List.cons_append, insertByScore, if_neg hd, ih hhigher (List.pairwise_cons.mp horder).2]
      rfl

/-- The ranking is the stable sort by score. -/
theorem ranked_eq_mergeSort : o.ranked args = (o.candidates args).mergeSort leads := by
  unfold ranked
  induction o.candidates args with
  | nil => exact List.mergeSort_nil.symm
  | cons c cs ih => rw [List.foldr_cons, ih, insertByScore_mergeSort]

theorem ranked_perm : (o.ranked args).Perm (o.candidates args) := by
  rw [ranked_eq_mergeSort]
  exact List.mergeSort_perm _ _

theorem mem_ranked {i k : Nat} : (i, k) ∈ o.ranked args ↔ o.Candidate args i k :=
  (o.ranked_perm args).mem_iff.trans (o.mem_candidates args)

theorem ranked_pairwise : (o.ranked args).Pairwise fun c d => d.2 ≤ c.2 := by
  rw [ranked_eq_mergeSort]
  exact (List.pairwise_mergeSort leads_trans leads_total _).imp leads_iff.mp

section

variable {o args} {i k : Nat} {rest : List (Nat × Nat)}

/-- The first of the ranked candidates has the highest score. -/
theorem first_of_ranked (h : o.ranked args = (i, k) :: rest) :
    o.Candidate args i k ∧ ∀ j l, o.Candidate args j l → l ≤ k := by
  have horder := o.ranked_pairwise args
  rw [h] at horder
  refine ⟨(o.mem_ranked args).mp (h ▸ List.mem_cons_self), fun j l hj => ?_⟩
  have hmem := (o.mem_ranked args).mpr hj
  rw [h, List.mem_cons] at hmem
  rcases hmem with heq | hrest
  · exact (Prod.mk.inj heq).2.le
  · exact (List.pairwise_cons.mp horder).1 (j, l) hrest

/-- The candidates after the first are those at another place. -/
theorem rest_of_ranked (h : o.ranked args = (i, k) :: rest) {j l : Nat} :
    (j, l) ∈ rest ↔ o.Candidate args j l ∧ j ≠ i := by
  have hplaces : ((o.ranked args).map Prod.fst).Nodup :=
    ((o.ranked_perm args).map _).nodup_iff.mpr (o.nodup_places args)
  rw [h, List.map_cons, List.nodup_cons] at hplaces
  rw [← mem_ranked, h, List.mem_cons]
  constructor
  · intro hrest
    refine ⟨.inr hrest, ?_⟩
    rintro rfl
    exact hplaces.1 (List.mem_map.mpr ⟨_, hrest, rfl⟩)
  · rintro ⟨heq | hrest, hne⟩
    · exact absurd (Prod.mk.inj heq).1 hne
    · exact hrest

/-- It is enough to look at the second of the ranked candidates to know whether another one has the
score of the first. -/
theorem second_of_ranked (h : o.ranked args = (i, k) :: rest) :
    rest.head?.map Prod.snd = some k ↔ ∃ j, o.Candidate args j k ∧ j ≠ i := by
  cases rest with
  | nil =>
      have hnone : ∀ j, ¬ (o.Candidate args j k ∧ j ≠ i) := fun j hj => by
        cases (rest_of_ranked h).mpr hj
      simpa using hnone
  | cons second more =>
      obtain ⟨m, l⟩ := second
      have horder := o.ranked_pairwise args
      rw [h] at horder
      obtain ⟨hfirst, horder⟩ := List.pairwise_cons.mp horder
      have hle : l ≤ k := hfirst (m, l) List.mem_cons_self
      rw [List.head?_cons, Option.map_some, Option.some.injEq]
      constructor
      · rintro rfl
        exact ⟨m, (rest_of_ranked h).mp List.mem_cons_self⟩
      · rintro ⟨j, hj⟩
        rcases List.mem_cons.mp ((rest_of_ranked h).mpr hj) with heq | hmore
        · exact (Prod.mk.inj heq).2.symm
        · exact le_antisymm hle ((List.pairwise_cons.mp horder).1 (j, k) hmore)

/-- What selection answers to a ranking that begins with a candidate. -/
theorem select_of_ranked (h : o.ranked args = (i, k) :: rest) :
    o.select args =
      if rest.head?.map Prod.snd = some k then .error (.ambiguous o.name (describeKinds args))
      else .ok i := by
  have haccepting : (o.accepting args).isEmpty = false := by
    obtain ⟨⟨e, he, hacc, -⟩, -⟩ := first_of_ranked h
    rw [← Bool.not_eq_true, accepting_isEmpty_iff]
    intro hnone
    rw [hnone e (List.mem_of_getElem? he)] at hacc
    cases hacc
  unfold select
  rw [haccepting, h]
  cases rest with
  | nil => rfl
  | cons second more => simp [eq_comm]

/-- What selection answers if there is no candidate. -/
theorem select_of_ranked_nil (h : o.ranked args = []) :
    (∀ i k, ¬ o.Candidate args i k) ∧
      o.select args =
        if (o.accepting args).isEmpty then
          .error (.arity o.name (" or ".intercalate (squeeze (o.entries.map Entry.arity)))
            args.length)
        else .error (.noOverload o.name (describeKinds args)) := by
  refine ⟨fun i k hi => ?_, by rw [select, h]⟩
  have := (o.mem_ranked args).mpr hi
  rw [h] at this
  cases this

end

/-! ### What selection answers -/

/-- The chosen overload is the candidate with a score above that of every other candidate. -/
theorem select_eq_ok_iff {i : Nat} :
    o.select args = .ok i ↔
      ∃ k, o.Candidate args i k ∧ ∀ j l, o.Candidate args j l → j ≠ i → l < k := by
  cases hranked : o.ranked args with
  | nil =>
      obtain ⟨hnone, hselect⟩ := select_of_ranked_nil hranked
      rw [hselect]
      simp only [hnone, false_and, exists_false, iff_false]
      split <;> exact nofun
  | cons first rest =>
      obtain ⟨m, k⟩ := first
      obtain ⟨hm, hhighest⟩ := first_of_ranked hranked
      rw [select_of_ranked hranked]
      split
      · next htie =>
        -- Neither the first candidate nor another one is above all others.
        obtain ⟨j, hj, hne⟩ := (second_of_ranked hranked).mp htie
        refine ⟨nofun, ?_⟩
        rintro ⟨k', hi, habove⟩
        have hle := hhighest i k' hi
        by_cases him : m = i
        · have := habove j k hj (him ▸ hne)
          omega
        · have := habove m k hm him
          omega
      · next htie =>
        rw [second_of_ranked hranked] at htie
        constructor
        · intro h
          obtain rfl := Except.ok.inj h
          refine ⟨k, hm, fun j l hj hne => lt_of_le_of_ne (hhighest j l hj) ?_⟩
          rintro rfl
          exact htie ⟨j, hj, hne⟩
        · rintro ⟨k', hi, habove⟩
          by_contra hne
          have hlt := habove m k hm fun him => hne (congrArg _ him)
          have hle := hhighest i k' hi
          omega

theorem lt_length_of_candidate {i k : Nat} (h : o.Candidate args i k) : i < o.entries.length := by
  obtain ⟨e, he, _⟩ := h
  exact (List.getElem?_eq_some_iff.mp he).1

theorem score_le_of_candidate {i k : Nat} (h : o.Candidate args i k) : k ≤ 3 * args.length := by
  obtain ⟨e, _, _, hscore⟩ := h
  exact Entry.scoreArgs_le hscore

/-- The overload that a call runs is the one at the chosen place. -/
theorem selected_eq_ok_iff {e : Entry} :
    o.selected args = .ok e ↔ ∃ i, o.select args = .ok i ∧ o.entries[i]? = some e := by
  unfold selected
  cases hs : o.select args with
  | error c => simp [Except.map]
  | ok i =>
      obtain ⟨k, hc, _⟩ := (o.select_eq_ok_iff args).mp hs
      have hi := o.lt_length_of_candidate args hc
      simp [Except.map, List.getD_eq_getElem?_getD, List.getElem?_eq_getElem hi]

/-- The number of arguments is wrong if no overload accepts it. -/
theorem select_arity_iff :
    (∃ name expected actual, o.select args = .error (.arity name expected actual)) ↔
      ∀ e ∈ o.entries, e.accepts args.length = false := by
  rw [← accepting_isEmpty_iff]
  constructor
  · rintro ⟨name, expected, actual, h⟩
    by_contra hsome
    rw [select, if_neg hsome] at h
    split at h
    · cases h
    · cases h
    · split at h <;> cases h
  · intro hnone
    exact ⟨_, _, _, if_pos hnone⟩

/-- No overload matches if some accept the number of arguments but none of these has a score. -/
theorem select_noOverload_iff :
    (∃ name kinds, o.select args = .error (.noOverload name kinds)) ↔
      (∃ e ∈ o.entries, e.accepts args.length = true) ∧ ∀ i k, ¬ o.Candidate args i k := by
  have haccepting : (∃ e ∈ o.entries, e.accepts args.length = true) ↔
      ¬ (o.accepting args).isEmpty = true := by
    rw [accepting_isEmpty_iff]
    simp
  rw [haccepting]
  cases hranked : o.ranked args with
  | nil =>
      obtain ⟨hnone, hselect⟩ := select_of_ranked_nil hranked
      rw [hselect, and_iff_left hnone]
      split
      · next h => simp [h]
      · next h => simp [h]
  | cons first rest =>
      have hfirst := (first_of_ranked hranked).1
      rw [select_of_ranked hranked]
      refine ⟨?_, fun h => absurd hfirst (h.2 _ _)⟩
      rintro ⟨name, kinds, h⟩
      split at h <;> cases h

/-- The call is ambiguous if the highest score is that of two candidates. -/
theorem select_ambiguous_iff :
    (∃ name kinds, o.select args = .error (.ambiguous name kinds)) ↔
      ∃ i j k, i ≠ j ∧ o.Candidate args i k ∧ o.Candidate args j k ∧
        ∀ l m, o.Candidate args l m → m ≤ k := by
  cases hranked : o.ranked args with
  | nil =>
      obtain ⟨hnone, hselect⟩ := select_of_ranked_nil hranked
      rw [hselect]
      simp only [hnone, false_and, and_false, exists_false, iff_false]
      rintro ⟨name, kinds, h⟩
      split at h <;> cases h
  | cons first rest =>
      obtain ⟨m, k⟩ := first
      obtain ⟨hm, hhighest⟩ := first_of_ranked hranked
      rw [select_of_ranked hranked]
      split
      · next htie =>
        obtain ⟨j, hj, hne⟩ := (second_of_ranked hranked).mp htie
        exact iff_of_true ⟨_, _, rfl⟩ ⟨j, m, k, hne, hj, hm, hhighest⟩
      · next htie =>
        -- One of two candidates with the highest score is not the first.
        rw [second_of_ranked hranked] at htie
        refine iff_of_false (by rintro ⟨name, kinds, h⟩; cases h) ?_
        rintro ⟨i, j, k', hne, hi, hj, hmax⟩
        obtain rfl : k' = k := le_antisymm (hhighest i k' hi) (hmax m k hm)
        by_cases him : i = m
        · exact htie ⟨j, hj, fun hjm => hne (him.trans hjm.symm)⟩
        · exact htie ⟨i, hi, him⟩

/-! ### A single overload -/

/-- What a set with a single overload answers. -/
theorem selected_single (e : Entry) :
    (single e).selected args =
      if e.accepts args.length then
        match e.score args with
        | some _ => .ok e
        | none => .error (.noOverload e.name (describeKinds args))
      else .error (.arity e.name e.arity args.length) := by
  have haccepting : (single e).accepting args = if e.accepts args.length then [(e, 0)] else [] := by
    simp [accepting, single, List.filter_cons]
  unfold selected select ranked candidates
  rw [haccepting]
  by_cases haccepts : e.accepts args.length = true
  · rw [if_pos haccepts, if_pos haccepts]
    cases hscore : e.score args with
    | none => simp [hscore, Except.map, single]
    | some k => simp [hscore, Except.map, single, insertByScore]
  · rw [if_neg haccepts, if_neg haccepts]
    simp [Except.map, single, squeeze]

/-! ### The order of registration -/

/-- The set with its overloads in another order: `σ i` is the old place of the overload at `i`. -/
def permute (σ : Equiv.Perm (Fin o.entries.length)) : Overloads :=
  ⟨o.name, List.ofFn fun i => o.entries.get (σ i)⟩

theorem candidate_permute_iff (σ : Equiv.Perm (Fin o.entries.length)) {i k : Nat} :
    (o.permute σ).Candidate args i k ↔
      ∃ h : i < o.entries.length, o.Candidate args (σ ⟨i, h⟩) k := by
  unfold Candidate permute
  simp only [List.getElem?_ofFn]
  by_cases h : i < o.entries.length
  · simp [h]
  · simp [h]

/-- A candidate is a candidate of the reordered set as well, at the place to which it has moved. -/
theorem candidate_permute_symm (σ : Equiv.Perm (Fin o.entries.length)) {i k : Nat}
    (h : o.Candidate args i k) :
    (o.permute σ).Candidate args (σ.symm ⟨i, o.lt_length_of_candidate args h⟩) k := by
  rw [candidate_permute_iff]
  refine ⟨Fin.isLt _, ?_⟩
  simpa using h

theorem mem_entries_permute (σ : Equiv.Perm (Fin o.entries.length)) {e : Entry} :
    e ∈ (o.permute σ).entries ↔ e ∈ o.entries := by
  unfold permute
  simp only [List.mem_ofFn]
  constructor
  · rintro ⟨i, rfl⟩
    exact List.getElem_mem _
  · intro h
    obtain ⟨i, hi, rfl⟩ := List.mem_iff_getElem.mp h
    exact ⟨σ.symm ⟨i, hi⟩, by simp⟩

theorem select_permute_of_ok (σ : Equiv.Perm (Fin o.entries.length)) {i : Nat}
    (h : o.select args = .ok i) :
    ∃ j, (σ j : Nat) = i ∧ (o.permute σ).select args = .ok (j : Nat) := by
  obtain ⟨k, hc, hmax⟩ := (o.select_eq_ok_iff args).mp h
  have hi := o.lt_length_of_candidate args hc
  refine ⟨σ.symm ⟨i, hi⟩, by simp, ?_⟩
  refine (select_eq_ok_iff _ args).mpr ⟨k, o.candidate_permute_symm args σ hc, ?_⟩
  intro j l hj hne
  obtain ⟨hjlt, hj⟩ := (o.candidate_permute_iff args σ).mp hj
  apply hmax _ l hj
  intro heq
  apply hne
  have : σ ⟨j, hjlt⟩ = ⟨i, hi⟩ := Fin.ext heq
  rw [← this, Equiv.symm_apply_apply]

/-- There are three ways to fail. -/
theorem select_error_cases {c : Cause} (h : o.select args = .error c) :
    (∃ name expected actual, c = .arity name expected actual) ∨
      (∃ name kinds, c = .noOverload name kinds) ∨ ∃ name kinds, c = .ambiguous name kinds := by
  cases hranked : o.ranked args with
  | nil =>
      rw [(select_of_ranked_nil hranked).2] at h
      split at h
      · exact .inl ⟨_, _, _, (Except.error.inj h).symm⟩
      · exact .inr (.inl ⟨_, _, (Except.error.inj h).symm⟩)
  | cons first rest =>
      rw [select_of_ranked hranked] at h
      split at h
      · exact .inr (.inr ⟨_, _, (Except.error.inj h).symm⟩)
      · cases h

theorem select_permute_of_error (σ : Equiv.Perm (Fin o.entries.length)) {c : Cause}
    (h : o.select args = .error c) :
    ∃ c', (o.permute σ).select args = .error c' ∧ c'.ctorIdx = c.ctorIdx := by
  rcases o.select_error_cases args h with ⟨name, expected, actual, rfl⟩ | ⟨name, kinds, rfl⟩ |
    ⟨name, kinds, rfl⟩
  · have hnone := (o.select_arity_iff args).mp ⟨_, _, _, h⟩
    obtain ⟨_, _, _, h'⟩ := (select_arity_iff (o.permute σ) args).mpr fun e he =>
      hnone e ((o.mem_entries_permute σ).mp he)
    exact ⟨_, h', rfl⟩
  · obtain ⟨⟨e, he, hacc⟩, hnone⟩ := (o.select_noOverload_iff args).mp ⟨_, _, h⟩
    obtain ⟨_, _, h'⟩ := (select_noOverload_iff (o.permute σ) args).mpr
      ⟨⟨e, (o.mem_entries_permute σ).mpr he, hacc⟩, fun i k hi => by
        obtain ⟨_, hi⟩ := (o.candidate_permute_iff args σ).mp hi
        exact hnone _ _ hi⟩
    exact ⟨_, h', rfl⟩
  · obtain ⟨i, j, k, hne, hi, hj, hmax⟩ := (o.select_ambiguous_iff args).mp ⟨_, _, h⟩
    obtain ⟨_, _, h'⟩ := (select_ambiguous_iff (o.permute σ) args).mpr
      ⟨_, _, k, fun heq => hne (by simpa [Fin.ext_iff] using σ.symm.injective (Fin.ext heq)),
        o.candidate_permute_symm args σ hi, o.candidate_permute_symm args σ hj, fun l m hl => by
          obtain ⟨_, hl⟩ := (o.candidate_permute_iff args σ).mp hl
          exact hmax _ _ hl⟩
    exact ⟨_, h', rfl⟩

/-- **Selection is the unique best match.**  The overload at place `i` is chosen if and only if it
is the candidate with a score above that of every other candidate, and it is the overload that runs.
The call fails for the number of arguments if and only if no overload accepts it, for want of a
match if and only if some overload accepts the number but there is no candidate, and as ambiguous if
and only if two candidates have the highest score.  If the overloads are put into another order, the
same overload is chosen, or the call fails in the same way. -/
theorem select_unique_best_match (o : Overloads) (args : List Value) :
    (∀ i, o.select args = .ok i ↔
      ∃ k, o.Candidate args i k ∧ ∀ j l, o.Candidate args j l → j ≠ i → l < k) ∧
    (∀ e, o.selected args = .ok e ↔ ∃ i, o.select args = .ok i ∧ o.entries[i]? = some e) ∧
    ((∃ name expected actual, o.select args = .error (.arity name expected actual)) ↔
      ∀ e ∈ o.entries, e.accepts args.length = false) ∧
    ((∃ name kinds, o.select args = .error (.noOverload name kinds)) ↔
      (∃ e ∈ o.entries, e.accepts args.length = true) ∧ ∀ i k, ¬ o.Candidate args i k) ∧
    ((∃ name kinds, o.select args = .error (.ambiguous name kinds)) ↔
      ∃ i j k, i ≠ j ∧ o.Candidate args i k ∧ o.Candidate args j k ∧
        ∀ l m, o.Candidate args l m → m ≤ k) ∧
    (∀ i k, o.Candidate args i k → k ≤ 3 * args.length) ∧
    ∀ σ : Equiv.Perm (Fin o.entries.length),
      match o.select args with
      | .ok i => ∃ j, (σ j : Nat) = i ∧ (o.permute σ).select args = .ok (j : Nat)
      | .error c => ∃ c', (o.permute σ).select args = .error c' ∧ c'.ctorIdx = c.ctorIdx := by
  refine ⟨fun i => o.select_eq_ok_iff args, fun e => o.selected_eq_ok_iff args,
    o.select_arity_iff args, o.select_noOverload_iff args, o.select_ambiguous_iff args,
    fun i k hi => o.score_le_of_candidate args hi, fun σ => ?_⟩
  split
  · next h => exact o.select_permute_of_ok args σ h
  · next h => exact o.select_permute_of_error args σ h

end Overloads

end DispatchLisp
