import DispatchLisp.Error.Suggestion
import Mathlib.Data.List.MinMax
import Mathlib.Order.Bounds.Defs

/-! # Edit distance

The distance between two texts is the least number of edits that turn one into the other, where an
edit inserts, deletes or replaces a single character at any place (`Edit`, `Edits`).

Edits may be made in any order, and a character may be edited more than once.  To find the least
number it is enough to look at the ways to write one text above the other, with gaps (`Aligned`): an
edit can be drawn into an alignment at the cost of one (`Edit.aligned`).  The last characters of two
texts are kept, replaced, deleted or inserted, so the least cost obeys a recursion (`distance`), and
the rows of the table are its values at all prefixes (`lastRow_rowOf`). -/

namespace DispatchLisp

/-- A single character is inserted, deleted or replaced. -/
inductive Edit : List Char → List Char → Prop
  | insert (front : List Char) (c : Char) (back : List Char) :
      Edit (front ++ back) (front ++ c :: back)
  | delete (front : List Char) (c : Char) (back : List Char) :
      Edit (front ++ c :: back) (front ++ back)
  | replace (front : List Char) (c d : Char) (back : List Char) :
      Edit (front ++ c :: back) (front ++ d :: back)

/-- The text is turned into the other one by a number of edits, one after the other. -/
inductive Edits : Nat → List Char → List Char → Prop
  | none (xs : List Char) : Edits 0 xs xs
  | more {n : Nat} {xs ys zs : List Char} (first : Edit xs ys) (others : Edits n ys zs) :
      Edits (n + 1) xs zs

/-- The two texts can be written above each other, with gaps, so that they differ in a number of
columns. -/
inductive Aligned : Nat → List Char → List Char → Prop
  | nil : Aligned 0 [] []
  | keep (c : Char) {n : Nat} {xs ys : List Char} : Aligned n xs ys → Aligned n (c :: xs) (c :: ys)
  | replace (c d : Char) {n : Nat} {xs ys : List Char} :
      Aligned n xs ys → Aligned (n + 1) (c :: xs) (d :: ys)
  | delete (c : Char) {n : Nat} {xs ys : List Char} :
      Aligned n xs ys → Aligned (n + 1) (c :: xs) ys
  | insert (d : Char) {n : Nat} {xs ys : List Char} :
      Aligned n xs ys → Aligned (n + 1) xs (d :: ys)

variable {n : Nat} {xs ys zs : List Char}

/-! ### Edits and alignments -/

theorem Edit.cons (c : Char) (h : Edit xs ys) : Edit (c :: xs) (c :: ys) := by
  cases h with
  | insert front d back => exact .insert (c :: front) d back
  | delete front d back => exact .delete (c :: front) d back
  | replace front d e back => exact .replace (c :: front) d e back

theorem Edits.cons (c : Char) (h : Edits n xs ys) : Edits n (c :: xs) (c :: ys) := by
  induction h with
  | none xs => exact .none (c :: xs)
  | more first _ ih => exact .more (first.cons c) ih

/-- The columns that differ are edited from left to right. -/
theorem Aligned.edits (h : Aligned n xs ys) : Edits n xs ys := by
  induction h with
  | nil => exact .none []
  | keep c _ ih => exact ih.cons c
  | replace c d _ ih => exact .more (.replace [] c d _) (ih.cons d)
  | delete c _ ih => exact .more (.delete [] c _) ih
  | insert d _ ih => exact .more (.insert [] d _) (ih.cons d)

/-- Every alignment of the second text gives one of the first, at the cost of one at most. -/
def Adjacent (xs ys : List Char) : Prop :=
  ∀ n zs, Aligned n ys zs → ∃ m, m ≤ n + 1 ∧ Aligned m xs zs

theorem Adjacent.cons (c : Char) (h : Adjacent xs ys) : Adjacent (c :: xs) (c :: ys) := by
  -- The induction is on the other text: in front of the first column there may be insertions.
  intro n zs ha
  induction zs generalizing n with
  | nil =>
      cases ha with
      | delete _ ha =>
          obtain ⟨m, hm, ha'⟩ := h _ _ ha
          exact ⟨m + 1, by omega, .delete c ha'⟩
  | cons z zs ih =>
      cases ha with
      | keep _ ha =>
          obtain ⟨m, hm, ha'⟩ := h _ _ ha
          exact ⟨m, hm, .keep c ha'⟩
      | replace _ _ ha =>
          obtain ⟨m, hm, ha'⟩ := h _ _ ha
          exact ⟨m + 1, by omega, .replace c z ha'⟩
      | delete _ ha =>
          obtain ⟨m, hm, ha'⟩ := h _ _ ha
          exact ⟨m + 1, by omega, .delete c ha'⟩
      | insert _ ha =>
          obtain ⟨m, hm, ha'⟩ := ih _ ha
          exact ⟨m + 1, by omega, .insert z ha'⟩

theorem Adjacent.append (front : List Char) (h : Adjacent xs ys) :
    Adjacent (front ++ xs) (front ++ ys) := by
  induction front with
  | nil => exact h
  | cons c front ih => exact ih.cons c

theorem adjacent_insert (c : Char) (xs : List Char) : Adjacent xs (c :: xs) := by
  intro n zs ha
  induction zs generalizing n with
  | nil =>
      cases ha with
      | delete _ ha => exact ⟨_, by omega, ha⟩
  | cons z zs ih =>
      cases ha with
      | keep _ ha => exact ⟨n + 1, by omega, .insert c ha⟩
      | replace _ _ ha => exact ⟨_, by omega, .insert z ha⟩
      | delete _ ha => exact ⟨_, by omega, ha⟩
      | insert _ ha =>
          obtain ⟨m, hm, ha'⟩ := ih _ ha
          exact ⟨m + 1, by omega, .insert z ha'⟩

theorem adjacent_delete (c : Char) (xs : List Char) : Adjacent (c :: xs) xs :=
  fun n _ ha => ⟨n + 1, le_rfl, .delete c ha⟩

theorem adjacent_replace (c d : Char) (xs : List Char) : Adjacent (c :: xs) (d :: xs) := by
  intro n zs ha
  induction zs generalizing n with
  | nil =>
      cases ha with
      | delete _ ha => exact ⟨_, by omega, .delete c ha⟩
  | cons z zs ih =>
      cases ha with
      | keep _ ha => exact ⟨n + 1, by omega, .replace c d ha⟩
      | replace _ _ ha => exact ⟨_, by omega, .replace c z ha⟩
      | delete _ ha => exact ⟨_, by omega, .delete c ha⟩
      | insert _ ha =>
          obtain ⟨m, hm, ha'⟩ := ih _ ha
          exact ⟨m + 1, by omega, .insert z ha'⟩

/-- **An edit is drawn into an alignment at the cost of one.** -/
theorem Edit.adjacent (h : Edit xs ys) : Adjacent xs ys := by
  cases h with
  | insert front c back => exact (adjacent_insert c back).append front
  | delete front c back => exact (adjacent_delete c back).append front
  | replace front c d back => exact (adjacent_replace c d back).append front

theorem aligned_self (xs : List Char) : Aligned 0 xs xs := by
  induction xs with
  | nil => exact .nil
  | cons c xs ih => exact .keep c ih

/-- No edits, in whatever order, do better than an alignment. -/
theorem Edits.aligned (h : Edits n xs ys) : ∃ m, m ≤ n ∧ Aligned m xs ys := by
  induction h with
  | none xs => exact ⟨0, le_rfl, aligned_self xs⟩
  | more first _ ih =>
      obtain ⟨m, hm, ha⟩ := ih
      obtain ⟨k, hk, ha'⟩ := first.adjacent _ _ ha
      exact ⟨k, by omega, ha'⟩

theorem Edit.reverse (h : Edit xs ys) : Edit xs.reverse ys.reverse := by
  cases h with
  | insert front c back => simpa using Edit.insert back.reverse c front.reverse
  | delete front c back => simpa using Edit.delete back.reverse c front.reverse
  | replace front c d back => simpa using Edit.replace back.reverse c d front.reverse

theorem Edits.reverse (h : Edits n xs ys) : Edits n xs.reverse ys.reverse := by
  induction h with
  | none xs => exact .none xs.reverse
  | more first _ ih => exact .more first.reverse ih

/-! ### The recursion -/

/-- The least number of columns that differ. -/
def distance : List Char → List Char → Nat
  | [], ys => ys.length
  | _ :: xs, [] => xs.length + 1
  | x :: xs, y :: ys =>
    min (min (distance xs ys + if x = y then 0 else 1) (distance xs (y :: ys) + 1))
      (distance (x :: xs) ys + 1)
termination_by xs ys => xs.length + ys.length

theorem distance_cons_cons (x y : Char) (xs ys : List Char) :
    distance (x :: xs) (y :: ys) =
      min (min (distance xs ys + if x = y then 0 else 1) (distance xs (y :: ys) + 1))
        (distance (x :: xs) ys + 1) := by
  rw [distance]

theorem distance_nil_left (ys : List Char) : distance [] ys = ys.length := by rw [distance]

theorem distance_nil_right (xs : List Char) : distance xs [] = xs.length := by
  cases xs with
  | nil => rw [distance]
  | cons x xs => rw [distance, List.length_cons]

theorem distance_delete (c : Char) (xs ys : List Char) :
    distance (c :: xs) ys ≤ distance xs ys + 1 := by
  cases ys with
  | nil => rw [distance_nil_right, distance_nil_right, List.length_cons]
  | cons y ys =>
      rw [distance_cons_cons]
      omega

theorem distance_insert (d : Char) (xs ys : List Char) :
    distance xs (d :: ys) ≤ distance xs ys + 1 := by
  cases xs with
  | nil => rw [distance_nil_left, distance_nil_left, List.length_cons]
  | cons x xs =>
      rw [distance_cons_cons]
      omega

theorem distance_replace (c d : Char) (xs ys : List Char) :
    distance (c :: xs) (d :: ys) ≤ distance xs ys + if c = d then 0 else 1 := by
  rw [distance_cons_cons]
  omega

/-- No alignment is better. -/
theorem Aligned.distance_le (h : Aligned n xs ys) : distance xs ys ≤ n := by
  induction h with
  | nil => rw [distance_nil_left, List.length_nil]
  | @keep c n xs ys _ ih =>
      have := distance_replace c c xs ys
      simp only [if_true] at this
      omega
  | @replace c d n xs ys _ ih =>
      have := distance_replace c d xs ys
      split at this <;> omega
  | @delete c n xs ys _ ih =>
      have := distance_delete c xs ys
      omega
  | @insert d n xs ys _ ih =>
      have := distance_insert d xs ys
      omega

/-- There is an alignment that is as good. -/
theorem aligned_distance (xs ys : List Char) : Aligned (distance xs ys) xs ys := by
  fun_induction distance xs ys with
  | case1 ys =>
      induction ys with
      | nil => exact .nil
      | cons y ys ih => exact .insert y ih
  | case2 x xs =>
      induction xs generalizing x with
      | nil => exact .delete x .nil
      | cons x' xs ih => exact .delete x (ih x')
  | case3 x xs y ys ihboth ihdelete ihinsert =>
      have hboth : Aligned (distance xs ys + if x = y then 0 else 1) (x :: xs) (y :: ys) := by
        split
        case isTrue heq =>
          subst heq
          exact .keep x ihboth
        case isFalse => exact .replace x y ihboth
      have hdelete := Aligned.delete x ihdelete
      have hinsert := Aligned.insert y ihinsert
      rcases min_choice (min (distance xs ys + if x = y then 0 else 1)
        (distance xs (y :: ys) + 1)) (distance (x :: xs) ys + 1) with hmin | hmin
      · rw [hmin]
        rcases min_choice (distance xs ys + if x = y then 0 else 1)
          (distance xs (y :: ys) + 1) with hmin' | hmin'
        · rw [hmin']
          exact hboth
        · rw [hmin']
          exact hdelete
      · rw [hmin]
        exact hinsert

/-- **The recursion gives the least number of edits.** -/
theorem isLeast_distance (xs ys : List Char) :
    IsLeast {n | Edits n xs ys} (distance xs.reverse ys.reverse) := by
  constructor
  · have h := (aligned_distance xs.reverse ys.reverse).edits.reverse
    rwa [List.reverse_reverse, List.reverse_reverse] at h
  · intro n h
    obtain ⟨m, hm, ha⟩ := h.reverse.aligned
    exact ha.distance_le.trans hm

/-! ### The table -/

/-- The distances of the reversed prefix `xs` to the prefixes of a word.  The word has been read as
far as `q`, which is reversed, and `ws` is to come. -/
def rowOf (xs q : List Char) : List Char → List Nat
  | [] => [distance xs q]
  | w :: ws => distance xs q :: rowOf xs (w :: q) ws

/-- The first entry of a row. -/
theorem exists_rowOf (xs q ws : List Char) : ∃ row, rowOf xs q ws = distance xs q :: row := by
  cases ws with
  | nil => exact ⟨[], rfl⟩
  | cons w ws => exact ⟨rowOf xs (w :: q) ws, rfl⟩

/-- **One row comes from the row above it.** -/
theorem nextRow_rowOf (c : Char) (xs q ws : List Char) :
    distance (c :: xs) q :: nextRow c ws (rowOf xs q ws) (distance (c :: xs) q) =
      rowOf (c :: xs) q ws := by
  induction ws generalizing q with
  | nil => rfl
  | cons w ws ih =>
      obtain ⟨row, hrow⟩ := exists_rowOf xs (w :: q) ws
      have hhere : min (min (distance xs q + if c = w then 0 else 1) (distance xs (w :: q) + 1))
          (distance (c :: xs) q + 1) = distance (c :: xs) (w :: q) :=
        (distance_cons_cons c w xs q).symm
      have hnext := ih (w :: q)
      rw [hrow] at hnext
      rw [rowOf, rowOf, hrow, nextRow, hhere, hnext]

/-- **The rows that are computed are the distances of the prefixes.** -/
theorem lastRow_rowOf (word cs xs : List Char) :
    lastRow word cs xs.length (rowOf xs [] word) = rowOf (cs.reverse ++ xs) [] word := by
  induction cs generalizing xs with
  | nil => rfl
  | cons c cs ih =>
      have hrow := nextRow_rowOf c xs [] word
      rw [distance_nil_right, List.length_cons] at hrow
      have hlast := ih (c :: xs)
      rw [List.length_cons] at hlast
      rw [lastRow, hrow, hlast, List.reverse_cons, List.append_assoc, List.singleton_append]

theorem rowOf_nil (q ws : List Char) : rowOf [] q ws = List.range' q.length (ws.length + 1) := by
  induction ws generalizing q with
  | nil => simp [rowOf, distance_nil_left]
  | cons w ws ih =>
      rw [rowOf, ih, distance_nil_left, List.length_cons, List.length_cons, ← List.range'_succ]

theorem getLastD_rowOf (xs q ws : List Char) :
    (rowOf xs q ws).getLastD 0 = distance xs (ws.reverse ++ q) := by
  induction ws generalizing q with
  | nil => rfl
  | cons w ws ih =>
      obtain ⟨row, hrow⟩ := exists_rowOf xs (w :: q) ws
      have hlast := ih (w :: q)
      rw [hrow] at hlast
      rw [rowOf, hrow, List.reverse_cons, List.append_assoc, List.singleton_append, ← hlast]
      rfl

/-- The distance that is computed obeys the recursion. -/
theorem editDistance_eq (a b : String) :
    editDistance a b = distance a.toList.reverse b.toList.reverse := by
  have hfirst : List.range (b.toList.length + 1) = rowOf [] [] b.toList := by
    rw [rowOf_nil, List.length_nil, List.range_eq_range']
  have hlast := lastRow_rowOf b.toList a.toList []
  rw [List.length_nil, List.append_nil] at hlast
  rw [editDistance, hfirst, hlast, getLastD_rowOf, List.append_nil]

/-! ### Suggestions -/

/-- A candidate is similar to the name, but is not the name itself. -/
def Resembles (name c : String) : Prop :=
  1 ≤ editDistance name c ∧ editDistance name c ≤ max 1 (min 3 (name.length / 3))

instance (name c : String) : Decidable (Resembles name c) := inferInstanceAs (Decidable (_ ∧ _))

theorem similarityBound_eq (name : String) :
    similarityBound name = max 1 (min 3 (name.length / 3)) := by
  rw [similarityBound, String.length_toList]
  omega

/-- The suggestion is the first of the closest among the candidates that are similar. -/
theorem similar?_eq (name : String) (candidates : List String) :
    similar? name candidates =
      (candidates.filter (Resembles name ·)).argmin (editDistance name) := by
  let score : String → String × Nat := fun c => (c, editDistance name c)
  have hnear : ((candidates.map score).filter fun c => 0 < c.2 && c.2 ≤ similarityBound name) =
      (candidates.filter (Resembles name ·)).map score := by
    rw [List.filter_map]
    congr 2
    funext c
    simp only [Function.comp, Resembles, similarityBound_eq, score, ← Bool.decide_and]
    rfl
  let nearer := List.argAux fun b c => editDistance name b < editDistance name c
  have hcloser : ∀ best c, closer (best.map score) (score c) = (nearer best c).map score := by
    intro best c
    cases best with
    | none => rfl
    | some b =>
        simp only [Option.map_some, closer, nearer, List.argAux, score]
        split <;> rfl
  have hfold : ∀ l : List String, l.foldl (fun b c => closer b (score c)) (Option.map score none) =
      (l.foldl nearer none).map score := fun l => List.foldl_hom (Option.map score) hcloser
  have hfirst : Prod.fst ∘ score = id := rfl
  rw [similar?, hnear, List.foldl_map]
  refine (congrArg (Option.map Prod.fst) (hfold _)).trans ?_
  rw [Option.map_map, hfirst, Option.map_id]
  rfl

/-- The first one that has the least image. -/
theorem argmin_eq_some_iff_append {α : Type} [DecidableEq α] {f : α → Nat} {l : List α} {m : α} :
    l.argmin f = some m ↔ ∃ before after, l = before ++ m :: after ∧
      (∀ a ∈ before, f m < f a) ∧ ∀ a ∈ after, f m ≤ f a := by
  rw [List.argmin_eq_some_iff]
  constructor
  · rintro ⟨hmem, hleast, hfirst⟩
    obtain ⟨before, after, rfl, hnew⟩ := List.eq_append_cons_of_mem hmem
    refine ⟨before, after, rfl, fun a ha => ?_, fun a ha => hleast a (by simp [ha])⟩
    by_contra hle
    have hplace := hfirst a (by simp [ha]) (by omega)
    rw [List.idxOf_append_of_notMem hnew, List.idxOf_append_of_mem ha] at hplace
    have := List.idxOf_lt_length_iff.mpr ha
    omega
  · rintro ⟨before, after, rfl, hbefore, hafter⟩
    have hnew : ∀ a, f a ≤ f m → a ∉ before := by
      intro a hle ha
      have := hbefore a ha
      omega
    refine ⟨by simp, fun a ha => ?_, fun a _ hle => ?_⟩
    · rcases List.mem_append.mp ha with ha | ha
      · exact (hbefore a ha).le
      · rcases List.mem_cons.mp ha with rfl | ha
        · exact le_rfl
        · exact hafter a ha
    · rw [List.idxOf_append_of_notMem (hnew m le_rfl), List.idxOf_append_of_notMem (hnew a hle),
        List.idxOf_cons_self]
      omega

/-- **Distances are least numbers of edits, and the first of the closest is suggested.**  The
distance of two texts is the least number of insertions, deletions and replacements of single
characters that turn one into the other.  A candidate is suggested if and only if it is at a
distance from one to a third of the length of the name, where a third counts as at least one and at
most three, no such candidate before it is as close, and none after it is closer.  Nothing is
suggested if and only if no candidate is at such a distance. -/
theorem suggestion_is_closest :
    (∀ a b : String, IsLeast {n | Edits n a.toList b.toList} (editDistance a b)) ∧
    ∀ (name : String) (candidates : List String),
      (∀ c, similar? name candidates = some c ↔
        ∃ before after, candidates = before ++ c :: after ∧ Resembles name c ∧
          (∀ d ∈ before, Resembles name d → editDistance name c < editDistance name d) ∧
          ∀ d ∈ after, Resembles name d → editDistance name c ≤ editDistance name d) ∧
      (similar? name candidates = none ↔ ∀ c ∈ candidates, ¬ Resembles name c) := by
  refine ⟨fun a b => ?_, fun name candidates => ⟨fun c => ?_, ?_⟩⟩
  · rw [editDistance_eq]
    exact isLeast_distance a.toList b.toList
  · rw [similar?_eq, argmin_eq_some_iff_append]
    constructor
    · rintro ⟨near, near', hsplit, hbefore, hafter⟩
      obtain ⟨l, l', rfl, rfl, hrest⟩ := List.filter_eq_append_iff.mp hsplit
      obtain ⟨skipped, after, rfl, hskipped, hc, rfl⟩ := List.filter_eq_cons_iff.mp hrest
      refine ⟨l ++ skipped, after, by simp, by simpa using hc, fun d hd hnear => ?_,
        fun d hd hnear => hafter d (by simp [hd, hnear])⟩
      rcases List.mem_append.mp hd with hd | hd
      · exact hbefore d (by simp [hd, hnear])
      · exact absurd (by simpa using hnear) (hskipped d hd)
    · rintro ⟨before, after, rfl, hc, hbefore, hafter⟩
      refine ⟨before.filter (Resembles name ·), after.filter (Resembles name ·), by simp [hc],
        fun d hd => ?_, fun d hd => ?_⟩
      · obtain ⟨hd, hnear⟩ := List.mem_filter.mp hd
        exact hbefore d hd (by simpa using hnear)
      · obtain ⟨hd, hnear⟩ := List.mem_filter.mp hd
        exact hafter d hd (by simpa using hnear)
  · rw [similar?_eq, List.argmin_eq_none, List.filter_eq_nil_iff]
    simp

end DispatchLisp
