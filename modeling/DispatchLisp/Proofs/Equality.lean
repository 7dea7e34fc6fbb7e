import DispatchLisp.Proofs.Collections
import DispatchLisp.Proofs.RealEquality

/-! # Equality is an equivalence

Equality of values is an equivalence relation, and equal values have the same digest, as long as
nothing contains itself, tables have no equal keys and reals are compared by value (`Heap.Plain`).

Tables are the hard case, since they are compared by their sizes and by a search for each key of the
first in the second.  The search needs equality of keys to be coherent (`Heap.Coherent`), and so the
proof goes by the depth of nesting (`Heap.coherent`).  That the comparison is symmetric is a matter of
counting: keys of the first table that are found at the same place are equal, so that as many
different keys are found as there are, and none is left over (`Heap.Covers.exists_perm`). -/

namespace DispatchLisp

namespace Heap

/-- Nothing that occurs in the value contains itself, the keys of each table are different, and the
reals are among the given numbers. -/
structure Plain (h : Heap) (numbers : Decimal → Prop) (v : Value) : Prop where
  acyclic : h.Acyclic v
  keys : ∀ i, h.Occurs v (.table i) →
    (h.entries i).Pairwise fun e e' => h.equal e.1 e'.1 = false
  reals : ∀ d, h.Occurs v (.real d) → numbers d

theorem Plain.part {h : Heap} {numbers : Decimal → Prop} {v w : Value} (hv : h.Plain numbers v)
    (hw : h.HasPart v w) : h.Plain numbers w where
  acyclic := hv.acyclic.part hw
  keys i hi := hv.keys i (hi.head hw)
  reals d hd := hv.reals d (hd.head hw)

/-- Values are plain if their parts are among them and each of them passes the checks. -/
theorem plain_of_closed {h : Heap} {numbers : Decimal → Prop} {l : List Value}
    (hclosed : ∀ v ∈ l, ∀ w ∈ h.parts v, w ∈ l) (hdepth : ∀ v ∈ l, h.NestedWithin h.nesting v)
    (hkeys : ∀ i, .table i ∈ l → (h.entries i).Pairwise fun e e' => h.equal e.1 e'.1 = false)
    (hreals : ∀ d, .real d ∈ l → numbers d) {v : Value} (hv : v ∈ l) : h.Plain numbers v := by
  exact ⟨(hdepth v hv).acyclic, fun i hi => hkeys i (hi.mem_of_closed hclosed hv),
    fun d hd => hreals d (hd.mem_of_closed hclosed hv)⟩

/-- The numbers are compared by value. -/
def ByValue (numbers : Decimal → Prop) : Prop :=
  ∀ x y, numbers x → numbers y → Decimal.equal x y = Decimal.same x y

theorem equal_self (h : Heap) (v : Value) : h.equal v v = true := equalWithin_self _ v

section

variable {h : Heap} {numbers : Decimal → Prop}

/-! ### Digests -/

theorem foldr_marksWithin {n : Nat} {l l' : List Value}
    (hl : List.Forall₂ (fun v w => ∀ marks, h.marksWithin n v marks = h.marksWithin n w marks) l l')
    (marks : Digest) : l.foldr (h.marksWithin n) marks = l'.foldr (h.marksWithin n) marks := by
  induction hl with
  | nil => rfl
  | cons hvw _ ih => rw [List.foldr_cons, List.foldr_cons, ih, hvw]

/-- Equal values have the same digest. -/
theorem marksWithin_of_equalWithin (hnumbers : ByValue numbers) {n : Nat} {a b : Value}
    (ha : h.Plain numbers a) (hb : h.Plain numbers b) (hequal : h.equalWithin n a b = true)
    (marks : Digest) : h.marksWithin n a marks = h.marksWithin n b marks := by
  induction n generalizing a b marks with
  | zero => cases hequal
  | succ n ih =>
      unfold marksWithin
      cases equalWithin_succ_iff.mp hequal with
      | same => rfl
      | @real x y hxy =>
          rw [hnumbers x y (ha.reals x .refl) (hb.reals y .refl)] at hxy
          simp only [Decimal.digest_eq_of_same hxy, Value.kind]
      | list hitems =>
          have hmarks := forall₂_of_mem hitems fun v hv w hw hvw =>
            ih (ha.part (hasPart_of_mem_items hv)) (hb.part (hasPart_of_mem_items hw)) hvw
          simp only [hitems.length_eq, foldr_marksWithin hmarks, Value.kind]
      | table hlength =>
          rw [entries, entries, Table.length_entries, Table.length_entries] at hlength
          simp only [hlength, Value.kind]
      | function hid => simp only [hid, Value.kind]
      | thread hid => simp only [hid, Value.kind]

/-! ### Searching for keys -/

/-- Equality is an equivalence on the values in question, and the digests respect it. -/
structure Coherent (h : Heap) (p : Value → Prop) : Prop where
  symm : ∀ {a b}, p a → p b → h.equal a b = true → h.equal b a = true
  trans : ∀ {a b c}, p a → p b → p c → h.equal a b = true → h.equal b c = true →
    h.equal a c = true
  digest : ∀ {a b}, p a → p b → h.equal a b = true → h.digest a = h.digest b

variable {p : Value → Prop} {es es' : Entries}

theorem Coherent.eq_of_equal_keys (hp : h.Coherent p) (hes : ∀ e ∈ es, p e.1)
    (hkeys : es.Pairwise fun e e' => h.equal e.1 e'.1 = false) {e e' : Value × Value}
    (he : e ∈ es) (he' : e' ∈ es) (hequal : h.equal e.1 e'.1 = true) : e = e' := by
  induction hkeys with
  | nil => cases he
  | @cons first rest hfirst _ ih =>
      obtain ⟨hpfirst, hprest⟩ := List.forall_mem_cons.mp hes
      rcases List.mem_cons.mp he with rfl | hmem <;> rcases List.mem_cons.mp he' with rfl | hmem'
      · rfl
      · exact absurd hequal (by rw [hfirst e' hmem']; decide)
      · have hback := hp.symm (hprest e hmem) hpfirst hequal
        exact absurd hback (by rw [hfirst e hmem]; decide)
      · exact ih hprest hmem hmem'

/-- Among different keys, the one that is equal is found. -/
theorem Coherent.find?_eq (hp : h.Coherent p) {j : Nat} (hj : ∀ e ∈ h.entries j, p e.1)
    (hkeys : (h.entries j).Pairwise fun e e' => h.equal e.1 e'.1 = false) {key : Value}
    (hkey : p key) {e : Value × Value} (he : e ∈ h.entries j) (hequal : h.equal key e.1 = true) :
    (h.tableAt j).find? h.keys key = some e.2 := by
  have hdigest := hp.digest hkey (hj e he) hequal
  obtain ⟨value, hfind⟩ := Table.find?_isSome (t := h.keys) he hequal hdigest
  obtain ⟨e', he', hequal', rfl⟩ := Table.exists_of_find? hfind
  have hback := hp.symm hkey (hj e' he') hequal'
  have hsame := hp.trans (hj e' he') hkey (hj e he) hback hequal
  rw [hfind, hp.eq_of_equal_keys hj hkeys he' he hsame]

/-! ### Entries -/

/-- The entries have equal keys and equal values. -/
def LikeEntry (h : Heap) (e e' : Value × Value) : Prop :=
  h.equal e.1 e'.1 = true ∧ h.equal e.2 e'.2 = true

/-- There are as many entries on both sides, and each of the first has its like in the second. -/
def Covers (h : Heap) (es es' : Entries) : Prop :=
  es.length = es'.length ∧ ∀ e ∈ es, ∃ e' ∈ es', h.LikeEntry e e'

theorem exists_perm_forall₂ {α : Type} {r : α → α → Prop} {l l' : List α}
    (hlength : l.length = l'.length) (hcover : ∀ a ∈ l, ∃ b ∈ l', r a b)
    (hapart : l.Pairwise fun a a' => ∀ b ∈ l', r a b → ¬ r a' b) :
    ∃ m : List α, m.Perm l' ∧ List.Forall₂ r l m := by
  induction l generalizing l' with
  | nil =>
      obtain rfl : l' = [] := List.length_eq_zero_iff.mp hlength.symm
      exact ⟨[], .refl _, .nil⟩
  | cons a l ih =>
      obtain ⟨hfirst, hrest⟩ := List.pairwise_cons.mp hapart
      obtain ⟨⟨b, hb, hab⟩, htail⟩ := List.forall_mem_cons.mp hcover
      obtain ⟨front, back, rfl⟩ := List.append_of_mem hb
      have hsubset : ∀ x ∈ front ++ back, x ∈ front ++ b :: back := by
        intro x hx
        exact List.perm_middle.symm.subset (List.mem_cons_of_mem _ hx)
      -- The others have their likes among what is left.
      have hleft : ∀ a' ∈ l, ∃ b' ∈ front ++ back, r a' b' := by
        intro a' ha'
        obtain ⟨b', hb', hab'⟩ := htail a' ha'
        rcases List.mem_cons.mp (List.perm_middle.subset hb') with rfl | hmem
        · exact absurd hab' (hfirst a' ha' b' hb hab)
        · exact ⟨b', hmem, hab'⟩
      have hcount : l.length = (front ++ back).length := by
        simp only [List.length_cons, List.length_append] at hlength ⊢
        omega
      obtain ⟨m, hm, hforall⟩ := ih hcount hleft
        (hrest.imp fun happart x hx => happart x (hsubset x hx))
      exact ⟨b :: m, (hm.cons b).trans List.perm_middle.symm, .cons hab hforall⟩

/-- If the keys of the first are different, then the second has the likes of the first in some
order, and nothing else. -/
theorem Covers.exists_perm (hcovers : h.Covers es es') (hp : h.Coherent p) (hes : ∀ e ∈ es, p e.1)
    (hes' : ∀ e ∈ es', p e.1) (hkeys : es.Pairwise fun e e' => h.equal e.1 e'.1 = false) :
    ∃ m : Entries, m.Perm es' ∧ List.Forall₂ h.LikeEntry es m := by
  refine exists_perm_forall₂ hcovers.1 hcovers.2 (hkeys.imp_of_mem ?_)
  intro e₁ e₂ he₁ he₂ hdiffer e' he' h₁ h₂
  have hback := hp.symm (hes e₂ he₂) (hes' e' he') h₂.1
  have hequal := hp.trans (hes e₁ he₁) (hes' e' he') (hes e₂ he₂) h₁.1 hback
  rw [hdiffer] at hequal
  cases hequal

theorem exists_of_forall₂ {α : Type} {r : α → α → Prop} {l m : List α}
    (h : List.Forall₂ r l m) : ∀ a ∈ l, ∃ b ∈ m, r a b := by
  induction h with
  | nil => exact fun _ ha => nomatch ha
  | @cons a b _ _ hab _ ih =>
      refine List.forall_mem_cons.mpr ⟨⟨b, List.mem_cons_self, hab⟩, fun a' ha' => ?_⟩
      obtain ⟨b', hb', hab'⟩ := ih a' ha'
      exact ⟨b', List.mem_cons_of_mem _ hb', hab'⟩

theorem covers_refl (es : Entries) : h.Covers es es :=
  ⟨rfl, fun e he => ⟨e, he, h.equal_self e.1, h.equal_self e.2⟩⟩

theorem Covers.symm (hcovers : h.Covers es es') (hp : h.Coherent p)
    (hes : ∀ e ∈ es, p e.1 ∧ p e.2) (hes' : ∀ e ∈ es', p e.1 ∧ p e.2)
    (hkeys : es.Pairwise fun e e' => h.equal e.1 e'.1 = false) : h.Covers es' es := by
  obtain ⟨m, hperm, hlike⟩ := hcovers.exists_perm hp (fun e he => (hes e he).1)
    (fun e he => (hes' e he).1) hkeys
  refine ⟨hcovers.1.symm, fun e' he' => ?_⟩
  obtain ⟨e, he, hkey, hvalue⟩ :=
    exists_of_forall₂ (List.Forall₂.flip (R := flip h.LikeEntry) hlike) e' (hperm.symm.subset he')
  exact ⟨e, he, hp.symm (hes e he).1 (hes' e' he').1 hkey,
    hp.symm (hes e he).2 (hes' e' he').2 hvalue⟩

theorem Covers.trans {es'' : Entries} (hcovers : h.Covers es es') (hcovers' : h.Covers es' es'')
    (hp : h.Coherent p) (hes : ∀ e ∈ es, p e.1 ∧ p e.2) (hes' : ∀ e ∈ es', p e.1 ∧ p e.2)
    (hes'' : ∀ e ∈ es'', p e.1 ∧ p e.2) : h.Covers es es'' := by
  refine ⟨hcovers.1.trans hcovers'.1, fun e he => ?_⟩
  obtain ⟨e', he', hkey, hvalue⟩ := hcovers.2 e he
  obtain ⟨e'', he'', hkey', hvalue'⟩ := hcovers'.2 e' he'
  exact ⟨e'', he'', hp.trans (hes e he).1 (hes' e' he').1 (hes'' e'' he'').1 hkey hkey',
    hp.trans (hes e he).2 (hes' e' he').2 (hes'' e'' he'').2 hvalue hvalue'⟩

/-! ### Values -/

theorem forall_entries {i : Nat} (hi : ∀ w ∈ h.parts (.table i), p w) :
    ∀ e ∈ h.entries i, p e.1 ∧ p e.2 :=
  fun _ he => ⟨hi _ (hasPart_of_mem_entries he).1, hi _ (hasPart_of_mem_entries he).2⟩

/-- Tables are equal if the entries of one cover those of the other. -/
theorem compared_table_iff (hp : h.Coherent p) {i j : Nat} (hi : ∀ w ∈ h.parts (.table i), p w)
    (hj : ∀ w ∈ h.parts (.table j), p w) (hplain : h.Plain numbers (.table j)) :
    h.Compared h.keys (.table i) (.table j) ↔ h.Covers (h.entries i) (h.entries j) := by
  constructor
  · intro hcompared
    cases hcompared with
    | same => exact covers_refl _
    | table hlength hall =>
        refine ⟨hlength, fun e he => ?_⟩
        obtain ⟨value, hfind, hvalue⟩ := hall e he
        obtain ⟨e', he', hkey, rfl⟩ := Table.exists_of_find? hfind
        exact ⟨e', he', hkey, hvalue⟩
  · rintro ⟨hlength, hall⟩
    refine .table hlength fun e he => ?_
    obtain ⟨e', he', hkey, hvalue⟩ := hall e he
    have hfind := hp.find?_eq (fun e he => (forall_entries hj e he).1) (hplain.keys j .refl)
      (forall_entries hi e he).1 he' hkey
    exact ⟨e'.2, hfind, hvalue⟩

theorem Compared.symm (hp : h.Coherent p) {a b : Value} (ha : h.Plain numbers a)
    (hb : h.Plain numbers b) (hpa : ∀ w ∈ h.parts a, p w) (hpb : ∀ w ∈ h.parts b, p w)
    (hcompared : h.Compared h.keys a b) : h.Compared h.keys b a := by
  cases hcompared with
  | same => exact .same a
  | real hxy =>
      rw [Decimal.equal_comm] at hxy
      exact .real hxy
  | list hitems =>
      refine .list (List.Forall₂.flip (forall₂_of_mem hitems fun v hv w hw hvw => ?_))
      exact hp.symm (hpa v hv) (hpb w hw) hvw
  | table hlength hall =>
      rw [compared_table_iff hp hpb hpa ha]
      have hcovers := (compared_table_iff hp hpa hpb hb).mp (.table hlength hall)
      exact hcovers.symm hp (forall_entries hpa) (forall_entries hpb) (ha.keys _ .refl)
  | function hid => exact .function hid.symm
  | thread hid => exact .thread hid.symm

theorem forall₂_trans {l m n : List Value} (hp : h.Coherent p)
    (hl : ∀ v ∈ l, p v) (hm : ∀ v ∈ m, p v) (hn : ∀ v ∈ n, p v)
    (hlm : List.Forall₂ (fun v w => h.equal v w = true) l m)
    (hmn : List.Forall₂ (fun v w => h.equal v w = true) m n) :
    List.Forall₂ (fun v w => h.equal v w = true) l n := by
  induction hlm generalizing n with
  | nil =>
      cases hmn
      exact .nil
  | cons hvw _ ih =>
      cases hmn with
      | cons hwx hrest =>
          obtain ⟨hv, hl⟩ := List.forall_mem_cons.mp hl
          obtain ⟨hw, hm⟩ := List.forall_mem_cons.mp hm
          obtain ⟨hx, hn⟩ := List.forall_mem_cons.mp hn
          exact .cons (hp.trans hv hw hx hvw hwx) (ih hl hm hn hrest)

theorem Compared.trans (hp : h.Coherent p) (hnumbers : ByValue numbers) {a b c : Value}
    (ha : h.Plain numbers a) (hb : h.Plain numbers b) (hc : h.Plain numbers c)
    (hpa : ∀ w ∈ h.parts a, p w) (hpb : ∀ w ∈ h.parts b, p w) (hpc : ∀ w ∈ h.parts c, p w)
    (hab : h.Compared h.keys a b) (hbc : h.Compared h.keys b c) : h.Compared h.keys a c := by
  cases hab with
  | same => exact hbc
  | @real x y hxy =>
      cases hbc with
      | same => exact .real hxy
      | @real _ z hyz =>
          have hx := ha.reals x .refl
          have hy := hb.reals y .refl
          have hz := hc.reals z .refl
          rw [hnumbers x y hx hy, Decimal.same_iff] at hxy
          rw [hnumbers y z hy hz, Decimal.same_iff] at hyz
          refine .real ?_
          rw [hnumbers x z hx hz, Decimal.same_iff]
          exact hxy.trans hyz
  | list hij =>
      cases hbc with
      | same => exact .list hij
      | list hjk => exact .list (forall₂_trans hp hpa hpb hpc hij hjk)
  | @table i j hlength hall =>
      have hij := (compared_table_iff hp hpa hpb hb).mp (.table hlength hall)
      cases c with
      | table k =>
          rw [compared_table_iff hp hpa hpc hc]
          have hjk := (compared_table_iff hp hpb hpc hc).mp hbc
          exact hij.trans hjk hp (forall_entries hpa) (forall_entries hpb) (forall_entries hpc)
      | _ => cases hbc
  | function hid =>
      cases hbc with
      | same => exact .function hid
      | function hid' => exact .function (hid.trans hid')
  | thread hid =>
      cases hbc with
      | same => exact .thread hid
      | thread hid' => exact .thread (hid.trans hid')

/-- **Equality is coherent,** by induction on the depth of nesting: what is so of the parts is so of
the whole. -/
theorem coherent (hnumbers : ByValue numbers) (n : Nat) :
    h.Coherent fun v => h.NestedWithin n v ∧ h.Plain numbers v := by
  induction n with
  | zero => exact ⟨fun ha => ha.1.elim, fun ha => ha.1.elim, fun ha => ha.1.elim⟩
  | succ n ih =>
      have hparts : ∀ {v}, h.NestedWithin (n + 1) v ∧ h.Plain numbers v →
          ∀ w ∈ h.parts v, h.NestedWithin n w ∧ h.Plain numbers w :=
        fun hv w hw => ⟨hv.1 w hw, hv.2.part hw⟩
      constructor
      case symm =>
        intro a b ha hb hab
        rw [equal_iff_compared ha.2.acyclic hb.2.acyclic] at hab
        rw [equal_iff_compared hb.2.acyclic ha.2.acyclic]
        exact hab.symm ih ha.2 hb.2 (hparts ha) (hparts hb)
      case trans =>
        intro a b c ha hb hc hab hbc
        rw [equal_iff_compared ha.2.acyclic hb.2.acyclic] at hab
        rw [equal_iff_compared hb.2.acyclic hc.2.acyclic] at hbc
        rw [equal_iff_compared ha.2.acyclic hc.2.acyclic]
        exact hab.trans ih hnumbers ha.2 hb.2 hc.2 (hparts ha) (hparts hb) (hparts hc) hbc
      case digest =>
        intro a b ha hb hab
        exact marksWithin_of_equalWithin hnumbers ha.2 hb.2 hab []

theorem coherent_plain (hnumbers : ByValue numbers) : h.Coherent (h.Plain numbers) where
  symm ha hb := (coherent hnumbers h.nesting).symm ⟨ha.acyclic.nestedWithin, ha⟩
    ⟨hb.acyclic.nestedWithin, hb⟩
  trans ha hb hc := (coherent hnumbers h.nesting).trans ⟨ha.acyclic.nestedWithin, ha⟩
    ⟨hb.acyclic.nestedWithin, hb⟩ ⟨hc.acyclic.nestedWithin, hc⟩
  digest ha hb := (coherent hnumbers h.nesting).digest ⟨ha.acyclic.nestedWithin, ha⟩
    ⟨hb.acyclic.nestedWithin, hb⟩

end

end Heap

end DispatchLisp
