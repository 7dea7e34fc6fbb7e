import DispatchLisp.Proofs.Expansion

/-! # Substitution composes

Substitution replaces a node that is headed by a bound name together with its children, and it does
not search what it inserts.  Two passes therefore see more than one: the second one also searches
what the first one inserted.  `compose` makes up for that beforehand, in the replacements, and one
pass with the composed bindings does what the two passes do (`substitute_substitute`).

`substitution_composes` adds when nothing is changed, and what a pass is: the result is the one tree
that `Expands` allows. -/

namespace DispatchLisp

namespace Node

variable {first second bindings : List (String × Node)} {t u r : Node} {v : Value}
  {kids : List Node} {name : String}

/-! ### A node that is not replaced -/

theorem substitute_atom_of_free (h : replacement? bindings v = none) :
    (atom v).substitute bindings = atom v := by
  rw [substitute, h, Option.getD_none]

theorem substitute_form_of_free (h : replacement? bindings v = none) :
    (form v kids).substitute bindings = form v (substituteAll bindings kids) := by
  rw [substitute, h, Option.getD_none]

/-! ### Two passes and one -/

/-- The bindings that do in one pass what two lists of bindings do one after the other: those of the
first list, with the second list substituted in their replacements, and then those of the second. -/
def compose (first second : List (String × Node)) : List (String × Node) :=
  first.map (fun binding => (binding.1, binding.2.substitute second)) ++ second

theorem lookup_map_substitute :
    (first.map fun binding => (binding.1, binding.2.substitute second)).lookup name =
      (first.lookup name).map (substitute second) := by
  induction first with
  | nil => rfl
  | cons binding first ih =>
      obtain ⟨bound, r⟩ := binding
      rw [List.map_cons, List.lookup_cons, List.lookup_cons]
      cases name == bound with
      | true => rfl
      | false => exact ih

/-- A name that the first list binds stays with it; any other is left to the second list. -/
theorem replacement?_compose :
    replacement? (compose first second) v =
      ((replacement? first v).map (substitute second)).or (replacement? second v) := by
  cases v with
  | ident name =>
      simp only [replacement?, compose]
      rw [List.lookup_append, lookup_map_substitute]
  | _ => rfl

theorem replacement?_compose_of_free (h : replacement? first v = none) :
    replacement? (compose first second) v = replacement? second v := by
  rw [replacement?_compose, h, Option.map_none, Option.none_or]

/-- The second pass searches what the first one inserted, and nothing else at this node. -/
theorem substitute_substitute_of_replaced (h : replacement? first t.head = some r) :
    (t.substitute first).substitute second = t.substitute (compose first second) := by
  have hboth : replacement? (compose first second) t.head = some (r.substitute second) := by
    rw [replacement?_compose, h, Option.map_some, Option.some_or]
  rw [substitute_of_replacement? h, substitute_of_replacement? hboth]

mutual

/-- **Two passes are one pass with the composed bindings.** -/
theorem substitute_substitute :
    ∀ t : Node, (t.substitute first).substitute second = t.substitute (compose first second)
  | .atom v => by
      cases hv : replacement? first v with
      | some r => exact substitute_substitute_of_replaced hv
      | none =>
          rw [substitute_atom_of_free hv, substitute, substitute, replacement?_compose_of_free hv]
  | .form v kids => by
      cases hv : replacement? first v with
      | some r => exact substitute_substitute_of_replaced hv
      | none =>
          -- The head is still there for the second pass, which may replace the form as a whole.
          rw [substitute_form_of_free hv, substitute, substitute, replacement?_compose_of_free hv,
            substituteAll_substituteAll kids]

theorem substituteAll_substituteAll :
    ∀ ts : List Node,
      substituteAll second (substituteAll first ts) = substituteAll (compose first second) ts
  | [] => rfl
  | t :: ts => by
      simp only [substituteAll]
      rw [substitute_substitute t, substituteAll_substituteAll ts]

end

/-! ### Names that do not occur -/

/-- The second node is the first one or stands somewhere below it. -/
def Occurs : Node → Node → Prop := Relation.ReflTransGen fun t u => u ∈ t.children

theorem occurs_iff : t.Occurs u ↔ u = t ∨ ∃ kid ∈ t.children, kid.Occurs u :=
  Relation.ReflTransGen.cases_head_iff.trans (or_congr_left eq_comm)

@[simp] theorem occurs_atom : (atom v).Occurs u ↔ u = atom v := by
  rw [occurs_iff]
  simp [children]

@[simp] theorem occurs_form :
    (form v kids).Occurs u ↔ u = form v kids ∨ ∃ kid ∈ kids, kid.Occurs u :=
  occurs_iff

/-- The bindings have no name in the tree, neither as an atom nor as the head of a form. -/
def Avoids (bindings : List (String × Node)) (t : Node) : Prop :=
  ∀ u, t.Occurs u → ∀ name ∈ bindings.map Prod.fst, u.head ≠ .ident name

theorem Avoids.replacement?_head (h : Avoids bindings t) : replacement? bindings t.head = none := by
  have hne := h t .refl
  cases hv : t.head with
  | ident name =>
      rw [replacement?, List.lookup_eq_none_iff]
      intro binding hbinding
      have hname : name ≠ binding.1 := by
        rintro rfl
        exact hne _ (List.mem_map_of_mem hbinding) hv
      simpa using hname
  | _ => rfl

theorem Avoids.child (h : Avoids bindings (form v kids)) {kid : Node} (hkid : kid ∈ kids) :
    Avoids bindings kid :=
  fun u hu => h u (occurs_form.mpr (.inr ⟨kid, hkid, hu⟩))

mutual

/-- **Where no name is bound, nothing changes.** -/
theorem substitute_of_avoids : ∀ t : Node, Avoids bindings t → t.substitute bindings = t
  | .atom _, h => substitute_atom_of_free h.replacement?_head
  | .form v kids, h => by
      have hv : replacement? bindings v = none := h.replacement?_head
      rw [substitute_form_of_free hv, substituteAll_of_avoids kids fun _ => h.child]

theorem substituteAll_of_avoids :
    ∀ ts : List Node, (∀ t ∈ ts, Avoids bindings t) → substituteAll bindings ts = ts
  | [], _ => rfl
  | t :: ts, h => by
      obtain ⟨hfirst, hrest⟩ := List.forall_mem_cons.mp h
      rw [substituteAll, substitute_of_avoids t hfirst, substituteAll_of_avoids ts hrest]

end

/-! ### The law -/

/-- What the bindings make of a tree is its expansion, with their names as the parameters. -/
theorem expands_iff_eq_substitute :
    Expands (bindings.map Prod.fst) (bindings.map Prod.snd) t u ↔ u = t.substitute bindings := by
  have hlength : (bindings.map Prod.fst).length ≤ (bindings.map Prod.snd).length := by simp
  have hzip : (bindings.map Prod.fst).zip (bindings.map Prod.snd) = bindings := by
    rw [List.zip_map', List.map_id']
  constructor
  · intro h
    rw [h.eq_substitute hlength, hzip]
  · rintro rfl
    have h := expands_substitute hlength t
    rwa [hzip] at h

/-- **Substitution composes.**  Substituting one list of bindings and then another gives the tree
that one pass gives with the bindings of the first list, the second list substituted in their
replacements, followed by those of the second list.  Names may be bound more than once, and the
first binding counts.  If no identifier in the tree is bound, then the tree stays as it is.  In any
case the result of a pass is the one tree in which each node headed by a bound name is replaced with
its children, and no inserted subtree is searched. -/
theorem substitution_composes (t : Node) (first second : List (String × Node)) :
    (t.substitute first).substitute second = t.substitute (compose first second) ∧
    (Avoids first t → t.substitute first = t) ∧
    ∀ u, Expands (first.map Prod.fst) (first.map Prod.snd) t u ↔ u = t.substitute first :=
  ⟨substitute_substitute t, substitute_of_avoids t, fun _ => expands_iff_eq_substitute⟩

/-- In `(f x (x y))` the first pass inserts `(g y)` twice, and the second pass replaces that form as
a whole by `y`, which is bound but not searched.  A binding of `g` alone changes nothing. -/
theorem substitution_composes_inserted_head :
    let call := form (.ident "f") [atom (.ident "x"), form (.ident "x") [atom (.ident "y")]]
    let first := [("x", form (.ident "g") [atom (.ident "y")]), ("x", atom .nil)]
    let second := [("y", atom (.int 1)), ("g", atom (.ident "y"))]
    (call.substitute first).substitute second = call.substitute (compose first second) ∧
    call.substitute (compose first second) =
      form (.ident "f") [atom (.ident "y"), atom (.ident "y")] ∧
    Avoids [("g", atom .nil)] call ∧ call.substitute [("g", atom .nil)] = call := by
  intro call first second
  have havoids : Avoids [("g", atom .nil)] call := by
    intro u hu name hname
    simp only [call, occurs_form, occurs_atom, List.exists_mem_cons_iff, List.not_mem_nil,
      false_and, exists_false, or_false] at hu
    rw [List.mem_singleton.mp hname]
    rcases hu with rfl | rfl | rfl | rfl <;> simp [head]
  exact ⟨(substitution_composes call first second).1, rfl, havoids,
    (substitution_composes call [("g", atom .nil)] second).2.1 havoids⟩

end Node

end DispatchLisp
