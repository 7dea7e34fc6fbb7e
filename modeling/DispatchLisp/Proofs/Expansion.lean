import DispatchLisp.Proofs.LocalNames
import DispatchLisp.Proofs.Sequel

/-! # Macro calls are their expansions

A macro is defined by its parameters and templates.  What a call of it stands for is said without
reference to how it is computed: `Node.Expands` relates a template to what it becomes when each
node that is headed by a parameter is replaced by an argument.  There is exactly one such tree if
there are enough arguments, and it is what substitution gives (`Node.expandsAll_iff`).

`macro_call_is_expansion` says that calling the macro and evaluating the `begin` form with the
expanded templates are the same program, so they agree in whatever they do: results, errors, states,
the jobs that they ask for and the depth at which they do. -/

namespace DispatchLisp

/-! ### Expansion -/

namespace Node

variable {params : List String} {args : List Node} {bindings : List (String × Node)}
  {t u a : Node} {ts us : List Node} {v : Value} {name : String}

/-- The argument for a name: if a parameter occurs twice, then the first one counts. -/
def IsArgument (params : List String) (args : List Node) (name : String) (a : Node) : Prop :=
  ∃ before after, params = before ++ name :: after ∧ name ∉ before ∧
    args[before.length]? = some a

mutual

/-- The template with its parameters replaced by the arguments.  A node that is a parameter, or is
headed by one, is replaced as a whole, and the argument is taken as it is. -/
inductive Expands (params : List String) (args : List Node) : Node → Node → Prop
  | replaced {t a : Node} {name : String} (head : t.head = .ident name)
      (argument : IsArgument params args name a) : Expands params args t a
  | atom {v : Value} (free : ∀ name ∈ params, v ≠ .ident name) :
      Expands params args (.atom v) (.atom v)
  | form {v : Value} {kids kids' : List Node} (free : ∀ name ∈ params, v ≠ .ident name)
      (inner : ExpandsAll params args kids kids') :
      Expands params args (.form v kids) (.form v kids')

/-- Each of the templates with its parameters replaced. -/
inductive ExpandsAll (params : List String) (args : List Node) : List Node → List Node → Prop
  | nil : ExpandsAll params args [] []
  | cons {t u : Node} {ts us : List Node} (first : Expands params args t u)
      (rest : ExpandsAll params args ts us) : ExpandsAll params args (t :: ts) (u :: us)

end

theorem lookup_zip_eq_some_iff :
    (params.zip args).lookup name = some a ↔ IsArgument params args name a := by
  unfold IsArgument
  induction params generalizing args with
  | nil => simp
  | cons p params ih =>
      cases args with
      | nil => simp
      | cons b args =>
          rw [List.zip_cons_cons, List.lookup_cons]
          -- The first parameter counts if it has the name; otherwise nothing before it does.
          by_cases hp : name = p
          · subst hp
            simp only [beq_self_eq_true]
            constructor
            · intro heq
              exact ⟨[], params, rfl, List.not_mem_nil, heq⟩
            · rintro ⟨before, after, heq, hfirst, hget⟩
              cases before with
              | nil => exact hget
              | cons q before =>
                  obtain ⟨rfl, -⟩ := List.cons.inj heq
                  exact absurd List.mem_cons_self hfirst
          · rw [beq_eq_false_iff_ne.mpr hp]
            simp only [ih]
            constructor
            · rintro ⟨before, after, rfl, hfirst, hget⟩
              refine ⟨p :: before, after, rfl, ?_, hget⟩
              exact fun hmem => (List.mem_cons.mp hmem).elim hp hfirst
            · rintro ⟨before, after, heq, hfirst, hget⟩
              cases before with
              | nil => exact absurd (List.cons.inj heq).1.symm hp
              | cons q before =>
                  obtain ⟨rfl, rfl⟩ := List.cons.inj heq
                  exact ⟨before, after, rfl, fun hmem => hfirst (List.mem_cons_of_mem _ hmem), hget⟩

theorem lookup_zip_eq_none_iff (h : params.length ≤ args.length) :
    (params.zip args).lookup name = none ↔ name ∉ params := by
  rw [List.lookup_eq_none_iff]
  constructor
  · intro hnone hmem
    rw [← List.map_fst_zip h] at hmem
    obtain ⟨binding, hbinding, rfl⟩ := List.mem_map.mp hmem
    simpa using hnone binding hbinding
  · rintro hfree ⟨p, b⟩ hbinding
    have hne : name ≠ p := fun heq => hfree (heq ▸ (List.of_mem_zip hbinding).1)
    simpa using hne

theorem replacement?_eq_some_iff :
    replacement? (params.zip args) v = some a ↔
      ∃ name, v = .ident name ∧ IsArgument params args name a := by
  cases v with
  | ident name => simp [replacement?, lookup_zip_eq_some_iff]
  | _ => simp [replacement?]

theorem replacement?_eq_none_iff (h : params.length ≤ args.length) :
    replacement? (params.zip args) v = none ↔ ∀ name ∈ params, v ≠ .ident name := by
  cases v with
  | ident name =>
      rw [replacement?, lookup_zip_eq_none_iff h]
      constructor
      · intro hfree p hp heq
        cases heq
        exact hfree hp
      · exact fun hfree hmem => hfree name hmem rfl
  | _ => simp [replacement?]

theorem substitute_of_replacement? (h : replacement? bindings t.head = some a) :
    t.substitute bindings = a := by
  cases t <;> simp_all [substitute, head]

theorem expands_of_replacement? (h : replacement? (params.zip args) t.head = some a) :
    Expands params args t (t.substitute (params.zip args)) := by
  obtain ⟨name, hname, hargument⟩ := replacement?_eq_some_iff.mp h
  rw [substitute_of_replacement? h]
  exact .replaced hname hargument

mutual

/-- Substitution expands. -/
theorem expands_substitute (h : params.length ≤ args.length) :
    ∀ t : Node, Expands params args t (t.substitute (params.zip args))
  | .atom v => by
      cases hv : replacement? (params.zip args) v with
      | some a => exact expands_of_replacement? hv
      | none =>
          rw [substitute, hv]
          exact .atom ((replacement?_eq_none_iff h).mp hv)
  | .form v kids => by
      cases hv : replacement? (params.zip args) v with
      | some a => exact expands_of_replacement? hv
      | none =>
          rw [substitute, hv]
          exact .form ((replacement?_eq_none_iff h).mp hv) (expandsAll_substituteAll h kids)

theorem expandsAll_substituteAll (h : params.length ≤ args.length) :
    ∀ ts : List Node, ExpandsAll params args ts (substituteAll (params.zip args) ts)
  | [] => .nil
  | t :: ts => .cons (expands_substitute h t) (expandsAll_substituteAll h ts)

end

mutual

/-- There is no other expansion. -/
theorem Expands.eq_substitute (h : params.length ≤ args.length) {t u : Node} :
    Expands params args t u → u = t.substitute (params.zip args)
  | .replaced hhead hargument =>
      (substitute_of_replacement? (replacement?_eq_some_iff.mpr ⟨_, hhead, hargument⟩)).symm
  | .atom hfree => by rw [substitute, (replacement?_eq_none_iff h).mpr hfree, Option.getD_none]
  | .form hfree hinner => by
      rw [substitute, (replacement?_eq_none_iff h).mpr hfree, Option.getD_none,
        hinner.eq_substituteAll h]

theorem ExpandsAll.eq_substituteAll (h : params.length ≤ args.length) {ts us : List Node} :
    ExpandsAll params args ts us → us = substituteAll (params.zip args) ts
  | .nil => rfl
  | .cons hfirst hrest => by
      rw [substituteAll, ← hfirst.eq_substitute h, ← hrest.eq_substituteAll h]

end

/-- **With enough arguments there is exactly one expansion.** -/
theorem expandsAll_iff (h : params.length ≤ args.length) :
    ExpandsAll params args ts us ↔ us = substituteAll (params.zip args) ts := by
  constructor
  · exact ExpandsAll.eq_substituteAll h
  · rintro rfl
    exact expandsAll_substituteAll h ts

end Node

/-! ### Macros -/

theorem Eval.nested_of_done {α : Type} {m : Eval α} {s t : State} {r : Except Error α}
    (hdepth : ¬ s.limit < s.depth + 1) (h : m { s with depth := s.depth + 1 } = .done r t) :
    Eval.nested m s = .done r { t with depth := t.depth - 1 } := by
  rw [Eval.nested, if_neg hdepth, Eval.atEnd, h]
  rfl

/-- A form that fails at once leaves the state as it was. -/
theorem Eval.nested_fail {α : Type} (c : Cause) (s : State) :
    Eval.nested (Eval.fail c : Eval α) s =
      .done (.error (.base (if s.limit < s.depth + 1 then .eval (.depthExceeded s.limit) else c)))
        s := by
  by_cases hdepth : s.limit < s.depth + 1
  · rw [Eval.nested, if_pos hdepth, if_pos hdepth]
  · rw [if_neg hdepth]
    exact Eval.nested_of_done hdepth rfl

/-- Functions that are there stay what they are. -/
theorem State.overloads_of_prefix {s t : State} {f : FunctionRef}
    (h : s.functions.toList <+: t.functions.toList) (hf : f.id < s.functions.size) :
    t.overloads f = s.overloads f := by
  obtain ⟨more, hmore⟩ := h
  have hget : t.functions[f.id]? = s.functions[f.id]? := by
    rw [← Array.getElem?_toList, ← Array.getElem?_toList, ← hmore, List.getElem?_append_left hf]
  rw [State.overloads, State.overloads, Array.getD_eq_getD_getElem?, hget,
    Array.getD_eq_getD_getElem?]

namespace Form

open Machine

variable {m : String} {params : List String} {templates : List Node} {d : Scope} {v : Value}
  {f : FunctionRef} {s t : State} {r : Value} {waiting left : List Fiber} {turn turn' : Nat}

/-- The signature of a macro. -/
def macroTarget (m : String) (params : List String) : Node :=
  Node.ofItems (.atom (.ident m) :: params.map fun p => .atom (.ident p))

/-- The only overload of a macro. -/
def macroEntry (m : String) (params : List String) (templates : List Node) : Entry :=
  .ofSpecial m (.expansion m params templates)

theorem signature_macroTarget (h : Heap) (form m : String) (params : List String) :
    signature h form (macroTarget m params) = .ok (m, params) := by
  have hparams : paramsOf h form (params.map fun p => .atom (.ident p)) = .ok params := by
    induction params with
    | nil => rfl
    | cons p params ih =>
        rw [List.map_cons, paramsOf, ih]
        rfl
  change ((.ok m : Except Cause String) >>= fun name => do
    return (name, ← paramsOf h form (params.map fun p => .atom (.ident p)))) = _
  rw [hparams]
  rfl

theorem defineMacro_macroTarget (m : String) (params : List String) (first : Node)
    (more : List Node) (d : Scope) (s : State) :
    defineMacro (macroTarget m params :: first :: more) d s =
      .done (.ok .nil) ((s.newFunction (.single (macroEntry m params (first :: more)))).2.define d m
        (.function ⟨s.functions.size, m⟩)) := by
  have hsignature : Eval.decode (signature · "def-symbol" (macroTarget m params)) s =
      .done (.ok (m, params)) s := by
    rw [Eval.decode, signature_macroTarget]
  unfold defineMacro
  exact Eval.bind_ok hsignature

/-- What a definition of a macro changes, if it succeeds. -/
theorem endsWith_defineMacro (hhead : s.scopes.resolve d v = .function f)
    (hspecial : (s.overloads f).special? = some .defineMacro)
    (hends : EndsWith ⟨none, evalNode (.form v (macroTarget m params :: templates)) d s, [],
      waiting, turn⟩ (.ok r, t, left, turn')) :
    r = .nil ∧ t.functions = s.functions.push (.single (macroEntry m params templates)) ∧
      t.scopes = s.scopes.define d m (.function ⟨s.functions.size, m⟩) := by
  rw [evalNode_special hhead hspecial] at hends
  by_cases hdepth : s.limit < s.depth + 1
  · rw [Eval.nested, if_pos hdepth] at hends
    cases (endsWith_of_ended rfl).mp hends
  · cases templates with
    | nil =>
        have hprogram : Eval.nested (SpecialForm.run .defineMacro [macroTarget m params] d) s = _ :=
          Eval.nested_fail (.arity "def-symbol" "2+" 1) s
        rw [hprogram] at hends
        cases (endsWith_of_ended rfl).mp hends
    | cons first more =>
        have hprogram :
            Eval.nested (SpecialForm.run .defineMacro (macroTarget m params :: first :: more) d) s =
              _ := Eval.nested_of_done hdepth (defineMacro_macroTarget m params first more d _)
        rw [hprogram] at hends
        cases (endsWith_of_ended rfl).mp hends
        exact ⟨rfl, rfl, rfl⟩

/-- Carrying out a macro call with enough arguments is evaluating the expansion in a fresh scope. -/
theorem expand_of_expandsAll {args body : List Node} (h : params.length ≤ args.length)
    (hbody : Node.ExpandsAll params args templates body) (c : Scope) :
    expand m params templates args c = evalFresh body c := by
  rw [expand, if_neg h.not_gt, ← (Node.expandsAll_iff h).mp hbody]

/-- **A macro call is its expansion.**  Suppose that a macro `m` with these parameters and templates
is defined in the scope `d`.  Then `m` stands for a function `g` there, and in every later state
(functions are never lost) and every scope, a form whose head stands for `g`

* is the same program as the form with the expanded templates, headed by `begin`, if there are at
  least as many arguments as parameters, and there is exactly one such expansion;
* fails at once and changes nothing if there are too few arguments.  The error says so, unless no
  form at all can be evaluated because the limit on nesting is reached. -/
theorem macro_call_is_expansion (hd : d.frame < s.scopes.frames.size)
    (hhead : s.scopes.resolve d v = .function f)
    (hspecial : (s.overloads f).special? = some .defineMacro)
    (hends : EndsWith ⟨none, evalNode (.form v (macroTarget m params :: templates)) d s, [],
      waiting, turn⟩ (.ok r, t, left, turn')) :
    r = .nil ∧ ∃ g, t.scopes.resolve d (.ident m) = .function g ∧
      ∀ u : State, t.functions.toList <+: u.functions.toList →
      ∀ c head, u.scopes.resolve c head = .function g → ∀ args : List Node,
        (params.length ≤ args.length →
          (∃! body, Node.ExpandsAll params args templates body) ∧
          ∀ body, Node.ExpandsAll params args templates body →
          ∀ head' b, u.scopes.resolve c head' = .function b →
            (u.overloads b).special? = some .sequence →
            evalNode (.form head args) c u = evalNode (.form head' body) c u) ∧
        (args.length < params.length →
          evalNode (.form head args) c u =
            .done (.error (.base
              (if u.limit < u.depth + 1 then .eval (.depthExceeded u.limit)
              else .arity m (toString params.length) args.length))) u) := by
  obtain ⟨rfl, hfunctions, hscopes⟩ := endsWith_defineMacro hhead hspecial hends
  refine ⟨rfl, ⟨s.functions.size, m⟩, ?_, fun u hlater c head hcall args => ?_⟩
  · have hlookup : t.scopes.lookup d m = some (.function ⟨s.functions.size, m⟩) := by
      rw [hscopes, Scopes.lookup_define hd]
    simp only [Scopes.resolve, hlookup]
  have hmacro : (u.overloads ⟨s.functions.size, m⟩).special? =
      some (.expansion m params templates) := by
    have hsize : s.functions.size < t.functions.size := by
      rw [hfunctions, Array.size_push]
      omega
    rw [State.overloads_of_prefix hlater hsize, State.overloads, hfunctions]
    simp [Overloads.special?, Overloads.single, macroEntry, Entry.ofSpecial]
  rw [evalNode_special hcall hmacro]
  refine ⟨fun henough => ⟨?_, fun body hbody head' b hsequence hb => ?_⟩, fun hfew => ?_⟩
  · refine ⟨_, Node.expandsAll_substituteAll henough templates, fun body hbody => ?_⟩
    exact hbody.eq_substituteAll henough
  · have hrun : SpecialForm.run (.expansion m params templates) args c =
        SpecialForm.run .sequence body c := expand_of_expandsAll henough hbody c
    rw [evalNode_special hsequence hb, hrun]
  · rw [SpecialForm.run, expand, if_pos hfew]
    exact Eval.nested_fail _ u

/-- A macro whose two parameters have the same name, with an argument too many and with one too
few. -/
theorem macro_call_is_expansion_twice :
    let s : State := {
      scopes := ⟨#[[("def-symbol", .function ⟨0, "def-symbol"⟩),
        ("begin", .function ⟨1, "begin"⟩)]]⟩
      functions := #[.single (.ofSpecial "def-symbol" .defineMacro),
        .single (.ofSpecial "begin" .sequence)] }
    let template : Node := .form (.ident "begin") [.form (.ident "p") [.atom .nil]]
    ∃ t left turn,
      EndsWith ⟨none, evalNode (.form (.ident "def-symbol")
        [macroTarget "m" ["p", "p"], template]) ⟨0, []⟩ s, [], [], 10⟩ (.ok .nil, t, left, turn) ∧
      evalNode (.form (.ident "m") [.atom (.int 1), .atom (.int 2), .atom (.int 3)]) ⟨0, []⟩ t =
        evalNode (.form (.ident "begin") [.form (.ident "begin") [.atom (.int 1)]]) ⟨0, []⟩ t ∧
      evalNode (.form (.ident "m") [.atom (.int 1)]) ⟨0, []⟩ t =
        .done (.error (.base (.arity "m" "2" 1))) t := by
  intro s template
  have hends : EndsWith ⟨none, evalNode (.form (.ident "def-symbol")
      [macroTarget "m" ["p", "p"], template]) ⟨0, []⟩ s, [], [], 10⟩ (.ok .nil, _, [], 10) :=
    (endsWith_of_ended rfl).mpr rfl
  obtain ⟨-, g, hg, hcalls⟩ := macro_call_is_expansion (by decide) rfl rfl hends
  refine ⟨_, [], 10, hends, ?_, ?_⟩
  · have hcall := hcalls _ List.prefix_rfl _ _ hg [.atom (.int 1), .atom (.int 2), .atom (.int 3)]
    refine (hcall.1 (by decide)).2 _ ?_ (.ident "begin") ⟨1, "begin"⟩ rfl rfl
    exact (Node.expandsAll_iff (by decide)).mpr rfl
  · exact (hcalls _ List.prefix_rfl _ _ hg [.atom (.int 1)]).2 (by decide)

/-- At the limit on nesting a macro call with too few arguments fails because of the limit, although
elsewhere it fails because of the arguments. -/
theorem macro_call_beyond_limit :
    let session := ((World.new 1).newSession true).1
    let w := ((World.new 1).newSession true).2
    let answer := fun text => ((w.evalText 100 session "(def-symbol (m a) a)").bind fun (_, w) =>
      w.evalText 100 session text).map Prod.fst
    answer "(m)" = some (.error (.base (.arity "m" "1" 0))) ∧
    answer "(begin (m))" = some (.error (.base (.eval (.depthExceeded 1)))) := by
  decide +kernel

end Form

end DispatchLisp
