import DispatchLisp.Proofs.Assignment
import DispatchLisp.Proofs.NumberText
import DispatchLisp.Proofs.Parameters

/-! # Printed closures

The text of a closure is the expression that makes it.  The printer writes the parameters in its own
way: a list with nothing before the dot begins with a space, and what a parameter list may hold
beyond the parameters (a dot at the end, names after the one that follows the dot) is not written at
all.

* The tokens of the text are those of a `lambda` form with the names of the closure and its body
  (`Closure.Readable.scans_print`), so the text is read as this form
  (`Closure.Readable.readOne_print`).
* Evaluating the form makes a closure with the same names and the same body
  (`Closure.Readable.ownSource`).  It also has the same text.
* The names of closures that programs make come from parameter lists.  Names that were read can be
  read again, and the dot is never a parameter (`Form.splitParams_subset`). -/

namespace DispatchLisp

open Token

/-! ### Text that is read twice -/

/-- A value is printed like the one that its text stands for. -/
theorem Heap.print_reread (h : Heap) (v : Value) : h.print v.reread = h.print v := by
  cases v with
  | real d =>
      have hvalue := Decimal.same_iff.mp (Numeral.same_reread d)
      have htext := Numeral.ofDecimal_eq_iff.mpr hvalue.symm
      exact congrArg String.ofList htext
  | _ => rfl

namespace Node

mutual

theorem print_reread (h : Heap) (n : Node) : n.reread.print h = n.print h := by
  match n with
  | atom v => exact h.print_reread v
  | form v kids =>
      by_cases hempty : v = .nil ∧ kids = []
      · obtain ⟨rfl, rfl⟩ := hempty
        rfl
      · have hempty' : ¬ (v.reread = .nil ∧ rereadAll kids = []) := by
          rwa [reread_eq_nil_iff, rereadAll_eq_nil_iff]
        rw [reread, print_form h hempty, print_form h hempty', h.print_reread v,
          printTail_rereadAll h kids]

theorem printTail_rereadAll (h : Heap) (ns : List Node) :
    printTail h (rereadAll ns) = printTail h ns := by
  match ns with
  | [] => rfl
  | n :: ns =>
      simp only [rereadAll, printTail, print_reread h n, printTail_rereadAll h ns]

end

/-- Names as nodes. -/
def names (xs : List String) : List Node := xs.map fun x => atom (.ident x)

theorem rereadAll_names (xs : List String) : rereadAll (names xs) = names xs := by
  induction xs with
  | nil => rfl
  | cons x xs ih => exact congrArg (atom (.ident x) :: ·) ih

theorem tokens_ofNames (xs : List String) :
    tokens (ofNames xs) = .opening :: (tokensAll (names xs) ++ [.closing]) := by
  cases xs with
  | nil => rfl
  | cons x xs => exact tokens_form (by simp)

theorem printTail_append (h : Heap) (as bs : List Node) :
    printTail h (as ++ bs) = printTail h as ++ printTail h bs := by
  induction as with
  | nil => exact (String.empty_append).symm
  | cons a as ih => simp only [List.cons_append, printTail, ih, String.append_assoc]

theorem intercalate_names (h : Heap) (x : String) (xs : List String) :
    " ".intercalate (x :: xs) = x ++ printTail h (names xs) := by
  have htexts : (names (x :: xs)).map (print h) = x :: xs := by
    rw [names, List.map_map]
    exact List.map_id _
  rw [← htexts]
  exact joined_cons h (atom (.ident x)) (names xs)

end Node

theorem Value.readable_dot : Readable (.ident ".") :=
  ⟨'.', [], by decide, .of_all (by decide) (by decide) (by decide), by decide⟩

theorem Value.readable_lambda : Readable (.ident "lambda") :=
  ⟨'l', "ambda".toList, by decide, .of_all (by decide) (by decide) (by decide), by decide⟩

namespace Closure

variable {c : Closure}

/-- All names of the closure can stand in a source text, and so can its body, which is not empty.
None of the parameters is the dot. -/
structure Readable (c : Closure) : Prop where
  names : ∀ x ∈ c.params ++ c.rest.toList, (Value.ident x).Readable
  dot : "." ∉ c.params
  body : ∀ n ∈ c.body, n.Readable
  body_ne : c.body ≠ []

/-- The names between the parentheses of the parameter list. -/
def header (c : Closure) : String :=
  " ".intercalate c.params ++
    match c.rest with
    | some rest => " . " ++ rest
    | none => ""

theorem print_eq (h : Heap) (c : Closure) :
    c.print h = "(lambda (" ++ c.header ++ ")" ++ Node.printTail h c.body ++ ")" := by
  obtain ⟨params, rest, body, scope⟩ := c
  cases rest <;> simp only [print, header, String.append_assoc]

theorem Readable.written (hc : c.Readable) :
    ∀ n ∈ Node.names (Form.written c.params c.rest), n.Readable := by
  intro n hn
  obtain ⟨x, hx, rfl⟩ := List.mem_map.mp hn
  refine .atom ?_
  rcases List.mem_append.mp hx with hx | hx
  · exact hc.names x (List.mem_append_left _ hx)
  · cases hr : c.rest with
    | none =>
        rw [hr] at hx
        cases hx
    | some r =>
        rw [hr] at hx
        rcases List.mem_cons.mp hx with rfl | hx
        · exact Value.readable_dot
        · refine hc.names x (List.mem_append_right _ ?_)
          rw [hr]
          exact hx

/-- What follows the parameters is written like further names. -/
theorem header_eq (h : Heap) (c : Closure) : c.header =
    " ".intercalate c.params ++ Node.printTail h (Node.names (Form.written [] c.rest)) := by
  unfold header
  cases c.rest with
  | none => rfl
  | some r =>
      have hdot : Node.printTail h (Node.names [".", r]) = " " ++ "." ++ (" " ++ r ++ "") := rfl
      have hliteral : " . " = " " ++ "." ++ " " := by decide
      change _ ++ (" . " ++ r) = _ ++ Node.printTail h (Node.names [".", r])
      simp only [hdot, hliteral, String.append_empty, String.append_assoc]

/-- The names of a closure are scanned one by one. -/
theorem Readable.scans_header (hc : c.Readable) (h : Heap) {rest : List Char} {after : List Token}
    (hrest : Ended rest) (hscans : Scans rest after) :
    Scans (c.header.toList ++ rest)
      (Node.tokensAll (Node.names (Form.written c.params c.rest)) ++ after) := by
  have hwritten := hc.written
  rw [header_eq h]
  cases hparams : c.params with
  | nil =>
      rw [hparams] at hwritten
      have hnames := Node.scans_printTail h _ hwritten hrest hscans
      rw [Node.rereadAll_names] at hnames
      simpa using hnames
  | cons p ps =>
      have hnames : Node.names (Form.written (p :: ps) c.rest) =
          .atom (.ident p) :: Node.names (ps ++ Form.written [] c.rest) := rfl
      rw [hparams, hnames] at hwritten
      obtain ⟨⟨hp⟩, htail⟩ := List.forall_mem_cons.mp hwritten
      have hscanned := Node.scans_printTail h _ htail hrest hscans
      rw [Node.rereadAll_names] at hscanned
      have hall := Scans.value hp h (Node.ended_printTail h _ hrest) hscanned
      rw [Node.intercalate_names h, String.append_assoc, ← Node.printTail_append, Node.names,
        Node.names, ← List.map_append, String.toList_append, List.append_assoc]
      exact hall

/-- **The text of a closure is scanned into the tokens of a `lambda` form.** -/
theorem Readable.scans_print (hc : c.Readable) (h : Heap) :
    Scans (c.print h).toList (Node.tokens (.form (.ident "lambda")
      (.ofNames (Form.written c.params c.rest) :: Node.rereadAll c.body))) := by
  have hbody := Node.scans_printTail h c.body hc.body (ended_closing []) scans_nil.closing
  have hheader := hc.scans_header h (ended_closing _) hbody.closing
  have hform := Scans.value Value.readable_lambda h (ended_space _) hheader.opening.space
  have hword : (h.print (.ident "lambda")).toList = "lambda".toList := rfl
  rw [hword] at hform
  rw [print_eq, Node.tokens_form (by simp), Node.tokensAll, Node.tokens_ofNames]
  simpa [Value.reread, List.append_assoc] using hform.opening

theorem Readable.readOne_print (hc : c.Readable) (h : Heap) :
    Node.readOne (c.print h) = .ok (.form (.ident "lambda")
      (.ofNames (Form.written c.params c.rest) :: Node.rereadAll c.body)) := by
  refine Node.readOne_eq_ok_iff.mpr (Node.readAll_of_scans ?_)
  simpa [Node.tokensAll] using hc.scans_print h

/-! ### Evaluating the text -/

/-- The text of the closure is the source of an equal closure: it is read as one expression, and
wherever `lambda` stands for the special form, evaluating this expression makes a closure with the
same parameters, the same name for further arguments, the same body and the same text. -/
def OwnSource (c : Closure) : Prop :=
  ∀ h, ∃ n, Node.readOne (c.print h) = .ok n ∧
    ∀ s e, s.Performs e "lambda" .lambda → s.depth < s.limit →
      ∃ f t c', evalNode n e s = .done (.ok (.function f)) t ∧
        t.overloads f = .single (.ofClosure "lambda" c') ∧
        c'.params = c.params ∧ c'.rest = c.rest ∧ Node.sameAll c.body c'.body = true ∧
        c'.print h = c.print h

/-- **A closure whose names and body were read is its own source.** -/
theorem Readable.ownSource (hc : c.Readable) : c.OwnSource := by
  intro h
  refine ⟨_, hc.readOne_print h, fun s e hlambda hdepth => ?_⟩
  have hlimit : ¬ s.limit < s.depth + 1 := by omega
  have hbody : Node.rereadAll c.body ≠ [] := mt Node.rereadAll_eq_nil_iff.mp hc.body_ne
  have hrun := Form.lambda_ofNames c.rest hc.dot hbody e { s with depth := s.depth + 1 }
  have heval := (hlambda.evalNode _).trans (Eval.nested_of_done hlimit hrun)
  refine ⟨_, _, _, heval, State.overloads_withClosure rfl List.prefix_rfl, rfl, rfl,
    Node.sameAll_rereadAll c.body, ?_⟩
  simp only [print, Node.printTail_rereadAll]

end Closure

/-! ### Names that were read -/

namespace Node

theorem Readable.head {n : Node} (h : n.Readable) : n.head.Readable := by
  cases h with
  | atom hv => exact hv
  | form hv _ => exact hv

theorem Readable.children {n : Node} (h : n.Readable) : ∀ m ∈ n.children, m.Readable := by
  cases h with
  | atom _ => exact fun m hm => nomatch hm
  | form _ hkids => exact hkids

/-- The node is the other one or stands somewhere in it. -/
inductive PartOf : Node → Node → Prop
  | refl (n : Node) : PartOf n n
  | child {m k n : Node} : k ∈ n.children → PartOf m k → PartOf m n

theorem PartOf.readable {m n : Node} (h : m.PartOf n) (hn : n.Readable) : m.Readable := by
  induction h with
  | refl => exact hn
  | child hk _ ih => exact ih (hn.children _ hk)

end Node

/-- What a computation that can fail goes on with. -/
theorem exists_of_bind_eq_ok {α β : Type} {x : Except Cause α} {f : α → Except Cause β} {b : β}
    (hbind : (x >>= f) = .ok b) : ∃ a, x = .ok a ∧ f a = .ok b := by
  cases x with
  | error c => cases hbind
  | ok a => exact ⟨a, rfl, hbind⟩

namespace Form

variable {h : Heap} {form : String} {n : Node} {names : List String}

theorem readable_nameOf {name : String} (hn : n.Readable) (hname : nameOf h form n = .ok name) :
    (Value.ident name).Readable := by
  have hhead := hn.head
  unfold nameOf at hname
  split at hname
  case h_1 name' hident =>
    cases hname
    rwa [hident] at hhead
  case h_2 => cases hname

theorem readable_paramsOf {ns : List Node} (hns : ∀ n ∈ ns, n.Readable)
    (hnames : paramsOf h form ns = .ok names) : ∀ x ∈ names, (Value.ident x).Readable := by
  induction ns generalizing names with
  | nil =>
      cases hnames
      simp
  | cons n ns ih =>
      obtain ⟨hn, hns⟩ := List.forall_mem_cons.mp hns
      obtain ⟨x, hx, hrest⟩ := exists_of_bind_eq_ok hnames
      obtain ⟨xs, hxs, heq⟩ := exists_of_bind_eq_ok hrest
      cases heq
      refine List.forall_mem_cons.mpr ⟨?_, ih hns hxs⟩
      unfold paramOf at hx
      split at hx
      · exact readable_nameOf hn hx
      · cases hx

theorem readable_signature {name : String} (hn : n.Readable)
    (hsignature : signature h form n = .ok (name, names)) :
    ∀ x ∈ name :: names, (Value.ident x).Readable := by
  obtain ⟨x, hx, hrest⟩ := exists_of_bind_eq_ok hsignature
  obtain ⟨xs, hxs, heq⟩ := exists_of_bind_eq_ok hrest
  cases heq
  exact List.forall_mem_cons.mpr ⟨readable_nameOf hn hx, readable_paramsOf hn.children hxs⟩

theorem readable_lambdaParams (hn : n.Readable) (hnames : lambdaParams h n = .ok names) :
    ∀ x ∈ names, (Value.ident x).Readable := by
  unfold lambdaParams at hnames
  split at hnames
  case h_1 =>
    cases hnames
    simp
  case h_2 =>
    cases hnames
    simp
  case h_3 =>
    obtain ⟨⟨x, xs⟩, hsignature, heq⟩ := exists_of_bind_eq_ok hnames
    cases heq
    exact readable_signature hn hsignature

/-- The parameters, and the name for further arguments, are among the names that are written, and
the dot is no parameter. -/
theorem splitParams_subset (names : List String) :
    (∀ x ∈ (splitParams names).1 ++ (splitParams names).2.toList, x ∈ names) ∧
      "." ∉ (splitParams names).1 := by
  fun_induction splitParams names with
  | case1 => simp
  | case2 names =>
      refine ⟨fun x hx => ?_, List.not_mem_nil⟩
      rw [List.nil_append, Option.mem_toList] at hx
      exact List.mem_cons_of_mem _ (List.mem_of_mem_head? hx)
  | case3 name names hname params rest hsplit ih =>
      obtain ⟨hsubset, hdot⟩ := ih
      rw [hsplit] at hsubset hdot
      refine ⟨List.forall_mem_cons.mpr ⟨List.mem_cons_self, fun x hx => ?_⟩, ?_⟩
      · exact List.mem_cons_of_mem _ (hsubset x hx)
      · intro hmem
        rcases List.mem_cons.mp hmem with rfl | hmem
        · exact hname rfl
        · exact hdot hmem

/-- The closure that is made in a scope of a list of names and a body. -/
def closureOf (names : List String) (body : List Node) (e : Scope) (s : State) : Closure :=
  ⟨(splitParams names).1, (splitParams names).2, body, ⟨s.scopes.frames.size, e.chain⟩⟩

theorem ownSource_closureOf {body : List Node} (hnames : ∀ x ∈ names, (Value.ident x).Readable)
    (hbody : ∀ n ∈ body, n.Readable) (hne : body ≠ []) (e : Scope) (s : State) :
    (closureOf names body e s).OwnSource := by
  obtain ⟨hsubset, hdot⟩ := splitParams_subset names
  exact Closure.Readable.ownSource ⟨fun x hx => hnames x (hsubset x hx), hdot, hbody, hne⟩

theorem ownSource_signature {body : List Node} {name : String}
    (hform : ∀ m ∈ n :: body, m.Readable) (hnames : signature h form n = .ok (name, names))
    (hne : body ≠ []) (e : Scope) (s : State) : (closureOf names body e s).OwnSource := by
  obtain ⟨hn, hbody⟩ := List.forall_mem_cons.mp hform
  obtain ⟨-, hparams⟩ := List.forall_mem_cons.mp (readable_signature hn hnames)
  exact ownSource_closureOf hparams hbody hne e s

end Form

/-! ### Forms that make closures -/

namespace Eval

variable {α β : Type} {s t : State}

theorem exists_of_bind_eq_done {m : Eval α} {f : α → Eval β} {b : β}
    (h : (m >>= f) s = .done (.ok b) t) :
    ∃ a u, m s = .done (.ok a) u ∧ f a u = .done (.ok b) t := by
  rw [bind_apply] at h
  cases hm : m s with
  | done r u =>
      rw [hm] at h
      cases r with
      | ok a => exact ⟨a, u, rfl, h⟩
      | error e => cases h
  | call job u next =>
      rw [hm] at h
      cases h
  | await c u next =>
      rw [hm] at h
      cases h

theorem of_decode_eq_done {f : Heap → Except Cause α} {a : α}
    (h : decode f s = .done (.ok a) t) : f s.heap = .ok a ∧ t = s := by
  unfold decode at h
  split at h
  case h_1 a' ha =>
    cases h
    exact ⟨ha, rfl⟩
  case h_2 => cases h

theorem of_nested_eq_done {m : Eval α} {a : α} (h : nested m s = .done (.ok a) t) :
    ∃ u, m { s with depth := s.depth + 1 } = .done (.ok a) u ∧
      t = { u with depth := u.depth - 1 } := by
  unfold nested at h
  split at h
  case isTrue => cases h
  case isFalse =>
    unfold atEnd at h
    cases hm : m { s with depth := s.depth + 1 } with
    | done r u =>
        rw [hm] at h
        cases h
        exact ⟨u, rfl, rfl⟩
    | call job u next =>
        rw [hm] at h
        cases h
    | await c u next =>
        rw [hm] at h
        cases h

end Eval

/-- From the scope, the name stands for a function whose only overload is the closure. -/
def State.Names (s : State) (e : Scope) (name : String) (c : Closure) : Prop :=
  ∃ f, s.scopes.lookup e name = some (.function f) ∧ s.overloads f = .single (.ofClosure name c)

namespace Form

variable {target : Node} {body : List Node} {e : Scope} {s t : State} {v : Value}

theorem lambda_eq_done {args : List Node} (h : lambda args e s = .done (.ok v) t) :
    ∃ target body names, args = target :: body ∧ body ≠ [] ∧
      lambdaParams s.heap target = .ok names ∧
      v = .function ⟨s.functions.size, "lambda"⟩ ∧
      t = s.withClosure "lambda" (closureOf names body e s) := by
  unfold lambda at h
  split at h
  case h_1 target first more =>
    obtain ⟨names, u, hdecode, hrest⟩ := Eval.exists_of_bind_eq_done h
    obtain ⟨hnames, rfl⟩ := Eval.of_decode_eq_done hdecode
    cases hrest
    exact ⟨target, first :: more, names, rfl, by simp, hnames, rfl, rfl⟩
  case h_2 => cases h

theorem define_eq_done (hform : target.isAtom = false)
    (h : define (target :: body) e s = .done (.ok v) t) :
    ∃ name names, body ≠ [] ∧ signature s.heap "def" target = .ok (name, names) ∧
      t = (s.withClosure name (closureOf names body e s)).define e name
        (.function ⟨s.functions.size, name⟩) := by
  cases body with
  | nil => cases h
  | cons first more =>
      simp only [define, hform, Bool.false_eq_true, if_false] at h
      obtain ⟨⟨name, names⟩, u, hdecode, hrest⟩ := Eval.exists_of_bind_eq_done h
      obtain ⟨hnames, rfl⟩ := Eval.of_decode_eq_done hdecode
      cases hrest
      exact ⟨name, names, by simp, hnames, rfl⟩

theorem of_requireBound_eq_done {x : String} (h : requireBound e x s = .done (.ok ()) t) :
    s = t := by
  unfold requireBound at h
  injection h

theorem of_assign_eq_done {x : String} (h : assign e x v s = .done (.ok ()) t) :
    ∃ i, s.scopes.owner? e x = some i ∧ t = { s with scopes := s.scopes.rebind i x v } := by
  cases howner : s.scopes.owner? e x with
  | some i =>
      rw [assign_of_owner? howner] at h
      cases h
      exact ⟨i, rfl, rfl⟩
  | none =>
      simp only [assign, Eval.attempt, State.assign, howner] at h
      cases h

theorem set_eq_done (hform : target.isAtom = false)
    (h : set (target :: body) e s = .done (.ok v) t) :
    ∃ name names i, body ≠ [] ∧ signature s.heap "set" target = .ok (name, names) ∧
      (s.withClosure name (closureOf names body e s)).scopes.owner? e name = some i ∧
      t = { s.withClosure name (closureOf names body e s) with
        scopes := (s.withClosure name (closureOf names body e s)).scopes.rebind i name
          (.function ⟨s.functions.size, name⟩) } := by
  cases body with
  | nil => cases h
  | cons first more =>
      simp only [set, hform, Bool.false_eq_true, if_false] at h
      obtain ⟨⟨name, names⟩, _, hdecode, hrest⟩ := Eval.exists_of_bind_eq_done h
      obtain ⟨hnames, rfl⟩ := Eval.of_decode_eq_done hdecode
      obtain ⟨_, _, hbound, hrest⟩ := Eval.exists_of_bind_eq_done hrest
      obtain rfl := of_requireBound_eq_done hbound
      obtain ⟨_, _, hclosure, hrest⟩ := Eval.exists_of_bind_eq_done hrest
      cases hclosure
      obtain ⟨_, _, hassign, hrest⟩ := Eval.exists_of_bind_eq_done hrest
      obtain ⟨i, howner, rfl⟩ := of_assign_eq_done hassign
      cases hrest
      exact ⟨name, names, i, by simp, hnames, howner, rfl⟩

theorem bind_eq_done {form : String} {source : Scope}
    (h : bind form source e (.form (.ident "apply") (target :: body)) s = .done (.ok ()) t) :
    ∃ name names, signature s.heap form target = .ok (name, names) ∧
      t = (s.withClosure name (closureOf names body source s)).define e name
        (.function ⟨s.functions.size, name⟩) := by
  have happly : isApply (.form (.ident "apply") (target :: body)) = true := rfl
  unfold bind at h
  rw [happly] at h
  obtain ⟨⟨name, names⟩, u, hdecode, hrest⟩ := Eval.exists_of_bind_eq_done h
  obtain ⟨hnames, rfl⟩ := Eval.of_decode_eq_done hdecode
  cases hrest
  exact ⟨name, names, hnames, rfl⟩

end Form

theorem State.names_define {s : State} {e : Scope} (he : e.frame < s.scopes.frames.size)
    (name : String) (c : Closure) :
    ((s.withClosure name c).define e name (.function ⟨s.functions.size, name⟩)).Names e name c := by
  have hframe : e.frame < (s.withClosure name c).scopes.frames.size := by
    simp only [State.withClosure, State.withFrame, Array.size_push]
    omega
  exact ⟨⟨s.functions.size, name⟩, Scopes.lookup_define hframe name _,
    State.overloads_withClosure rfl List.prefix_rfl⟩

/-- An assigned name has the value. -/
theorem Scopes.lookup_rebind {s : Scopes} {e : Scope} {name : String} {i : Nat}
    (h : s.owner? e name = some i) (v : Value) : (s.rebind i name v).lookup e name = some v := by
  have hbinds := ownerIn?_binds h
  have howner : (s.rebind i name v).ownerIn? name e.chain = some i := by
    rw [← h]
    exact ownerIn?_congr fun j _ => binds_rebind hbinds v j name
  rw [lookup, lookupIn_of_ownerIn? howner, get?_rebind (lt_size_of_binds hbinds), if_pos ⟨rfl, rfl⟩]

theorem State.names_rebind {s : State} {e : Scope} {name : String} {c : Closure} {i : Nat}
    (h : (s.withClosure name c).scopes.owner? e name = some i) :
    State.Names { s.withClosure name c with
      scopes := (s.withClosure name c).scopes.rebind i name (.function ⟨s.functions.size, name⟩) }
      e name c :=
  ⟨⟨s.functions.size, name⟩, Scopes.lookup_rebind h _,
    State.overloads_withClosure rfl List.prefix_rfl⟩

/-- **A printed closure is its own source.**  Let `m` be a node that stands somewhere in a source
text.  The text of a closure that is made of `m` is read as one expression.  Wherever `lambda`
stands for the special form, evaluating this expression makes a closure with the same parameters,
the same name for further arguments and the same body, with reals compared as numbers.  This holds
of

* the closure that a `lambda` form makes;
* the closures that `def` and `set` bind to the name in a function form;
* the closure that a function binding of a `let` or `let*` with a body binds to its name, whatever
  other bindings stand before and after it. -/
theorem printed_closure_is_source {text : String} {ns : List Node} {n m : Node}
    (hread : Node.readAll text = .ok ns) (hn : n ∈ ns) (hm : m.PartOf n) :
    (∀ args e s v t, m = .form (.ident "lambda") args → s.Performs e "lambda" .lambda →
      evalNode m e s = .done (.ok v) t →
      ∃ f c, v = .function f ∧ t.overloads f = .single (.ofClosure "lambda" c) ∧ c.OwnSource) ∧
    (∀ target body e s v t, m = .form (.ident "def") (target :: body) → target.isAtom = false →
      s.Performs e "def" .define → e.frame < s.scopes.frames.size →
      evalNode m e s = .done (.ok v) t →
      ∃ name names, Form.signature s.heap "def" target = .ok (name, names) ∧
        t.Names e name (Form.closureOf names body e s) ∧
        (Form.closureOf names body e s).OwnSource) ∧
    (∀ target body e s v t, m = .form (.ident "set") (target :: body) → target.isAtom = false →
      s.Performs e "set" .assign → evalNode m e s = .done (.ok v) t →
      ∃ name names, Form.signature s.heap "set" target = .ok (name, names) ∧
        t.Names e name (Form.closureOf names body e s) ∧
        (Form.closureOf names body e s).OwnSource) ∧
    ∀ form as target body bs rest,
      let b : Node := .form (.ident "apply") (target :: body)
      m = .form (.ident form) (.form (.ident "apply") (as ++ b :: bs) :: rest) → body ≠ [] →
      (∀ e s,
        let inner := (s.onScopes (·.newChild e)).1
        let s' := (s.onScopes (·.newChild e)).2
        Form.letParallel m.children e s = (do
          Form.bindAll "let" e inner as
          Form.bind "let" e inner b
          Form.bindAll "let" e inner bs
          Form.evalFresh rest inner : Eval Value) s' ∧
        Form.letSequential m.children e s = (do
          Form.bindAll "let*" inner inner as
          Form.bind "let*" inner inner b
          Form.bindAll "let*" inner inner bs
          Form.evalFresh rest inner : Eval Value) s') ∧
      ∀ source inner s t, inner.frame < s.scopes.frames.size →
        Form.bind form source inner b s = .done (.ok ()) t →
        ∃ name names, Form.signature s.heap form target = .ok (name, names) ∧
          t.Names inner name (Form.closureOf names body source s) ∧
          (Form.closureOf names body source s).OwnSource := by
  have hreadable : m.Readable := hm.readable (Node.readable_of_readAll hread n hn)
  refine ⟨?_, ?_, ?_, ?_⟩
  · rintro args e s v t rfl hlambda heval
    rw [hlambda.evalNode] at heval
    obtain ⟨u, hrun, rfl⟩ := Eval.of_nested_eq_done heval
    obtain ⟨target, body, names, rfl, hne, hnames, rfl, rfl⟩ := Form.lambda_eq_done hrun
    obtain ⟨htarget, hbody⟩ := List.forall_mem_cons.mp hreadable.children
    exact ⟨_, _, rfl, State.overloads_withClosure rfl List.prefix_rfl,
      Form.ownSource_closureOf (Form.readable_lambdaParams htarget hnames) hbody hne _ _⟩
  · rintro target body e s v t rfl hform hdef hframe heval
    rw [hdef.evalNode] at heval
    obtain ⟨u, hrun, rfl⟩ := Eval.of_nested_eq_done heval
    obtain ⟨name, names, hne, hnames, rfl⟩ := Form.define_eq_done hform hrun
    exact ⟨name, names, hnames,
      State.names_define (s := { s with depth := s.depth + 1 }) hframe name _,
      Form.ownSource_signature hreadable.children hnames hne _ _⟩
  · rintro target body e s v t rfl hform hset heval
    rw [hset.evalNode] at heval
    obtain ⟨u, hrun, rfl⟩ := Eval.of_nested_eq_done heval
    obtain ⟨name, names, i, hne, hnames, howner, rfl⟩ := Form.set_eq_done hform hrun
    exact ⟨name, names, hnames, State.names_rebind howner,
      Form.ownSource_signature hreadable.children hnames hne _ _⟩
  · rintro form as target body bs rest b rfl hne
    constructor
    · intro e s inner s'
      have hbindings (form : String) : Eval.decode
          (Form.letBindings · form (.form (.ident "apply") (as ++ b :: bs))) s' =
          .done (.ok (as ++ b :: bs)) s' := rfl
      have hchild : Eval.newChild e s = .done (.ok inner) s' := rfl
      constructor
      · rw [← Form.bindAll_middle]
        exact (Eval.bind_ok hchild).trans (Eval.bind_ok (hbindings "let"))
      · rw [← Form.bindAll_middle]
        exact (Eval.bind_ok hchild).trans (Eval.bind_ok (hbindings "let*"))
    · intro source inner s t hframe hbind
      obtain ⟨name, names, hnames, rfl⟩ := Form.bind_eq_done hbind
      obtain ⟨hbindings, -⟩ := List.forall_mem_cons.mp hreadable.children
      have hb : b.Readable := hbindings.children b (List.mem_append_right _ List.mem_cons_self)
      exact ⟨name, names, hnames, State.names_define hframe name _,
        Form.ownSource_signature hb.children hnames hne _ _⟩

/-- A function that takes any number of arguments, with a name too many in its parameter list. -/
theorem printed_closure_is_source_rest_only :
    let s : State := {
      scopes := ⟨#[[("lambda", .function ⟨0, "lambda"⟩)]]⟩
      functions := #[.single (.ofSpecial "lambda" .lambda)] }
    let body : Node := .form (.ident "+") [.atom (.ident "r"), .atom (.real ⟨150, 2⟩)]
    let m : Node := .form (.ident "lambda")
      [.form (.ident ".") [.atom (.ident "r"), .atom (.ident "x")], body]
    Node.readAll "(list (lambda (. r x) (+ r 1.50)))" = .ok [.form (.ident "list") [m]] ∧
      ∃ f t c, evalNode m ⟨0, []⟩ s = .done (.ok (.function f)) t ∧
        t.overloads f = .single (.ofClosure "lambda" c) ∧ c.params = [] ∧ c.rest = some "r" ∧
        c.print default = "(lambda ( . r) (+ r 1.5))" ∧ c.OwnSource := by
  intro s body m
  have hread : Node.readAll "(list (lambda (. r x) (+ r 1.50)))" =
      .ok [.form (.ident "list") [m]] := rfl
  have hpart : m.PartOf (.form (.ident "list") [m]) := .child List.mem_cons_self (.refl m)
  have hlambda : s.Performs ⟨0, []⟩ "lambda" .lambda := ⟨⟨0, "lambda"⟩, rfl, rfl⟩
  let c : Closure := ⟨[], some "r", [body], ⟨1, [0]⟩⟩
  have heval : evalNode m ⟨0, []⟩ s =
      .done (.ok (.function ⟨1, "lambda"⟩)) (s.withClosure "lambda" c) := rfl
  obtain ⟨hsource, -⟩ := printed_closure_is_source hread List.mem_cons_self hpart
  obtain ⟨f, c', hf, hset, hown⟩ := hsource _ _ s _ _ rfl hlambda heval
  cases hf
  have hset' : (s.withClosure "lambda" c).overloads ⟨1, "lambda"⟩ =
      .single (.ofClosure "lambda" c) := rfl
  obtain rfl : c = c' := by
    have hentries := hset'.symm.trans hset
    simp only [Overloads.single, Entry.ofClosure, Overloads.mk.injEq, List.cons.injEq,
      Entry.mk.injEq, Body.closure.injEq] at hentries
    exact hentries.2.1.2.2.2
  exact ⟨hread, ⟨1, "lambda"⟩, _, c, heval, hset, rfl, rfl, by decide +kernel, hown⟩

end DispatchLisp
