import DispatchLisp.Node.Reader
import DispatchLisp.Proofs.Lexeme

/-! # Printing and reading

The text of a node that was read is read as the same node again.  The argument goes through the
tokens of a node (`Node.tokens`):

* scanning the text of a node gives its tokens (`Node.scans_print`);
* reading the tokens of a node completes exactly this node, whatever is open around it
  (`Node.ofTokens_tokens`);
* a node that was read holds only values that a text can hold (`Node.readable_of_readAll`).

A real may change its number of places on the way, so the node that comes back is `n.reread`, and
it is compared with `n` by `Node.same`, in which reals are equal as numbers. -/

namespace DispatchLisp

/-! ### Scanning token by token -/

namespace Token

/-- The characters are scanned into these tokens, wherever they stand. -/
def Scans (cs : List Char) (tokens : List Token) : Prop :=
  ∀ place, ∃ placed, scanFrom cs 0 place = .ok placed ∧ placed.map Placed.token = tokens

theorem scanFrom_skip (taken rest : List Char) (place : Position) :
    scanFrom (taken ++ rest) taken.length place = scanFrom rest 0 place := by
  induction taken with
  | nil => rfl
  | cons c taken ih => exact ih

theorem scans_nil : Scans [] [] := fun _ => ⟨[], rfl, rfl⟩

theorem Scans.space {cs : List Char} {tokens : List Token} (h : Scans cs tokens) :
    Scans (' ' :: cs) tokens := fun place => h (place.right 1)

theorem Scans.token {c : Char} {rest : List Char} {t : Token} {tokens : List Token}
    (h : Scans rest tokens) (cs : List Char)
    (hlexeme : lexeme c (cs ++ rest) = .ok (some t, cs.length)) :
    Scans (c :: (cs ++ rest)) (t :: tokens) := by
  intro place
  obtain ⟨placed, hplaced, htokens⟩ := h (placeAfter c (cs ++ rest) cs.length place)
  refine ⟨⟨t, place⟩ :: placed, ?_, by rw [List.map_cons, htokens]⟩
  simp only [scanFrom, hlexeme, scanFrom_skip, hplaced]
  rfl

theorem Scans.opening {cs : List Char} {tokens : List Token} (h : Scans cs tokens) :
    Scans ('(' :: cs) (.opening :: tokens) := h.token (c := '(') [] rfl

theorem Scans.closing {cs : List Char} {tokens : List Token} (h : Scans cs tokens) :
    Scans (')' :: cs) (.closing :: tokens) := h.token (c := ')') [] rfl

theorem Scans.value {v : Value} (hv : v.Readable) (h : Heap) {rest : List Char}
    {tokens : List Token} (hrest : Ended rest) (hscans : Scans rest tokens) :
    Scans ((h.print v).toList ++ rest) (.atom v.reread :: tokens) := by
  obtain ⟨c, cs, hprint, hlexeme⟩ := hv.lexeme h hrest
  rw [hprint, List.cons_append]
  exact hscans.token cs hlexeme

/-- The atoms of a text that can be scanned hold values that a text can hold. -/
theorem readable_of_scanFrom {cs : List Char} {skip : Nat} {place : Position} {placed : List Placed}
    (h : scanFrom cs skip place = .ok placed) :
    ∀ t ∈ placed, ∀ v, t.token = .atom v → v.Readable := by
  fun_induction scanFrom cs skip place generalizing placed with
  | case1 => cases h; simp
  | case2 c cs skip place ih => exact ih h
  | case3 => cases h
  | case4 c cs place n hlexeme ih => exact ih h
  | case5 c cs place t n hlexeme ih =>
      obtain ⟨rest, hrest, rfl⟩ := eq_ok_of_map h
      intro u hu v hv
      rcases List.mem_cons.mp hu with rfl | hu
      · simp only at hv
        subst hv
        exact Value.readable_of_lexeme hlexeme
      · exact ih hrest u hu v hv

end Token

namespace Node

open Token

/-! ### The nodes that a text can hold -/

/-- All values of the node can stand in a source text. -/
inductive Readable : Node → Prop
  | atom {v : Value} : v.Readable → Readable (atom v)
  | form {v : Value} {kids : List Node} :
      v.Readable → (∀ n ∈ kids, Readable n) → Readable (form v kids)

mutual

/-- The node that its text stands for: reals have the places that their texts have. -/
def reread : Node → Node
  | atom v => atom v.reread
  | form v kids => form v.reread (rereadAll kids)

/-- `reread` on each node of a list. -/
def rereadAll : List Node → List Node
  | [] => []
  | n :: ns => reread n :: rereadAll ns

end

mutual

/-- The same shape, with the same values; reals are compared as numbers. -/
def same : Node → Node → Bool
  | atom v, atom w => v.same w
  | form v kids, form w others => v.same w && sameAll kids others
  | _, _ => false

/-- `same` of two lists of nodes, node by node. -/
def sameAll : List Node → List Node → Bool
  | [], [] => true
  | n :: ns, m :: ms => same n m && sameAll ns ms
  | _, _ => false

end

mutual

theorem same_reread (n : Node) : n.same n.reread = true := by
  match n with
  | atom v => exact v.same_reread
  | form v kids =>
      simp only [reread, same, v.same_reread, sameAll_rereadAll kids, Bool.and_self]

theorem sameAll_rereadAll (ns : List Node) : sameAll ns (rereadAll ns) = true := by
  match ns with
  | [] => rfl
  | n :: ns =>
      simp only [rereadAll, sameAll, same_reread n, sameAll_rereadAll ns, Bool.and_self]

end

/-! ### Scanning the text of a node -/

mutual

/-- The tokens that the text of a node has. -/
def tokens : Node → List Token
  | atom v => [.atom v]
  | form .nil [] => [.opening, .closing]
  | form v kids => .opening :: .atom v :: (tokensAll kids ++ [.closing])

/-- The tokens of each node of a list, one after the other. -/
def tokensAll : List Node → List Token
  | [] => []
  | n :: ns => tokens n ++ tokensAll ns

end

theorem tokens_form {v : Value} {kids : List Node} (h : ¬(v = .nil ∧ kids = [])) :
    tokens (form v kids) = .opening :: .atom v :: (tokensAll kids ++ [.closing]) :=
  tokens.eq_3 v kids fun hv hkids => h ⟨hv, hkids⟩

theorem print_form (h : Heap) {v : Value} {kids : List Node} (hne : ¬(v = .nil ∧ kids = [])) :
    print h (form v kids) = "(" ++ h.print v ++ printTail h kids ++ ")" :=
  print.eq_3 h v kids fun hv hkids => hne ⟨hv, hkids⟩

theorem reread_eq_nil_iff {v : Value} : v.reread = .nil ↔ v = .nil := by
  cases v <;> simp [Value.reread]

theorem rereadAll_eq_nil_iff {ns : List Node} : rereadAll ns = [] ↔ ns = [] := by
  cases ns <;> simp [rereadAll]

theorem ended_printTail (h : Heap) (ns : List Node) {rest : List Char} (hrest : Ended rest) :
    Ended ((printTail h ns).toList ++ rest) := by
  cases ns with
  | nil => simpa [printTail] using hrest
  | cons n ns => simpa [printTail] using ended_space _

mutual

/-- **The text of a node is scanned into its tokens.** -/
theorem scans_print (h : Heap) (n : Node) (hn : n.Readable) {rest : List Char}
    {after : List Token} (hrest : Ended rest) (hscans : Scans rest after) :
    Scans ((n.print h).toList ++ rest) (n.reread.tokens ++ after) := by
  match n with
  | atom v =>
      obtain ⟨hv⟩ := hn
      exact Scans.value hv h hrest hscans
  | form v kids =>
      obtain _ | ⟨hv, hkids⟩ := hn
      by_cases hempty : v = .nil ∧ kids = []
      · obtain ⟨rfl, rfl⟩ := hempty
        simpa [print, reread, rereadAll, tokens, Value.reread] using hscans.closing.opening
      · have hclosed := hscans.closing
        have htail := scans_printTail h kids hkids (ended_closing rest) hclosed
        have hhead := Scans.value hv h (ended_printTail h kids (ended_closing rest)) htail
        rw [reread, print_form h hempty,
          tokens_form (by rwa [reread_eq_nil_iff, rereadAll_eq_nil_iff])]
        simpa [List.append_assoc] using hhead.opening

theorem scans_printTail (h : Heap) (ns : List Node) (hns : ∀ n ∈ ns, n.Readable)
    {rest : List Char} {after : List Token} (hrest : Ended rest) (hscans : Scans rest after) :
    Scans ((printTail h ns).toList ++ rest) (tokensAll (rereadAll ns) ++ after) := by
  match ns with
  | [] => simpa [printTail, rereadAll, tokensAll] using hscans
  | n :: ns =>
      have hn : n.Readable := hns n List.mem_cons_self
      have htail :=
        scans_printTail h ns (fun m hm => hns m (List.mem_cons_of_mem _ hm)) hrest hscans
      have hhead := scans_print h n hn (ended_printTail h ns hrest) htail
      simpa [printTail, rereadAll, tokensAll, List.append_assoc] using hhead.space

end

/-! ### Reading the tokens of a node -/

/-- Goes on reading after a token, given what is open and what the token completed. -/
def resume : List Open × Option Node → List Placed → Except Cause (List Node)
  | (stack, none), ts => ofTokens ts stack
  | (stack, some n), ts => (ofTokens ts stack).map (n :: ·)

theorem ofTokens_cons {t : Placed} {stack : List Open} {next : List Open × Option Node}
    (h : feed t stack = .ok next) (ts : List Placed) :
    ofTokens (t :: ts) stack = resume next ts := by
  obtain ⟨outer, completed⟩ := next
  cases completed <;> simp only [ofTokens, h, resume]

theorem ofTokens_opening {t : Placed} (ht : t.token = .opening) (ts : List Placed)
    (stack : List Open) : ofTokens (t :: ts) stack = ofTokens ts (.list t.place [] :: stack) := by
  have hfeed : feed t stack = .ok (.list t.place [] :: stack, none) := by simp only [feed, ht]
  exact ofTokens_cons hfeed ts

theorem ofTokens_closing {t : Placed} (ht : t.token = .closing) (ts : List Placed)
    (place : Position) (items : List Node) (stack : List Open) :
    ofTokens (t :: ts) (.list place items :: stack) =
      resume (complete (ofItems items.reverse) stack) ts :=
  ofTokens_cons (by simp only [feed, ht]) ts

theorem ofTokens_atom {t : Placed} {v : Value} (ht : t.token = .atom v) (ts : List Placed)
    (stack : List Open) : ofTokens (t :: ts) stack = resume (complete (atom v) stack) ts :=
  ofTokens_cons (by simp only [feed, ht]) ts

mutual

/-- **Reading the tokens of a node completes this node.** -/
theorem ofTokens_tokens (n : Node) {placed : List Placed} (h : placed.map Placed.token = n.tokens)
    (rest : List Placed) (stack : List Open) :
    ofTokens (placed ++ rest) stack = resume (complete n stack) rest := by
  match n with
  | atom v =>
      obtain ⟨t, ts, rfl, ht, hts⟩ := List.map_eq_cons_iff.mp h
      obtain rfl := List.map_eq_nil_iff.mp hts
      exact ofTokens_atom ht rest stack
  | form v kids =>
      by_cases hempty : v = .nil ∧ kids = []
      · obtain ⟨rfl, rfl⟩ := hempty
        obtain ⟨t, ts, rfl, ht, hts⟩ := List.map_eq_cons_iff.mp h
        obtain ⟨u, us, rfl, hu, hus⟩ := List.map_eq_cons_iff.mp hts
        obtain rfl := List.map_eq_nil_iff.mp hus
        exact (ofTokens_opening ht _ stack).trans (ofTokens_closing hu rest _ [] stack)
      · rw [tokens_form hempty] at h
        obtain ⟨t, ts, rfl, ht, hts⟩ := List.map_eq_cons_iff.mp h
        obtain ⟨u, us, rfl, hu, hus⟩ := List.map_eq_cons_iff.mp hts
        obtain ⟨inner, last, rfl, hinner, hlast⟩ := List.map_eq_append_iff.mp hus
        obtain ⟨w, ws, rfl, hw, hws⟩ := List.map_eq_cons_iff.mp hlast
        obtain rfl := List.map_eq_nil_iff.mp hws
        simp only [List.cons_append, List.append_assoc, List.nil_append]
        rw [ofTokens_opening ht, ofTokens_atom hu]
        simp only [complete, resume]
        rw [ofTokens_tokensAll kids hinner, ofTokens_closing hw, List.reverse_append,
          List.reverse_reverse]
        rfl

theorem ofTokens_tokensAll (ns : List Node) {placed : List Placed}
    (h : placed.map Placed.token = tokensAll ns) (rest : List Placed) (place : Position)
    (items : List Node) (stack : List Open) :
    ofTokens (placed ++ rest) (.list place items :: stack) =
      ofTokens rest (.list place (ns.reverse ++ items) :: stack) := by
  match ns with
  | [] =>
      obtain rfl := List.map_eq_nil_iff.mp h
      rfl
  | n :: ns =>
      obtain ⟨first, others, rfl, hfirst, hothers⟩ := List.map_eq_append_iff.mp h
      rw [List.append_assoc, ofTokens_tokens n hfirst]
      simp only [complete, resume]
      rw [ofTokens_tokensAll ns hothers, List.reverse_cons, List.append_assoc,
        List.singleton_append]

end

theorem ofTokens_eq_ok (ns : List Node) {placed : List Placed}
    (h : placed.map Placed.token = tokensAll ns) : ofTokens placed [] = .ok ns := by
  induction ns generalizing placed with
  | nil =>
      obtain rfl := List.map_eq_nil_iff.mp h
      rfl
  | cons n ns ih =>
      obtain ⟨first, others, rfl, hfirst, hothers⟩ := List.map_eq_append_iff.mp h
      rw [ofTokens_tokens n hfirst]
      simp only [complete, resume, ih hothers, Except.map]

theorem readAll_of_scans {text : String} {ns : List Node} (h : Scans text.toList (tokensAll ns)) :
    readAll text = .ok ns := by
  obtain ⟨placed, hplaced, htokens⟩ := h .start
  simp only [readAll, scan, hplaced, Except.bind]
  exact ofTokens_eq_ok ns htokens

/-! ### Exactly one expression -/

theorem complete_some {n m : Node} {stack outer : List Open}
    (h : complete n stack = (outer, some m)) : outer = [] := by
  fun_induction complete n stack with
  | case1 => cases h; rfl
  | case2 n place stack ih => exact ih h
  | case3 => cases h

theorem complete_none {n : Node} {stack outer : List Open}
    (h : complete n stack = (outer, none)) : outer ≠ [] := by
  fun_induction complete n stack with
  | case1 => cases h
  | case2 n place stack ih => exact ih h
  | case3 => cases h; simp

theorem feed_some {t : Placed} {n : Node} {stack outer : List Open}
    (h : feed t stack = .ok (outer, some n)) : outer = [] := by
  unfold feed at h
  split at h
  · cases h
  · cases h
  · split at h
    · exact complete_some (Except.ok.inj h)
    · cases h
  · exact complete_some (Except.ok.inj h)

theorem feed_none {t : Placed} {stack outer : List Open}
    (h : feed t stack = .ok (outer, none)) : outer ≠ [] := by
  unfold feed at h
  split at h
  · cases h; simp
  · cases h; simp
  · split at h
    · exact complete_none (Except.ok.inj h)
    · cases h
  · exact complete_none (Except.ok.inj h)

theorem endFault?_eq_none {stack : List Open} (h : endFault? stack = none) : stack = [] := by
  cases stack with
  | nil => rfl
  | cons first outer => cases first <;> cases h

/-- Only the end of the text completes no expression with nothing open. -/
theorem ofTokens_eq_nil {ts : List Placed} {stack : List Open} (h : ofTokens ts stack = .ok []) :
    ts = [] ∧ stack = [] := by
  fun_induction ofTokens ts stack with
  | case1 stack hend => exact ⟨rfl, endFault?_eq_none hend⟩
  | case2 => cases h
  | case3 => cases h
  | case4 t ts stack outer hfeed ih => exact absurd (ih h).2 (feed_none hfeed)
  | case5 t ts stack outer n hfeed ih =>
      obtain ⟨ns, -, hns⟩ := eq_ok_of_map h
      cases hns

theorem ofTokensOne_eq_ok_iff {ts : List Placed} {stack : List Open} {n : Node} :
    ofTokensOne ts stack = .ok n ↔ ofTokens ts stack = .ok [n] := by
  induction ts generalizing stack with
  | nil =>
      simp only [ofTokensOne, ofTokens]
      cases endFault? stack <;> simp
  | cons t ts ih =>
      simp only [ofTokensOne, ofTokens]
      rcases hfeed : feed t stack with fault | ⟨outer, _ | m⟩
      · simp
      · exact ih
      · obtain rfl := feed_some hfeed
        cases ts with
        | nil => simp [ofTokens, endFault?, Except.map]
        | cons u us =>
            refine iff_of_false (by simp) ?_
            intro h
            obtain ⟨ms, hms, hcons⟩ := eq_ok_of_map h
            obtain ⟨-, rfl⟩ := List.cons.inj hcons
            cases (ofTokens_eq_nil hms).1

/-- Reading one expression is reading all of them and finding one. -/
theorem readOne_eq_ok_iff {text : String} {n : Node} :
    readOne text = .ok n ↔ readAll text = .ok [n] := by
  unfold readOne readAll
  cases scan text with
  | error fault => simp [Except.bind]
  | ok placed => exact ofTokensOne_eq_ok_iff

/-! ### What was read can be printed -/

theorem readable_ofItems {items : List Node} (h : ∀ n ∈ items, n.Readable) :
    (ofItems items).Readable := by
  cases items with
  | nil => exact .form trivial (by simp)
  | cons first rest =>
      cases first with
      | atom v =>
          obtain ⟨hv⟩ := h (.atom v) List.mem_cons_self
          exact .form hv fun n hn => h n (List.mem_cons_of_mem _ hn)
      | form v kids => exact .form Value.readable_apply h

theorem readable_ofQuoted {n : Node} (h : n.Readable) : (ofQuoted n).Readable :=
  .form Value.readable_quote (by simpa using h)

/-- The items that wait in an open expression. -/
def Open.items : Open → List Node
  | .list _ items => items
  | .quote _ => []

/-- All items that wait in the open expressions are readable. -/
def StackReadable (stack : List Open) : Prop := ∀ o ∈ stack, ∀ n ∈ o.items, n.Readable

theorem stackReadable_cons {o : Open} {stack : List Open} :
    StackReadable (o :: stack) ↔ (∀ n ∈ o.items, n.Readable) ∧ StackReadable stack :=
  List.forall_mem_cons

theorem readable_complete {n : Node} {stack : List Open} (hn : n.Readable)
    (hstack : StackReadable stack) :
    StackReadable (complete n stack).1 ∧ ∀ m, (complete n stack).2 = some m → m.Readable := by
  fun_induction complete n stack with
  | case1 n => exact ⟨hstack, by simpa using hn⟩
  | case2 n place stack ih =>
      exact ih (readable_ofQuoted hn) (stackReadable_cons.mp hstack).2
  | case3 n place items stack =>
      obtain ⟨hitems, houter⟩ := stackReadable_cons.mp hstack
      exact ⟨stackReadable_cons.mpr ⟨List.forall_mem_cons.mpr ⟨hn, hitems⟩, houter⟩, by simp⟩

theorem readable_feed {t : Placed} {stack outer : List Open} {completed : Option Node}
    (ht : ∀ v, t.token = .atom v → v.Readable) (hstack : StackReadable stack)
    (h : feed t stack = .ok (outer, completed)) :
    StackReadable outer ∧ ∀ m, completed = some m → m.Readable := by
  unfold feed at h
  cases htoken : t.token with
  | opening =>
      rw [htoken] at h
      cases h
      exact ⟨stackReadable_cons.mpr ⟨by simp [Open.items], hstack⟩, by simp⟩
  | quote =>
      rw [htoken] at h
      cases h
      exact ⟨stackReadable_cons.mpr ⟨by simp [Open.items], hstack⟩, by simp⟩
  | closing =>
      rw [htoken] at h
      dsimp only at h
      split at h
      · next place items rest =>
        obtain ⟨hitems, hrest⟩ := stackReadable_cons.mp hstack
        have hform : (ofItems items.reverse).Readable :=
          readable_ofItems (by simpa [Open.items] using hitems)
        have hnext := readable_complete hform hrest
        rwa [Except.ok.inj h] at hnext
      · cases h
  | atom v =>
      rw [htoken] at h
      have hnext := readable_complete (.atom (ht v htoken)) hstack
      rwa [Except.ok.inj h] at hnext

theorem readable_ofTokens {ts : List Placed} {stack : List Open} {ns : List Node}
    (hts : ∀ t ∈ ts, ∀ v, t.token = .atom v → v.Readable) (hstack : StackReadable stack)
    (h : ofTokens ts stack = .ok ns) : ∀ n ∈ ns, n.Readable := by
  fun_induction ofTokens ts stack generalizing ns with
  | case1 => cases h; simp
  | case2 => cases h
  | case3 => cases h
  | case4 t ts stack outer hfeed ih =>
      obtain ⟨ht, hts⟩ := List.forall_mem_cons.mp hts
      exact ih hts (readable_feed ht hstack hfeed).1 h
  | case5 t ts stack outer n hfeed ih =>
      obtain ⟨ht, hts⟩ := List.forall_mem_cons.mp hts
      obtain ⟨houter, hn⟩ := readable_feed ht hstack hfeed
      obtain ⟨rest, hrest, rfl⟩ := eq_ok_of_map h
      exact List.forall_mem_cons.mpr ⟨hn n rfl, ih hts houter hrest⟩

/-- What was read holds only values that a text can hold. -/
theorem readable_of_readAll {text : String} {ns : List Node} (h : readAll text = .ok ns) :
    ∀ n ∈ ns, n.Readable := by
  unfold readAll at h
  cases hscan : scan text with
  | error fault =>
      rw [hscan] at h
      cases h
  | ok placed =>
      rw [hscan] at h
      exact readable_ofTokens (readable_of_scanFrom hscan) (by simp [StackReadable]) h

/-! ### The round trip -/

theorem joined_cons (h : Heap) (n : Node) (ns : List Node) :
    " ".intercalate ((n :: ns).map (print h)) = n.print h ++ printTail h ns := by
  induction ns generalizing n with
  | nil => simp [printTail]
  | cons m ns ih =>
      rw [List.map_cons, List.map_cons, String.intercalate_cons_cons, ← List.map_cons, ih m]
      simp only [printTail, String.append_assoc]

theorem scans_joined (h : Heap) {ns : List Node} (hns : ∀ n ∈ ns, n.Readable) :
    Scans (" ".intercalate (ns.map (print h))).toList (tokensAll (rereadAll ns)) := by
  cases ns with
  | nil => exact scans_nil
  | cons n ns =>
      obtain ⟨hn, hns⟩ := List.forall_mem_cons.mp hns
      have htail := scans_printTail h ns hns ended_nil scans_nil
      have hall := scans_print h n hn (ended_printTail h ns ended_nil) htail
      rw [joined_cons, String.toList_append]
      simpa [rereadAll, tokensAll] using hall

theorem readAll_joined (h : Heap) {text : String} {ns : List Node} (hread : readAll text = .ok ns) :
    readAll (" ".intercalate (ns.map (print h))) = .ok (rereadAll ns) :=
  readAll_of_scans (scans_joined h (readable_of_readAll hread))

/-- **Printing undoes reading.**  The text of the one node that was read is read as the same node,
and the texts of all the nodes that were read, with a space between two of them, are read as the
same nodes. -/
theorem read_print_read (h : Heap) :
    (∀ text n, readOne text = .ok n →
      ∃ n', readOne (n.print h) = .ok n' ∧ n.same n' = true) ∧
    (∀ text ns, readAll text = .ok ns →
      ∃ ns', readAll (" ".intercalate (ns.map (print h))) = .ok ns' ∧ sameAll ns ns' = true) := by
  constructor
  · intro text n hread
    have hall := readAll_joined h (readOne_eq_ok_iff.mp hread)
    rw [joined_cons, printTail, String.append_empty] at hall
    exact ⟨n.reread, readOne_eq_ok_iff.mpr hall, same_reread n⟩
  · intro text ns hread
    exact ⟨rereadAll ns, readAll_joined h hread, sameAll_rereadAll ns⟩

theorem read_print_read_quoted_call :
    (∃ n n', readOne "('((f) 1.50) \"a\\n\" #xf)" = .ok n ∧
      n.print default = "(apply (quote (apply (f) 1.5)) \"a\\n\" #x0f)" ∧
      readOne (n.print default) = .ok n' ∧ n.same n' = true) ∧
    ∃ ns ns', readAll "(nil) ; none\n 'nil" = .ok ns ∧
      " ".intercalate (ns.map (print default)) = "() (quote nil)" ∧
      readAll (" ".intercalate (ns.map (print default))) = .ok ns' ∧ sameAll ns ns' = true := by
  constructor
  · have hread : (readOne "('((f) 1.50) \"a\\n\" #xf)").map (print default) =
        .ok "(apply (quote (apply (f) 1.5)) \"a\\n\" #x0f)" := by decide +kernel
    obtain ⟨n, hn, hprint⟩ := eq_ok_of_map hread
    obtain ⟨n', hn', hsame⟩ := (read_print_read default).1 _ n hn
    exact ⟨n, n', hn, hprint, hn', hsame⟩
  · have hread : (readAll "(nil) ; none\n 'nil").map
        (fun ns => " ".intercalate (ns.map (print default))) = .ok "() (quote nil)" := by
      decide +kernel
    obtain ⟨ns, hns, hprint⟩ := eq_ok_of_map hread
    obtain ⟨ns', hns', hsame⟩ := (read_print_read default).2 _ ns hns
    exact ⟨ns, ns', hns, hprint, hns', hsame⟩

end Node

end DispatchLisp
