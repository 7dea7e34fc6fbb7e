import DispatchLisp.Proofs.RoundTrip
import Mathlib.Data.List.Basic

/-! # The grammar of source texts

Which sequences of tokens can be read, and what is reported of the others, without reference to how
the reader works.

* `net` counts opening minus closing parentheses.  Tokens are `Balanced` if no prefix closes more
  lists than it opens and all lists are closed; they are `Quoting` if something that can be quoted
  follows every quote mark.  Exactly the balanced and quoting sequences can be read.
* `Fault` says what is reported otherwise: the first closing parenthesis that is `Stray`; if there
  is none, a quote mark at the end; if there is none either, the innermost list that is `Unclosed`.

The reader's stack is related to the tokens read so far by `Follows`: its lists are those that are
still open, and a quote mark is on top exactly if it was the last token.  One token keeps the
relation unless it is stray (`Follows.feed`), and so do all tokens (`exists_follows`). -/

namespace DispatchLisp.Node

/-! ### Counting parentheses -/

/-- The number of opening minus the number of closing parentheses. -/
def net (ts : List Placed) : Int :=
  ts.countP (·.token == .opening) - ts.countP (·.token == .closing)

@[simp] theorem net_nil : net [] = 0 := rfl

@[simp] theorem net_append (ts us : List Placed) : net (ts ++ us) = net ts + net us := by
  simp only [net, List.countP_append]
  omega

theorem net_cons (t : Placed) (ts : List Placed) : net (t :: ts) = net [t] + net ts :=
  net_append [t] ts

theorem net_opening {t : Placed} (h : t.token = .opening) : net [t] = 1 := by
  simp [net, h]

theorem net_closing {t : Placed} (h : t.token = .closing) : net [t] = -1 := by
  simp [net, h]

theorem net_quote {t : Placed} (h : t.token = .quote) : net [t] = 0 := by
  simp [net, h]

theorem net_atom {t : Placed} {v : Value} (h : t.token = .atom v) : net [t] = 0 := by
  simp [net, h]

/-- No prefix closes more lists than it opens. -/
def Proper (ts : List Placed) : Prop := ∀ before, before <+: ts → 0 ≤ net before

theorem proper_nil : Proper [] := by
  intro before h
  rw [List.prefix_nil.mp h, net_nil]

theorem Proper.net_nonneg {ts : List Placed} (h : Proper ts) : 0 ≤ net ts := h ts List.prefix_rfl

theorem Proper.left {ts us : List Placed} (h : Proper (ts ++ us)) : Proper ts :=
  fun before hbefore => h before (hbefore.trans (List.prefix_append ts us))

theorem proper_concat {ts : List Placed} {t : Placed} :
    Proper (ts ++ [t]) ↔ Proper ts ∧ 0 ≤ net (ts ++ [t]) := by
  refine ⟨fun h => ⟨h.left, h.net_nonneg⟩, fun ⟨hts, hall⟩ before hbefore => ?_⟩
  rcases List.prefix_concat_iff.mp hbefore with rfl | hbefore
  · exact hall
  · exact hts before hbefore

/-- The opening parenthesis `t`, which `after` follows, is never closed. -/
def Unclosed (ts : List Placed) (t : Placed) (after : List Placed) : Prop :=
  ∃ before, ts = before ++ t :: after ∧ t.token = .opening ∧ Proper after

/-- No prefix closes more lists than it opens, and in the end all lists are closed. -/
structure Balanced (ts : List Placed) : Prop where
  proper : Proper ts
  settled : net ts = 0

/-- In balanced tokens every list is closed. -/
theorem Balanced.not_unclosed {ts : List Placed} (h : Balanced ts) (t : Placed)
    (after : List Placed) : ¬ Unclosed ts t after := by
  rintro ⟨before, rfl, ht, hafter⟩
  have hbefore : 0 ≤ net before := h.proper.left.net_nonneg
  have hrest : 0 ≤ net after := hafter.net_nonneg
  have hall := h.settled
  rw [net_append, net_cons, net_opening ht] at hall
  omega

/-! ### Faults -/

/-- The last of the tokens is a quote mark, at the given place. -/
def EndsInQuote (ts : List Placed) (place : Position) : Prop := ts.getLast? = some ⟨.quote, place⟩

/-- Something that can be quoted follows every quote mark. -/
def Quoting (ts : List Placed) : Prop :=
  ∀ before q after, ts = before ++ q :: after → q.token = .quote →
    ∃ t rest, after = t :: rest ∧ t.token ≠ .closing

/-- The token `t` after the tokens `before` is a closing parenthesis that closes no list, or that
stands where something quoted should stand. -/
def Stray (before : List Placed) (t : Placed) : Prop :=
  t.token = .closing ∧ (net (before ++ [t]) < 0 ∨ ∃ place, EndsInQuote before place)

/-- No closing parenthesis is stray. -/
def Clean (ts : List Placed) : Prop :=
  ∀ before t after, ts = before ++ t :: after → ¬ Stray before t

/-- What is wrong with the tokens. -/
inductive Fault (ts : List Placed) : Cause → Prop
  /-- The first stray parenthesis. -/
  | close {before : List Placed} {t : Placed} {after : List Placed}
      (split : ts = before ++ t :: after) (stray : Stray before t) (first : Clean before) :
      Fault ts (.read .unexpectedClose t.place)
  /-- A quote mark at the end. -/
  | quote {place : Position} (clean : Clean ts) (last : EndsInQuote ts place) :
      Fault ts (.read .unexpectedEnd place)
  /-- The innermost list that is not closed. -/
  | list {t : Placed} {after : List Placed} (clean : Clean ts)
      (last : ∀ place, ¬ EndsInQuote ts place) (unclosed : Unclosed ts t after)
      (innermost : ∀ u rest, ¬ Unclosed after u rest) : Fault ts (.read .unterminatedList t.place)

theorem clean_nil : Clean [] := by
  intro before t after h
  simp at h

theorem clean_concat {ts : List Placed} {t : Placed} :
    Clean (ts ++ [t]) ↔ Clean ts ∧ ¬ Stray ts t := by
  refine ⟨fun h => ⟨fun before u after heq => ?_, h ts t [] rfl⟩, fun ⟨hts, ht⟩ => ?_⟩
  · refine h before u (after ++ [t]) ?_
    rw [heq, List.append_assoc, List.cons_append]
  · intro before u after heq
    rcases List.eq_nil_or_concat after with rfl | ⟨after, v, rfl⟩
    · obtain ⟨rfl, hlast⟩ := List.append_inj' heq rfl
      obtain ⟨rfl, -⟩ := List.cons.inj hlast
      exact ht
    · have hsplit : ts ++ [t] = before ++ u :: after ++ [v] := by simpa using heq
      exact hts before u after (List.append_inj' hsplit rfl).1

/-- If something is stray, then something is the first to be so. -/
theorem exists_first_stray {ts : List Placed} (h : ¬ Clean ts) :
    ∃ before t after, ts = before ++ t :: after ∧ Stray before t ∧ Clean before := by
  induction ts using List.reverseRecOn with
  | nil => exact absurd clean_nil h
  | append_singleton ts t ih =>
      by_cases hts : Clean ts
      · by_cases ht : Stray ts t
        · exact ⟨ts, t, [], rfl, ht, hts⟩
        · exact absurd (clean_concat.mpr ⟨hts, ht⟩) h
      · obtain ⟨before, u, after, rfl, hu, hbefore⟩ := ih hts
        exact ⟨before, u, after ++ [t], by simp, hu, hbefore⟩

theorem Clean.proper {ts : List Placed} (h : Clean ts) : Proper ts := by
  induction ts using List.reverseRecOn with
  | nil => exact proper_nil
  | append_singleton ts t ih =>
      obtain ⟨hts, ht⟩ := clean_concat.mp h
      have hproper := ih hts
      have hnonneg := hproper.net_nonneg
      refine proper_concat.mpr ⟨hproper, ?_⟩
      cases htoken : t.token with
      | closing => exact not_lt.mp fun hneg => ht ⟨htoken, .inl hneg⟩
      | opening =>
          rw [net_append, net_opening htoken]
          omega
      | quote =>
          rw [net_append, net_quote htoken]
          omega
      | atom v =>
          rw [net_append, net_atom htoken]
          omega

/-! ### The stack of the reader -/

/-- What is open after the tokens, unless one of them is refused. -/
def stackAfter : List Placed → List Open → Except Cause (List Open)
  | [], stack => .ok stack
  | t :: ts, stack => (feed t stack).bind fun next => stackAfter ts next.1

theorem stackAfter_append (ts us : List Placed) (stack : List Open) :
    stackAfter (ts ++ us) stack = (stackAfter ts stack).bind (stackAfter us) := by
  induction ts generalizing stack with
  | nil => rfl
  | cons t ts ih =>
      simp only [List.cons_append, stackAfter]
      cases feed t stack with
      | error c => rfl
      | ok next => exact ih next.1

/-- Whether tokens can be read, and what is reported if they cannot, depends on the stack only. -/
theorem ofTokens_verdict (ts : List Placed) (stack : List Open) :
    (ofTokens ts stack).map (fun _ => ()) =
      (stackAfter ts stack).bind fun outer =>
        match endFault? outer with
        | none => .ok ()
        | some c => .error c := by
  induction ts generalizing stack with
  | nil =>
      simp only [ofTokens, stackAfter, Except.bind]
      cases endFault? stack <;> rfl
  | cons t ts ih =>
      simp only [ofTokens, stackAfter]
      rcases feed t stack with c | ⟨outer, _ | n⟩
      · rfl
      · exact ih outer
      · have hsame : ((ofTokens ts outer).map (n :: ·)).map (fun _ => ()) =
            (ofTokens ts outer).map fun _ => () := by
          cases ofTokens ts outer <;> rfl
        exact hsame.trans (ih outer)

/-- The places of the lists that are open, innermost first. -/
def listPlaces (stack : List Open) : List Position :=
  stack.filterMap fun
    | .list place _ => some place
    | .quote _ => none

theorem listPlaces_list (place : Position) (items : List Node) (stack : List Open) :
    listPlaces (.list place items :: stack) = place :: listPlaces stack := rfl

theorem listPlaces_quote (place : Position) (stack : List Open) :
    listPlaces (.quote place :: stack) = listPlaces stack := rfl

theorem listPlaces_complete (n : Node) (stack : List Open) :
    listPlaces (complete n stack).1 = listPlaces stack := by
  fun_induction complete n stack with
  | case1 => rfl
  | case2 n place stack ih => exact ih
  | case3 => rfl

/-- A complete expression leaves no quote mark waiting. -/
theorem head?_complete (n : Node) (stack : List Open) (place : Position) :
    (complete n stack).1.head? ≠ some (.quote place) := by
  fun_induction complete n stack with
  | case1 => simp
  | case2 n place stack ih => exact ih
  | case3 => simp

/-- The stack after reading the tokens: which lists are open, and whether a quote mark is on top.
The list at depth `k` was opened by a parenthesis after which `k` more lists were left open. -/
structure Follows (ts : List Placed) (stack : List Open) : Prop where
  opened : ∀ (k : Nat) (place : Position), (listPlaces stack)[k]? = some place →
    ∃ t after, Unclosed ts t after ∧ t.place = place ∧ net after = k
  depth : net ts = (listPlaces stack).length
  quote : ∀ place, stack.head? = some (.quote place) ↔ EndsInQuote ts place

theorem follows_nil : Follows [] [] where
  opened k place h := by simp [listPlaces] at h
  depth := rfl
  quote place := by simp [EndsInQuote]

theorem endsInQuote_concat {ts : List Placed} {t : Placed} {place : Position} :
    EndsInQuote (ts ++ [t]) place ↔ t.token = .quote ∧ t.place = place := by
  obtain ⟨token, p⟩ := t
  simp [EndsInQuote]

/-- A list stays open as long as no more lists are closed than were opened in it. -/
theorem Unclosed.concat {ts after : List Placed} {t : Placed} (h : Unclosed ts t after) {u : Placed}
    (hnet : 0 ≤ net (after ++ [u])) : Unclosed (ts ++ [u]) t (after ++ [u]) := by
  obtain ⟨before, rfl, ht, hafter⟩ := h
  exact ⟨before, by simp, ht, proper_concat.mpr ⟨hafter, hnet⟩⟩

namespace Follows

variable {ts : List Placed} {stack : List Open} {t : Placed}

/-- A token that opens and closes no list. -/
theorem neutral (h : Follows ts stack) {next : List Open} (hnet : net [t] = 0)
    (hplaces : listPlaces next = listPlaces stack)
    (hquote : ∀ place, next.head? = some (.quote place) ↔ t.token = .quote ∧ t.place = place) :
    Follows (ts ++ [t]) next where
  opened k place hk := by
    rw [hplaces] at hk
    obtain ⟨u, after, hu, hplace, hafter⟩ := h.opened k place hk
    have hsame : net (after ++ [t]) = k := by
      rw [net_append, hnet, hafter]
      omega
    exact ⟨u, after ++ [t], hu.concat (by omega), hplace, hsame⟩
  depth := by
    rw [net_append, hnet, h.depth, hplaces]
    omega
  quote place := by rw [hquote place, endsInQuote_concat]

theorem opening (h : Follows ts stack) (ht : t.token = .opening) :
    Follows (ts ++ [t]) (.list t.place [] :: stack) where
  opened k place hk := by
    rw [listPlaces_list] at hk
    cases k with
    | zero =>
        obtain rfl := Option.some.inj hk
        exact ⟨t, [], ⟨ts, rfl, ht, proper_nil⟩, rfl, rfl⟩
    | succ k =>
        obtain ⟨u, after, hu, hplace, hafter⟩ := h.opened k place hk
        have hmore : net (after ++ [t]) = (k + 1 : Nat) := by
          rw [net_append, net_opening ht, hafter]
          rfl
        exact ⟨u, after ++ [t], hu.concat (by omega), hplace, hmore⟩
  depth := by
    rw [net_append, net_opening ht, h.depth, listPlaces_list, List.length_cons]
    rfl
  quote place := by
    rw [endsInQuote_concat, ht]
    simp

theorem closing {place : Position} {items : List Node} {outer : List Open}
    (h : Follows ts (.list place items :: outer)) (ht : t.token = .closing) (n : Node) :
    Follows (ts ++ [t]) (complete n outer).1 where
  opened k p hk := by
    rw [listPlaces_complete] at hk
    have hk' : (listPlaces (.list place items :: outer))[k + 1]? = some p := hk
    obtain ⟨u, after, hu, hplace, hafter⟩ := h.opened (k + 1) p hk'
    have hless : net (after ++ [t]) = k := by
      rw [net_append, net_closing ht, hafter]
      omega
    exact ⟨u, after ++ [t], hu.concat (by omega), hplace, hless⟩
  depth := by
    have hdepth := h.depth
    rw [listPlaces_list, List.length_cons] at hdepth
    rw [net_append, net_closing ht, hdepth, listPlaces_complete]
    omega
  quote p := by
    rw [endsInQuote_concat, ht]
    exact iff_of_false (head?_complete n outer p) (by simp)

/-- A stray parenthesis is refused. -/
theorem feed_stray (h : Follows ts stack) (ht : Stray ts t) :
    feed t stack = .error (.read .unexpectedClose t.place) := by
  obtain ⟨htoken, hstray⟩ := ht
  simp only [feed, htoken]
  cases stack with
  | nil => rfl
  | cons first outer =>
      cases first with
      | quote place => rfl
      | list place items =>
          exfalso
          rcases hstray with hneg | ⟨p, hquote⟩
          · have hdepth := h.depth
            rw [listPlaces_list, List.length_cons] at hdepth
            rw [net_append, net_closing htoken, hdepth] at hneg
            omega
          · have htop := (h.quote p).mpr hquote
            simp at htop

/-- **One token.**  Every other token is taken, and the stack follows. -/
theorem feed (h : Follows ts stack) (ht : ¬ Stray ts t) :
    ∃ next, Node.feed t stack = .ok next ∧ Follows (ts ++ [t]) next.1 := by
  obtain ⟨token, place⟩ := t
  cases token with
  | opening => exact ⟨_, rfl, h.opening rfl⟩
  | quote =>
      refine ⟨_, rfl, h.neutral (net_quote rfl) (listPlaces_quote place stack) fun p => ?_⟩
      simp
  | atom v =>
      refine ⟨_, rfl, h.neutral (net_atom rfl) (listPlaces_complete _ stack) fun p => ?_⟩
      exact iff_of_false (head?_complete _ stack p) (by simp)
  | closing =>
      cases stack with
      | nil =>
          refine absurd ⟨rfl, .inl ?_⟩ ht
          rw [net_append, net_closing rfl, h.depth]
          decide
      | cons first outer =>
          cases first with
          | quote p => exact absurd ⟨rfl, .inr ⟨p, (h.quote p).mp rfl⟩⟩ ht
          | list p items => exact ⟨_, rfl, h.closing rfl _⟩

end Follows

/-- **All tokens.**  If nothing is stray, all tokens are taken. -/
theorem exists_follows {ts : List Placed} (h : Clean ts) :
    ∃ stack, stackAfter ts [] = .ok stack ∧ Follows ts stack := by
  induction ts using List.reverseRecOn with
  | nil => exact ⟨[], rfl, follows_nil⟩
  | append_singleton ts t ih =>
      obtain ⟨hts, ht⟩ := clean_concat.mp h
      obtain ⟨stack, hstack, hfollows⟩ := ih hts
      obtain ⟨next, hnext, hfollows'⟩ := hfollows.feed ht
      refine ⟨next.1, ?_, hfollows'⟩
      simp only [stackAfter_append, hstack, Except.bind, stackAfter, hnext]

/-! ### What is reported -/

section

variable {ts : List Placed}

theorem ofTokens_of_stray {before : List Placed} {t : Placed} (hbefore : Clean before)
    (ht : Stray before t) (after : List Placed) :
    ofTokens (before ++ t :: after) [] = .error (.read .unexpectedClose t.place) := by
  obtain ⟨stack, hstack, hfollows⟩ := exists_follows hbefore
  apply eq_error_of_map (f := fun _ => ())
  rw [ofTokens_verdict, stackAfter_append, hstack]
  simp only [Except.bind, stackAfter, hfollows.feed_stray ht]

theorem ofTokens_of_endFault {stack : List Open} (hstack : stackAfter ts [] = .ok stack) {c : Cause}
    (hc : endFault? stack = some c) : ofTokens ts [] = .error c := by
  apply eq_error_of_map (f := fun _ => ())
  simp only [ofTokens_verdict, hstack, Except.bind, hc]

theorem ofTokens_of_empty (hstack : stackAfter ts [] = .ok []) : ∃ ns, ofTokens ts [] = .ok ns := by
  have hverdict := ofTokens_verdict ts []
  simp only [hstack, Except.bind, endFault?] at hverdict
  obtain ⟨ns, hns, -⟩ := eq_ok_of_map hverdict
  exact ⟨ns, hns⟩

/-- The list on top of the stack is the innermost one that is not closed. -/
theorem Follows.innermost {place : Position} {items : List Node} {outer : List Open}
    (h : Follows ts (.list place items :: outer)) :
    ∃ t after, Unclosed ts t after ∧ t.place = place ∧ Balanced after := by
  obtain ⟨t, after, ht, hplace, hnet⟩ := h.opened 0 place rfl
  obtain ⟨-, -, -, hproper⟩ := id ht
  exact ⟨t, after, ht, hplace, hproper, hnet⟩

theorem Follows.not_endsInQuote {place : Position} {items : List Node} {outer : List Open}
    (h : Follows ts (.list place items :: outer)) (p : Position) : ¬ EndsInQuote ts p := by
  intro hp
  have htop := (h.quote p).mpr hp
  simp at htop

/-- There is one innermost list. -/
theorem Unclosed.place_eq {t u : Placed} {after rest : List Placed} (ht : Unclosed ts t after)
    (hafter : ∀ v others, ¬ Unclosed after v others) (hu : Unclosed ts u rest)
    (hrest : ∀ v others, ¬ Unclosed rest v others) : t.place = u.place := by
  obtain ⟨before, rfl, htoken, htproper⟩ := ht
  obtain ⟨before', heq, hutoken, huproper⟩ := hu
  rcases List.append_eq_append_iff.mp heq with ⟨mid, -, hmid⟩ | ⟨mid, -, hmid⟩
  · cases mid with
    | nil => rw [(List.cons.inj hmid).1]
    | cons v mid =>
        obtain ⟨-, rfl⟩ := List.cons.inj hmid
        exact absurd ⟨mid, rfl, hutoken, huproper⟩ (hafter u rest)
  · cases mid with
    | nil => rw [(List.cons.inj hmid).1]
    | cons v mid =>
        obtain ⟨-, rfl⟩ := List.cons.inj hmid
        exact absurd ⟨mid, rfl, htoken, htproper⟩ (hrest t after)

/-- Each fault is reported. -/
theorem Fault.reported {c : Cause} (h : Fault ts c) : ofTokens ts [] = .error c := by
  cases h with
  | close split stray first =>
      rw [split]
      exact ofTokens_of_stray first stray _
  | @quote place clean last =>
      obtain ⟨stack, hstack, hfollows⟩ := exists_follows clean
      obtain ⟨rest, rfl⟩ := List.head?_eq_some_iff.mp ((hfollows.quote place).mpr last)
      exact ofTokens_of_endFault hstack rfl
  | @list t after clean last unclosed innermost =>
      obtain ⟨stack, hstack, hfollows⟩ := exists_follows clean
      obtain ⟨before, hsplit, htoken, hproper⟩ := id unclosed
      have hpositive : 0 < net ts := by
        have hbefore : 0 ≤ net before := (hsplit ▸ clean.proper).left.net_nonneg
        have hafter : 0 ≤ net after := hproper.net_nonneg
        rw [hsplit, net_append, net_cons, net_opening htoken]
        omega
      cases stack with
      | nil =>
          rw [hfollows.depth] at hpositive
          simp [listPlaces] at hpositive
      | cons first outer =>
          cases first with
          | quote p => exact absurd ((hfollows.quote p).mp rfl) (last p)
          | list p items =>
              obtain ⟨u, rest, hu, rfl, hbalanced⟩ := hfollows.innermost
              rw [unclosed.place_eq innermost hu hbalanced.not_unclosed]
              exact ofTokens_of_endFault hstack rfl

/-- The tokens can be read, or there is a fault. -/
theorem clean_or_fault (ts : List Placed) :
    (Clean ts ∧ net ts = 0 ∧ (∀ place, ¬ EndsInQuote ts place) ∧ ∃ ns, ofTokens ts [] = .ok ns) ∨
      ∃ c, Fault ts c := by
  by_cases hclean : Clean ts
  · obtain ⟨stack, hstack, hfollows⟩ := exists_follows hclean
    cases stack with
    | nil =>
        refine .inl ⟨hclean, hfollows.depth, fun place hplace => ?_, ofTokens_of_empty hstack⟩
        have htop := (hfollows.quote place).mpr hplace
        simp at htop
    | cons first outer =>
        cases first with
        | quote place => exact .inr ⟨_, .quote hclean ((hfollows.quote place).mp rfl)⟩
        | list place items =>
            obtain ⟨t, after, ht, rfl, hbalanced⟩ := hfollows.innermost
            exact .inr ⟨_, .list hclean hfollows.not_endsInQuote ht hbalanced.not_unclosed⟩
  · obtain ⟨before, t, after, hsplit, ht, hbefore⟩ := exists_first_stray hclean
    exact .inr ⟨_, .close hsplit ht hbefore⟩

theorem ofTokens_eq_error_iff {c : Cause} : ofTokens ts [] = .error c ↔ Fault ts c := by
  refine ⟨fun h => ?_, Fault.reported⟩
  rcases clean_or_fault ts with ⟨-, -, -, ns, hns⟩ | ⟨c', hc'⟩
  · rw [h] at hns
    cases hns
  · have hreported := hc'.reported
    rw [h] at hreported
    cases hreported
    exact hc'

/-! ### Which tokens can be read -/

theorem Quoting.not_endsInQuote (h : Quoting ts) (place : Position) : ¬ EndsInQuote ts place := by
  intro hlast
  obtain ⟨before, rfl⟩ := List.getLast?_eq_some_iff.mp hlast
  obtain ⟨t, rest, hrest, -⟩ := h before ⟨.quote, place⟩ [] rfl rfl
  cases hrest

theorem Clean.quoting (h : Clean ts) (hlast : ∀ place, ¬ EndsInQuote ts place) : Quoting ts := by
  rintro before ⟨token, place⟩ after hsplit hq
  simp only at hq
  subst hq
  cases after with
  | nil =>
      refine absurd ?_ (hlast place)
      rw [hsplit]
      exact endsInQuote_concat.mpr ⟨rfl, rfl⟩
  | cons t rest =>
      refine ⟨t, rest, rfl, fun ht => ?_⟩
      refine h (before ++ [⟨.quote, place⟩]) t rest (by simp [hsplit]) ⟨ht, .inr ⟨place, ?_⟩⟩
      exact endsInQuote_concat.mpr ⟨rfl, rfl⟩

theorem Balanced.clean (h : Balanced ts) (hquoting : Quoting ts) : Clean ts := by
  rintro before t after rfl ⟨ht, hneg | ⟨place, hplace⟩⟩
  · have hprefix : before ++ [t] <+: before ++ t :: after := ⟨after, by simp⟩
    exact absurd (h.proper _ hprefix) (not_le.mpr hneg)
  · obtain ⟨start, rfl⟩ := List.getLast?_eq_some_iff.mp hplace
    obtain ⟨u, rest, hrest, hu⟩ := hquoting start ⟨.quote, place⟩ (t :: after) (by simp) rfl
    obtain ⟨rfl, -⟩ := List.cons.inj hrest
    exact hu ht

theorem exists_ofTokens_iff : (∃ ns, ofTokens ts [] = .ok ns) ↔ Balanced ts ∧ Quoting ts := by
  refine ⟨fun ⟨ns, hns⟩ => ?_, fun ⟨hbalanced, hquoting⟩ => ?_⟩
  · rcases clean_or_fault ts with ⟨hclean, hnet, hlast, -⟩ | ⟨c, hc⟩
    · exact ⟨⟨hclean.proper, hnet⟩, hclean.quoting hlast⟩
    · rw [hc.reported] at hns
      cases hns
  · obtain ⟨stack, hstack, hfollows⟩ := exists_follows (hbalanced.clean hquoting)
    have hdepth := hfollows.depth
    rw [hbalanced.settled] at hdepth
    cases stack with
    | nil => exact ofTokens_of_empty hstack
    | cons first outer =>
        cases first with
        | quote place =>
            exact absurd ((hfollows.quote place).mp rfl) (hquoting.not_endsInQuote place)
        | list place items =>
            rw [listPlaces_list, List.length_cons] at hdepth
            omega

end

/-! ### Texts -/

/-- **The reader accepts its grammar and points at the first fault.**  Of a text that can be
scanned, all expressions can be read exactly if the tokens are balanced and something follows every
quote mark, and otherwise the reader reports exactly what `Fault` says.  One expression is read
exactly if it is the only one. -/
theorem reads_grammar :
    (∀ text ts, Token.scan text = .ok ts →
      ((∃ ns, readAll text = .ok ns) ↔ Balanced ts ∧ Quoting ts) ∧
      (∀ c, readAll text = .error c ↔ Fault ts c)) ∧
    (ReadFault.unexpectedClose.message = "unexpected ')'" ∧
      ReadFault.unexpectedEnd.message = "unexpected end of input" ∧
      ReadFault.unterminatedList.message = "unterminated list") ∧
    (∀ text n, readOne text = .ok n ↔ readAll text = .ok [n]) := by
  refine ⟨fun text ts hscan => ?_, ⟨rfl, rfl, rfl⟩, fun text n => readOne_eq_ok_iff⟩
  have hread : readAll text = ofTokens ts [] := by simp only [readAll, hscan, Except.bind]
  rw [hread]
  exact ⟨exists_ofTokens_iff, fun c => ofTokens_eq_error_iff⟩

/-- In the first text the quote mark before the last parenthesis is reported, not the list that is
left open; in the second one the inner list is. -/
theorem reads_grammar_faults :
    (∃ ts, Token.scan "(a '(b) ')" = .ok ts ∧
      Fault ts (.read .unexpectedClose ⟨1, 10⟩)) ∧
    (∃ ts, Token.scan "(a '(b\n'c" = .ok ts ∧
      Fault ts (.read .unterminatedList ⟨1, 5⟩)) ∧
    ∃ ts, Token.scan "(a '(b)) ''c" = .ok ts ∧ Balanced ts ∧ Quoting ts := by
  refine ⟨?_, ?_, ?_⟩
  · obtain ⟨ts, hts⟩ : ∃ ts, Token.scan "(a '(b) ')" = .ok ts := ⟨_, rfl⟩
    have hread : readAll "(a '(b) ')" = .error (.read .unexpectedClose ⟨1, 10⟩) := rfl
    exact ⟨ts, hts, ((reads_grammar.1 _ ts hts).2 _).mp hread⟩
  · obtain ⟨ts, hts⟩ : ∃ ts, Token.scan "(a '(b\n'c" = .ok ts := ⟨_, rfl⟩
    have hread : readAll "(a '(b\n'c" = .error (.read .unterminatedList ⟨1, 5⟩) := rfl
    exact ⟨ts, hts, ((reads_grammar.1 _ ts hts).2 _).mp hread⟩
  · obtain ⟨ts, hts⟩ : ∃ ts, Token.scan "(a '(b)) ''c" = .ok ts := ⟨_, rfl⟩
    exact ⟨ts, hts, (reads_grammar.1 _ ts hts).1.mp ⟨_, rfl⟩⟩

end DispatchLisp.Node
