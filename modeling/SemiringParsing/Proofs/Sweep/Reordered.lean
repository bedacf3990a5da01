import SemiringParsing.Proofs.Chart.Represented
import SemiringParsing.Proofs.Grammar.Reordered
import SemiringParsing.Proofs.Sweep.ForwardValues
import SemiringParsing.Proofs.Sweep.Online

/-!
# Charts of grammars whose rules are in another order

In another order the rules are predicted in another order, so that the states of a chart have other
numbers and contributions are passed on in another order. No step of one parse answers to a step of
the other. But what a finished chart holds is fixed by conditions in which no order occurs.

* Its states are all that something leads to (`hasState_of_reorders`), and its links are all that
  do (`exists_named_eq`).
* Its inner scores satisfy a recurrence that has one solution (`value_eq_mul_of_reorders`).
* Its forward scores satisfy one too, given what is predicted at each position. That comes from
  states which began before it, so that positions are compared from left to right
  (`forward_eq_mul_of_reorders`).

The two parses may weigh tokens differently. Scores are compared where one gives each token the
weight that it has in the other, times a factor.
-/

namespace SemiringParsing

variable {π α τ : Type}

/-! ## Charts with the same states -/

namespace Chart

/-- The state with a number. -/
def state? (c : Chart π α) (id : StateId) : Option (State π) :=
  (c.record? id).map Record.state

/-- The states that a link names. -/
def named (c : Chart π α) (link : Link) : Option (State π) × Option (Option (State π)) :=
  (c.state? link.predecessor, link.completed?.map c.state?)

theorem state?_eq {c : Chart π α} {id : StateId} {r : Record π α} (hr : c.record? id = some r) :
    c.state? id = some r.state := by
  rw [state?, hr, Option.map_some]

/-- Of two charts that have the same states, the numbers of states with a property are as many. -/
theorem length_select_le {c c' : Chart π α} (hc : c.Indexed) (hc' : c'.Indexed)
    (hstates : ∀ s, c.HasState s → c'.HasState s) (p : State π → Bool) :
    (c.select p).length ≤ (c'.select p).length := by
  -- A number goes to that of the same state.
  let other (id : StateId) : StateId := ((c.state? id).bind c'.id?).getD 0
  have hother : ∀ id r, c.record? id = some r →
      ∃ r', c'.record? (other id) = some r' ∧ r'.state = r.state := by
    intro id r hr
    obtain ⟨id', r', hr', hstate⟩ := hstates _ ⟨id, r, hr, rfl⟩
    have hid : other id = id' := by
      simp [other, state?_eq hr, hc'.id?_eq_some.2 ⟨r', hr', congrArg State.item hstate⟩]
    exact ⟨r', hid ▸ hr', hstate⟩
  have hinj : ((c.select p).map other).Nodup := by
    refine (c.nodup_select p).map_on fun id hid id' hid' heq => ?_
    obtain ⟨r, hr, -⟩ := mem_select.1 hid
    obtain ⟨r', hr', -⟩ := mem_select.1 hid'
    obtain ⟨s, hs, hstate⟩ := hother id r hr
    obtain ⟨s', hs', hstate'⟩ := hother id' r' hr'
    rw [heq] at hs
    obtain rfl : s = s' := Option.some.inj (hs.symm.trans hs')
    exact hc.id_unique hr hr' (congrArg State.item (hstate.symm.trans hstate'))
  have hsubset : (c.select p).map other ⊆ c'.select p := by
    intro id' hid'
    obtain ⟨id, hid, rfl⟩ := List.mem_map.1 hid'
    obtain ⟨r, hr, hp⟩ := mem_select.1 hid
    obtain ⟨r', hr', hstate⟩ := hother id r hr
    exact mem_select.2 ⟨r', hr', by rw [hstate, hp]⟩
  have hlength := (List.subperm_of_subset hinj hsubset).length_le
  rwa [List.length_map] at hlength

end Chart

variable [Number π]

/-! ## Values -/

theorem Grammar.start_notMem_right_of_mem_items {G : Grammar π} {i : Item} {position : Nat}
    (hi : i ∈ G.items position) : .start ∉ i.production.right := by
  obtain ⟨⟨r, hr, hproduction⟩, -⟩ := mem_items.1 hi
  rw [← hproduction]
  rcases List.mem_cons.1 hr with rfl | hr
  · simp
  · exact start_notMem_right hr

/-- Composed values do not depend on the order of the rules. -/
theorem Grammar.Reorders.composed {G G' : Grammar π} {S : ScoreAlgebra π α} [S.IsSemiring]
    {options : ParseOptions τ α} {tokens : List (Token τ)} {value inner : Item → S.Members}
    (hG : G.Reorders G') (h : G'.Composed S options tokens value inner) :
    G.Composed S options tokens value inner where
  matched := h.matched
  offered hcategory hq := by
    rw [hG.score_eq S]
    exact h.offered hcategory (hG.productionsFor_eq ▸ hq)
  scanned := h.scanned
  completed hcategory := by
    rw [hG.productionsFor_eq]
    exact h.completed hcategory

/-- Composed values are determined by those of the rules of which nothing is matched. If these have
another factor, and so does each token, then all values have the factors of what is matched. -/
theorem Grammar.Composed.value_eq_mul {G : Grammar π} {S : ScoreAlgebra π α} [S.IsCommSemiring]
    {options options' : ParseOptions τ α} {tokens : List (Token τ)}
    {value inner value' inner' : Item → S.Members} {factor : Nat → S.Members} {a : S.Members}
    (hfactor : ∀ k, tokenWeight S options tokens k = factor k * tokenWeight S options' tokens k)
    (hacyclic : G.UnitAcyclic)
    (h : G.Composed S options tokens value inner) (hinner : G.Composed S options tokens inner inner)
    (h' : G.Composed S options' tokens value' inner')
    (hinner' : G.Composed S options' tokens inner' inner') {i : Item}
    (hstart : .start ∉ i.production.right) (hdot : i.dot ≤ i.production.length)
    (hbegin : value ⟨i.production, i.origin, i.origin, 0⟩ =
      a * value' ⟨i.production, i.origin, i.origin, 0⟩) :
    value i = a * (∏ k ∈ Finset.Ico i.origin i.position, factor k) * value' i := by
  obtain ⟨q, j, origin, dot⟩ := i
  have hweighs := h.weighs hinner hacyclic (i := origin) (j := j) hstart hdot
  have hweighs' := h'.weighs hinner' hacyclic (i := origin) (j := j) hstart hdot
  rw [Composed.Weighs] at hweighs hweighs'
  rw [hweighs, hweighs', hbegin, tokensWeight_eq_mul hfactor]
  ring

namespace Parser

variable {G G' : Grammar π} {S : ScoreAlgebra π α} {tokens : List (Token τ)}
  {c c' : Chart π α} {id : StateId} {s : State π} {link? : Option Link}
  {options options' : ParseOptions τ α} {fuel fuel' : Nat} {result result' : ParseResult π α}

section States

variable [S.IsSemiring]

/-- What leads to a state does so in any chart with the same states, and the links name the same
states. -/
theorem LeadsTo.reorder (hG : G.Reorders G') (hc : ∀ s, c.HasState s → c'.HasState s)
    (h : (new G S).LeadsTo tokens c id s link?) : ∃ id' link?',
      (new G' S).LeadsTo tokens c' id' s link?' ∧ link?.map c.named = link?'.map c'.named := by
  cases h with
  | @predict _ r name corner rule hr hactive hpredicted hcorner hrule =>
    obtain ⟨id', r', hr', hstate⟩ := hc _ ⟨id, r, hr, rfl⟩
    have hcorners : (new G S).corners = (new G' S).corners := hG.ofGrammar_eq S
    rw [← hstate] at hactive hpredicted ⊢
    rw [hcorners] at hcorner
    exact ⟨id', none, .predict hr' hactive hpredicted hcorner (hG.mem_rulesFor.1 hrule), rfl⟩
  | @complete waiting _ w r _ hw hr hcompleted hposition hactive hnext =>
    obtain ⟨waiting', w', hw', hwstate⟩ := hc _ ⟨waiting, w, hw, rfl⟩
    obtain ⟨id', r', hr', hstate⟩ := hc _ ⟨id, r, hr, rfl⟩
    refine ⟨id', some (.completed waiting' id'), .complete hw' hr' ?_ ?_ ?_ ?_, ?_⟩
    · rwa [hstate]
    · rwa [hstate, hwstate]
    · rwa [hstate, hwstate]
    · rwa [hstate, hwstate]
    · simp [Chart.named, Link.completed, Chart.state?_eq hw, Chart.state?_eq hw', hwstate,
        Chart.state?_eq hr, Chart.state?_eq hr', hstate]
  | @scan _ r token category _ hr htoken hactive hcategory hnext =>
    obtain ⟨id', r', hr', hstate⟩ := hc _ ⟨id, r, hr, rfl⟩
    rw [← hstate] at htoken hactive hnext
    refine ⟨id', some (.scanned id'), .scan hr' htoken hactive hcategory hnext, ?_⟩
    simp [Chart.named, Link.scanned, Chart.state?_eq hr, Chart.state?_eq hr', hstate]

/-- The states of a chart do not depend on the order of the rules. -/
theorem hasState_of_reorders (hG : G.Reorders G')
    (h : (new G S).parse options fuel tokens = some result)
    (h' : (new G' S).parse options' fuel' tokens = some result') (s : State π)
    (hs : result.chart.HasState s) : result'.chart.HasState s := by
  have hfinished' := finished_of_parse h'
  obtain ⟨id, r, hr, rfl⟩ := hs
  have hall := (reaches_of_parse h).1.states_satisfy (P := result'.chart.HasState) ?_ ?_
  · exact hall id r hr
  · obtain ⟨id', r', hr', hstate, -⟩ := hfinished'.top
    refine ⟨id', r', hr', hstate.trans ?_⟩
    exact congrArg (State.begin · 0) hG.topRule_eq.symm
  · intro c id s link? hc hleads
    have hstates : ∀ s, c.HasState s → result'.chart.HasState s := by
      rintro _ ⟨id, r, hr, rfl⟩
      exact (hc id r hr).2
    obtain ⟨_, _, hleads', -⟩ := hleads.reorder hG hstates
    obtain ⟨id', r', hr', hstate, -⟩ := hfinished'.holds hleads'
    exact ⟨id', r', hr', hstate⟩

/-- The links of a record name the states that those of the record with the same state name. -/
theorem exists_named_eq (hG : G.Reorders G')
    (h : (new G S).parse options fuel tokens = some result)
    (h' : (new G' S).parse options' fuel' tokens = some result') {id id' : StateId}
    {r r' : Record π α} (hr : result.chart.record? id = some r)
    (hr' : result'.chart.record? id' = some r') (hstate : r.state = r'.state) {link : Link}
    (hlink : link ∈ r.links) :
    ∃ link' ∈ r'.links, result.chart.named link = result'.chart.named link' := by
  have hfinished' := finished_of_parse h'
  obtain ⟨cause, hleads⟩ := ((finished_of_parse h).linked id r hr).leadsTo link hlink
  obtain ⟨cause', link?', hleads', hnamed⟩ := hleads.reorder hG (hasState_of_reorders hG h h')
  obtain ⟨link', rfl, hname⟩ := Option.map_eq_some_iff.1 hnamed.symm
  obtain ⟨other, r'', hr'', hstate', hlinks⟩ := hfinished'.holds hleads'
  obtain rfl : other = id' := hfinished'.indexed.id_unique hr'' hr' (by rw [hstate', hstate])
  obtain rfl : r'' = r' := Option.some.inj (hr''.symm.trans hr')
  exact ⟨link', hlinks link' rfl, hname.symm⟩

end States

/-! ## Scores -/

section Scores

variable [S.IsCommSemiring] {factor : Nat → S.Members}

instance : (new G S).algebra.IsCommSemiring :=
  ‹S.IsCommSemiring›

/-- A rule of which nothing is matched is in both charts, or it is the top rule, or it is in
neither. -/
theorem begin_cases (hG : G.Reorders G')
    (h : (new G S).parse options fuel tokens = some result)
    (h' : (new G' S).parse options' fuel' tokens = some result') (q : Production) (m : Nat) :
    (∃ id r id' r', result.chart.record? id = some r ∧ result'.chart.record? id' = some r' ∧
      r'.state = r.state ∧ r.state.item = ⟨q, m, m, 0⟩ ∧ r.state.rule ∈ G.rules) ∨
    ⟨q, m, m, 0⟩ = (State.begin G.topRule 0).item ∨
    (∀ id r, result.chart.record? id = some r → r.state.item ≠ ⟨q, m, m, 0⟩) ∧
      ∀ id r, result'.chart.record? id = some r → r.state.item ≠ ⟨q, m, m, 0⟩ := by
  rcases result.chart.exists_or_forall_ne ⟨q, m, m, 0⟩ with ⟨id, r, hr, hitem⟩ | hnone
  · obtain ⟨id', r', hr', hstate⟩ := hasState_of_reorders hG h h' r.state ⟨id, r, hr, rfl⟩
    rcases ((finished_of_parse h).admits id r hr).rule with hrule | ⟨hrule, horigin⟩
    · exact .inl ⟨id, r, id', r', hr, hr', hstate, hitem, hrule⟩
    · have hm : m = 0 := (congrArg Item.origin hitem).symm.trans horigin
      have hq : q = G.topRule.toProduction :=
        (congrArg Item.production hitem).symm.trans (congrArg Rule.toProduction hrule)
      rw [hm, hq]
      exact .inr (.inl rfl)
  · refine .inr (.inr ⟨hnone, fun id' r' hr' hitem => ?_⟩)
    obtain ⟨id, r, hr, hstate⟩ := hasState_of_reorders hG.symm h' h _ ⟨id', r', hr', rfl⟩
    exact hnone id r hr (hstate ▸ hitem)

/-- With which inner score nothing of a rule is matched does not depend on the order of the
rules. -/
theorem value_begin_eq (hG : G.Reorders G') (hoptions : options.WeighsIn S)
    (hoptions' : options'.WeighsIn S)
    (h : (new G S).parse options fuel tokens = some result)
    (h' : (new G' S).parse options' fuel' tokens = some result') (q : Production) (m : Nat) :
    result.chart.value S ⟨q, m, m, 0⟩ = result'.chart.value S ⟨q, m, m, 0⟩ := by
  have haccounts := accounts_of_parse hoptions h
  have haccounts' := accounts_of_parse hoptions' h'
  rcases begin_cases hG h h' q m with
    ⟨id, r, id', r', hr, hr', hstate, hitem, hrule⟩ | htop | ⟨hnone, hnone'⟩
  · have hdot : r.state.dot = 0 := congrArg Item.dot hitem
    have hvalue := haccounts.begun hr hdot hrule
    have hvalue' := haccounts'.begun hr' (hstate ▸ hdot) (hstate ▸ hG.mem_rules.1 hrule)
    rw [hstate] at hvalue'
    rw [← hitem]
    exact hvalue.trans hvalue'.symm
  · have hvalue' : result'.chart.value S (State.begin G.topRule 0).item = 1 := by
      rw [hG.topRule_eq]
      exact haccounts'.top
    rw [htop, hvalue']
    exact haccounts.top
  · rw [Chart.value_eq_zero hnone, Chart.value_eq_zero hnone']

variable
  (hfactor : ∀ k, tokenWeight S options tokens k = factor k * tokenWeight S options' tokens k)

include hfactor

/-- If tokens weigh more by some factors, the inner scores of states have the factors of the tokens
between their origin and their position. -/
theorem value_eq_mul_of_reorders (hG : G.Reorders G') (hacyclic : G.UnitAcyclic)
    (hoptions : options.WeighsIn S) (hoptions' : options'.WeighsIn S)
    (h : (new G S).parse options fuel tokens = some result)
    (h' : (new G' S).parse options' fuel' tokens = some result') {i : Item}
    (hstart : .start ∉ i.production.right) (hdot : i.dot ≤ i.production.length) :
    result.chart.value S i =
      (∏ k ∈ Finset.Ico i.origin i.position, factor k) * result'.chart.value S i := by
  have hcomposed : G.Composed S options tokens (result.chart.value S) (result.chart.value S) :=
    (recurrence_of_parse hoptions h).toComposed
  have hcomposed' : G.Composed S options' tokens (result'.chart.value S) (result'.chart.value S) :=
    hG.composed (recurrence_of_parse hoptions' h').toComposed
  have hbegin := value_begin_eq hG hoptions hoptions' h h' i.production i.origin
  rw [hcomposed.value_eq_mul hfactor hacyclic hcomposed hcomposed' hcomposed' hstart hdot
    (hbegin.trans (one_mul _).symm), one_mul]

/-- Forward scores have further the factor that they have where nothing of the rule is matched. -/
theorem forward_eq_mul_of_begin (hG : G.Reorders G') (hacyclic : G.UnitAcyclic)
    (hoptions : options.WeighsIn S) (hoptions' : options'.WeighsIn S)
    (h : (new G S).parse options fuel tokens = some result)
    (h' : (new G' S).parse options' fuel' tokens = some result') {i : Item}
    (hstart : .start ∉ i.production.right) (hdot : i.dot ≤ i.production.length)
    (horigin : i.origin ≤ i.position)
    (hbegin : (result.chart.turn .forward).value S ⟨i.production, i.origin, i.origin, 0⟩ =
      (∏ k ∈ Finset.Ico 0 i.origin, factor k) *
        (result'.chart.turn .forward).value S ⟨i.production, i.origin, i.origin, 0⟩) :
    (result.chart.turn .forward).value S i =
      (∏ k ∈ Finset.Ico 0 i.position, factor k) * (result'.chart.turn .forward).value S i := by
  have hinner : G.Composed S options tokens (result.chart.value S) (result.chart.value S) :=
    (recurrence_of_parse hoptions h).toComposed
  have hinner' : G.Composed S options' tokens (result'.chart.value S) (result'.chart.value S) :=
    hG.composed (recurrence_of_parse hoptions' h').toComposed
  have hvalue := Grammar.Composed.value_eq_mul hfactor hacyclic
    (composed_forward_of_parse hoptions h) hinner
    (hG.composed (composed_forward_of_parse hoptions' h')) hinner' hstart hdot hbegin
  rwa [Finset.prod_Ico_consecutive _ (Nat.zero_le _) horigin] at hvalue

omit hfactor

theorem reach_eq_of_reorders [(new G S).algebra.IsSemiring] [(new G' S).algebra.IsSemiring]
    (hG : G.Reorders G') (i : Item) (name : String) :
    ((new G S).reach i name : S.Members) = (new G' S).reach i name := by
  have hcorners : (new G S).corners = (new G' S).corners := hG.ofGrammar_eq S
  unfold reach
  rw [hcorners]
  rfl

theorem reach_eq_zero_of_dot_eq_zero {p : Parser π α} [p.algebra.IsSemiring] {i : Item}
    (hdot : i.dot = 0) (hleft : i.production.left ≠ .start) (name : String) :
    p.reach i name = 0 := by
  unfold reach
  split
  · exact if_pos ⟨hdot, hleft⟩
  · rfl

/-- The top rule is matched from the beginning, where no token has a factor yet. -/
theorem forward_begin_eq_of_notMem (hG : G.Reorders G') (hoptions : options.WeighsIn S)
    (hoptions' : options'.WeighsIn S)
    (h : (new G S).parse options fuel tokens = some result)
    (h' : (new G' S).parse options' fuel' tokens = some result') {q : Production}
    (hq : ∀ name, q ∉ G.productionsFor name) (m : Nat) :
    (result.chart.turn .forward).value S ⟨q, m, m, 0⟩ =
      (∏ k ∈ Finset.Ico 0 m, factor k) *
        (result'.chart.turn .forward).value S ⟨q, m, m, 0⟩ := by
  rcases begin_cases hG h h' q m with
    ⟨id, r, id', r', hr, hr', hstate, hitem, hrule⟩ | htop | ⟨hnone, hnone'⟩
  · obtain ⟨name, hleft⟩ := Grammar.left_eq_nonterminal hrule
    obtain rfl : r.state.rule.toProduction = q := congrArg Item.production hitem
    exact absurd (Grammar.mem_productionsFor.2 ⟨⟨_, hrule, rfl⟩, hleft⟩) (hq name)
  · obtain ⟨-, -, haccounts⟩ := forwardAccounts_of_parse hoptions h
    obtain ⟨-, -, haccounts'⟩ := forwardAccounts_of_parse hoptions' h'
    have hvalue' : (result'.chart.turn .forward).value S (State.begin G.topRule 0).item = 1 := by
      rw [hG.topRule_eq]
      exact haccounts'.top
    obtain rfl : m = 0 := congrArg Item.origin htop
    rw [htop, hvalue', Finset.Ico_self, Finset.prod_empty, one_mul]
    exact haccounts.top
  · rw [Chart.value_turn_eq_zero .forward hnone, Chart.value_turn_eq_zero .forward hnone', mul_zero]

/-- What began at its position has a forward score only if nothing is matched. -/
theorem forward_eq_mul_of_origin_eq (hG : G.Reorders G') (hoptions : options.WeighsIn S)
    (hoptions' : options'.WeighsIn S)
    (h : (new G S).parse options fuel tokens = some result)
    (h' : (new G' S).parse options' fuel' tokens = some result') {i : Item}
    (horigin : i.origin = i.position) (htop : i.dot = 0 → i.production.left = .start) :
    (result.chart.turn .forward).value S i =
      (∏ k ∈ Finset.Ico 0 i.position, factor k) * (result'.chart.turn .forward).value S i := by
  by_cases hzero : i.dot = 0
  · have hitem : i = ⟨i.production, i.position, i.position, 0⟩ := by
      obtain ⟨production, position, origin, dot⟩ := i
      dsimp only at horigin hzero
      rw [horigin, hzero]
    have hnotMem : ∀ name, i.production ∉ G.productionsFor name := fun name hname => by
      have hname := (Grammar.mem_productionsFor.1 hname).2
      rw [htop hzero] at hname
      cases hname
    rw [hitem, forward_begin_eq_of_notMem hG hoptions hoptions' h h' hnotMem]
  · have hunmatched : ¬ (i.origin ≤ i.position ∧ (i.dot = 0 ↔ i.origin = i.position)) :=
      fun hmatched => hzero (hmatched.2.2 horigin)
    have hvalue : (result.chart.turn .forward).value S i = 0 :=
      (composed_forward_of_parse hoptions h).value_eq_zero hunmatched
    have hvalue' : (result'.chart.turn .forward).value S i = 0 :=
      (composed_forward_of_parse hoptions' h').value_eq_zero hunmatched
    rw [hvalue, hvalue', mul_zero]

include hfactor

/-- With which forward score nothing of a rule is matched does not depend on the order of the
rules, but for the factors of all tokens before. What comes in at a position comes from states that
began before it, or from the top rule. -/
theorem forward_begin_eq_mul (hG : G.Reorders G') (hacyclic : G.UnitAcyclic)
    (hoptions : options.WeighsIn S) (hoptions' : options'.WeighsIn S)
    (h : (new G S).parse options fuel tokens = some result)
    (h' : (new G' S).parse options' fuel' tokens = some result') (q : Production) (m : Nat) :
    (result.chart.turn .forward).value S ⟨q, m, m, 0⟩ =
      (∏ k ∈ Finset.Ico 0 m, factor k) *
        (result'.chart.turn .forward).value S ⟨q, m, m, 0⟩ := by
  let reach (i : Item) (name : String) : S.Members := (new G S).reach i name
  induction m using Nat.strong_induction_on generalizing q with
  | _ m ih =>
    by_cases hq : ∃ name, q ∈ G.productionsFor name
    · obtain ⟨name, hq⟩ := hq
      have hvalue : (result.chart.turn .forward).value S ⟨q, m, m, 0⟩ =
          (∑ i ∈ G.items m, (result.chart.turn .forward).value S i * reach i name) *
            S.lift (G.score S q) := (forwardAccounts_of_parse hoptions h).2.2.predicted hq
      have hvalue' : (result'.chart.turn .forward).value S ⟨q, m, m, 0⟩ =
          (∑ i ∈ G.items m, (result'.chart.turn .forward).value S i * reach i name) *
            S.lift (G.score S q) := by
        simp only [reach, reach_eq_of_reorders hG, hG.items_eq, hG.score_eq S]
        exact (forwardAccounts_of_parse hoptions' h').2.2.predicted (hG.productionsFor_eq ▸ hq)
      rw [hvalue, hvalue', ← mul_assoc, Finset.mul_sum]
      congr 1
      refine Finset.sum_congr rfl fun i hi => ?_
      obtain ⟨-, hposition, horigin, hdot⟩ := Grammar.mem_items.1 hi
      rw [← mul_assoc, ← hposition]
      rw [← hposition] at horigin
      rcases Nat.lt_or_eq_of_le horigin with hlt | heq
      · have hstart := Grammar.start_notMem_right_of_mem_items hi
        rw [forward_eq_mul_of_begin hfactor hG hacyclic hoptions hoptions' h h' hstart hdot horigin
          (ih _ (hposition ▸ hlt) i.production)]
      · by_cases hbegun : i.dot = 0 ∧ i.production.left ≠ .start
        · have hreach : reach i name = 0 := reach_eq_zero_of_dot_eq_zero hbegun.1 hbegun.2 name
          rw [hreach, mul_zero, mul_zero]
        · rw [forward_eq_mul_of_origin_eq hG hoptions hoptions' h h' heq
            fun hzero => not_not.1 fun hleft => hbegun ⟨hzero, hleft⟩]
    · exact forward_begin_eq_of_notMem hG hoptions hoptions' h h' (fun name hname => hq ⟨name, hname⟩) m

/-- If tokens weigh more by some factors, the forward scores of states have the factors of all
tokens before their position. -/
theorem forward_eq_mul_of_reorders (hG : G.Reorders G') (hacyclic : G.UnitAcyclic)
    (hoptions : options.WeighsIn S) (hoptions' : options'.WeighsIn S)
    (h : (new G S).parse options fuel tokens = some result)
    (h' : (new G' S).parse options' fuel' tokens = some result') {i : Item}
    (hstart : .start ∉ i.production.right) (hdot : i.dot ≤ i.production.length)
    (horigin : i.origin ≤ i.position) :
    (result.chart.turn .forward).value S i =
      (∏ k ∈ Finset.Ico 0 i.position, factor k) * (result'.chart.turn .forward).value S i :=
  forward_eq_mul_of_begin hfactor hG hacyclic hoptions hoptions' h h' hstart hdot horigin
    (forward_begin_eq_mul hfactor hG hacyclic hoptions hoptions' h h' _ _)

omit hfactor

/-- The inner scores of a chart do not depend on the order of the rules. -/
theorem value_eq_of_reorders (hG : G.Reorders G') (hacyclic : G.UnitAcyclic)
    (hoptions : options.WeighsIn S)
    (h : (new G S).parse options fuel tokens = some result)
    (h' : (new G' S).parse options fuel' tokens = some result') {i : Item}
    (hstart : .start ∉ i.production.right) (hdot : i.dot ≤ i.production.length) :
    result.chart.value S i = result'.chart.value S i := by
  have hvalue := value_eq_mul_of_reorders (fun k => (one_mul _).symm) hG hacyclic hoptions hoptions
    h h' hstart hdot
  rwa [Finset.prod_const_one, one_mul] at hvalue

/-- The forward scores of a chart do not depend on the order of the rules. -/
theorem forward_eq_of_reorders (hG : G.Reorders G') (hacyclic : G.UnitAcyclic)
    (hoptions : options.WeighsIn S)
    (h : (new G S).parse options fuel tokens = some result)
    (h' : (new G' S).parse options fuel' tokens = some result') {i : Item}
    (hstart : .start ∉ i.production.right) (hdot : i.dot ≤ i.production.length)
    (horigin : i.origin ≤ i.position) :
    (result.chart.turn .forward).value S i = (result'.chart.turn .forward).value S i := by
  have hvalue := forward_eq_mul_of_reorders (fun k => (one_mul _).symm) hG hacyclic hoptions
    hoptions h h' hstart hdot horigin
  rwa [Finset.prod_const_one, one_mul] at hvalue

end Scores

end Parser

end SemiringParsing
