import SemiringParsing.Proofs.Chart.Items
import SemiringParsing.Proofs.Grammar.CornerWeights
import SemiringParsing.Proofs.Sweep.Accounts

/-!
# How forward scores are made up

Behind a dot the forward score of a state is made up as the inner score is: from the forward score
before the dot and what has been passed on of the inner score in between. That is `Carries` again,
for the chart turned to the other side. Only predicted states differ. Each time something of a state
that expects a nonterminal is passed on, it comes in at all left corners, with their weights.
`ForwardAccounts` says that all of it has come in, and nothing else.

Two balances are kept at once, one of what has been passed on of the inner scores and one of what
has been passed on of the forward scores.
-/

namespace SemiringParsing

variable {π α τ : Type} [Number π]

namespace Grammar

theorem Admits.item_mem_items_iff {G : Grammar π} {s : State π} (h : G.Admits s) {position : Nat} :
    s.item ∈ G.items position ↔ position = s.position := by
  rw [mem_items]
  constructor
  · rintro ⟨-, hposition, -⟩
    exact hposition.symm
  · rintro rfl
    refine ⟨⟨s.rule, ?_, rfl⟩, rfl, s.origin_le, s.dot_le⟩
    rcases h.rule with hrule | ⟨hrule, -⟩
    · exact List.mem_cons_of_mem _ hrule
    · rw [hrule]
      exact List.mem_cons_self

/-- What is counted as passed on of one item changes the sum over the items at its position by one
term. -/
theorem sum_items_add_single {M : Type} [Semiring M] (G : Grammar π) (passed f : Item → M)
    (i : Item) (weight : M) (position : Nat) :
    ∑ j ∈ G.items position, (passed + Pi.single i weight : Item → M) j * f j =
      (∑ j ∈ G.items position, passed j * f j) +
        if i ∈ G.items position then weight * f i else 0 := by
  simp only [Pi.add_apply, add_mul, Finset.sum_add_distrib]
  congr 1
  split
  · next h =>
    rw [Finset.sum_eq_single_of_mem i h, Pi.single_eq_same]
    intro j _ hne
    rw [Pi.single_eq_of_ne hne, zero_mul]
  · next h =>
    refine Finset.sum_eq_zero fun j hj => ?_
    rw [Pi.single_eq_of_ne, zero_mul]
    rintro rfl
    exact h hj

end Grammar

namespace Parser

variable {p : Parser π α} {c : Chart π α} {d : Delta α} {ds : List (Delta α)} {r : Record π α}
  {position : Nat} {x : Contribution π α}

/-- What begins at the position where it ends was predicted from a left corner. -/
theorem exists_opening_of_mem_consequences (hr : c.record? d.id = some r)
    (hx : x ∈ p.consequences position c d) (hdot : x.state.dot = 0) :
    ∃ source, r.state.active? = some (.nonterminal source) ∧ r.state.isPredicted = false ∧
      ∃ y ∈ p.corners.openings p.algebra p.grammar (.nonterminal source) d.forward,
        c.prediction p.algebra position y = x := by
  rcases p.consequences_cases position hr with
    ⟨-, heq⟩ | ⟨source, hactive, hpredicted, heq⟩ | ⟨-, heq⟩
  · rw [heq] at hx
    obtain ⟨_, -, _, -, -, hitem⟩ := Chart.exists_of_mem_moved hx
    exact absurd (hdot.symm.trans (congrArg Item.dot hitem)) (Nat.succ_ne_zero _).symm
  · rw [heq] at hx
    exact ⟨source, hactive, hpredicted, List.mem_map.1 hx⟩
  · simp [heq] at hx

theorem consequences_eq_predictions (p : Parser π α) (position : Nat)
    (hr : c.record? d.id = some r) {source : String}
    (hactive : r.state.active? = some (.nonterminal source))
    (hpredicted : r.state.isPredicted = false) : p.consequences position c d =
      (p.corners.openings p.algebra p.grammar (.nonterminal source) d.forward).map
        (c.prediction p.algebra position) := by
  unfold consequences
  rw [hr, Option.map_some]
  dsimp only
  rw [hactive, hpredicted]
  rfl

section Reach

variable [p.algebra.IsSemiring]

theorem corner_mem {category : Category} {corner : Category × α}
    (h : corner ∈ p.corners.reachableFrom category) : p.algebra.member corner.2 = true := by
  rw [p.corners_eq] at h
  exact LeftCorners.mem_values_of_mem_reachableFrom p.algebra.closed
    (fun r hr => Grammar.ofProbability_mem hr) h

theorem weightTo_mem (p : Parser π α) [p.algebra.IsSemiring] (source target : String) :
    p.algebra.member (p.corners.weightTo p.algebra source target) = true := by
  rw [p.corners_eq]
  exact LeftCorners.weightTo_mem ..

/-- The weight of the way from an item to a nonterminal at its position: that of the left corner, if
the item expects a nonterminal and was not predicted itself. -/
def reach (p : Parser π α) [p.algebra.IsSemiring] (i : Item) (target : String) :
    p.algebra.Members :=
  match i.production.right[i.dot]? with
  | some (.nonterminal source) =>
    if i.dot = 0 ∧ i.production.left ≠ .start then 0
    else p.algebra.lift (p.corners.weightTo p.algebra source target)
  | _ => 0

theorem reach_of_active? {s : State π} {source : String}
    (hactive : s.active? = some (.nonterminal source)) (hpredicted : s.isPredicted = false)
    (target : String) :
    p.reach s.item target = p.algebra.lift (p.corners.weightTo p.algebra source target) := by
  have hcategory : s.item.production.right[s.item.dot]? = some (.nonterminal source) := hactive
  have hopen : ¬ (s.dot = 0 ∧ s.rule.left ≠ .start) := by
    simpa [State.isPredicted] using hpredicted
  rw [reach, hcategory]
  exact if_neg hopen

theorem reach_eq_zero {s : State π}
    (h : ∀ source, s.active? = some (.nonterminal source) → s.isPredicted = true)
    (target : String) : p.reach s.item target = 0 := by
  unfold reach
  split
  · next source hcategory =>
    have hpredicted := h source hcategory
    simp only [State.isPredicted, Bool.and_eq_true, beq_iff_eq, bne_iff_ne] at hpredicted
    exact if_pos hpredicted
  · rfl

end Reach

/-! ## Passing on -/

section Pass

variable [p.algebra.IsSemiring] {passed passedForward : Item → p.algebra.Members}

/-- The forward scores of what is passed on to are members. -/
theorem forward_mem_of_mem_consequences (hmembers : (c.turn .forward).InnerMembers p.algebra)
    (hr : c.record? d.id = some r) (hinner : p.algebra.member d.inner = true)
    (hforward : p.algebra.member d.forward = true) (hx : x ∈ p.consequences position c d) :
    p.algebra.member x.forward = true := by
  rcases p.consequences_cases position hr with
    ⟨-, heq⟩ | ⟨name, -, -, heq⟩ | ⟨-, heq⟩
  · rw [heq] at hx
    obtain ⟨id, -, hid⟩ := List.mem_filterMap.1 hx
    obtain ⟨w, s, hw, -, rfl⟩ := Chart.moved_eq_some.1 hid
    exact ScoreAlgebra.IsSemiring.times_mem (hmembers.scoreOn hw) hinner
  · rw [heq] at hx
    obtain ⟨y, hy, rfl⟩ := List.mem_map.1 hx
    obtain ⟨corner, hcorner, hrule, hreach⟩ := LeftCorners.mem_openings.1 hy
    have hprobability := Grammar.ofProbability_mem (S := p.algebra)
      (mem_rules_of_mem_reachableFrom hcorner hrule)
    show p.algebra.member (p.algebra.times y.1 _) = true
    rw [hreach]
    exact ScoreAlgebra.IsSemiring.times_mem
      (ScoreAlgebra.IsSemiring.times_mem hforward (corner_mem hcorner)) hprobability
  · simp [heq] at hx

/-- What predicts a left corner comes in at its rules with its weight. -/
theorem forward_prediction (hc : p.Consistent position ⟨c, d :: ds⟩)
    (hmembers : (c.turn .forward).InnerMembers p.algebra)
    (hinner : p.algebra.member d.inner = true) (hforward : p.algebra.member d.forward = true)
    (hr : c.record? d.id = some r) {source name : String} {q : Production}
    (hactive : r.state.active? = some (.nonterminal source))
    (hpredicted : r.state.isPredicted = false) (hq : q ∈ p.grammar.productionsFor name)
    {corner : Category × α} (hcorner : corner ∈ p.corners.reachableFrom (.nonterminal source))
    (htarget : corner.1 = .nonterminal name) :
    ((p.chartAfter position c d ds).turn .forward).value p.algebra ⟨q, position, position, 0⟩ =
      (c.turn .forward).value p.algebra ⟨q, position, position, 0⟩ +
        p.algebra.lift d.forward * p.algebra.lift corner.2 *
          p.algebra.lift (p.grammar.score p.algebra q) := by
  have heq := p.consequences_eq_predictions position hr hactive hpredicted
  obtain ⟨⟨rule, hrule, rfl⟩, hleft⟩ := Grammar.mem_productionsFor.1 hq
  have hprobability := Grammar.ofProbability_mem (S := p.algebra) hrule
  have hmem : ⟨.begin rule position, (c.prediction p.algebra position
        (p.algebra.times d.forward corner.2, rule)).inner,
      p.algebra.times (p.algebra.times d.forward corner.2)
        (p.algebra.ofProbability rule.probability), none⟩ ∈
      (p.consequences position c d).map (Contribution.turn .forward) := by
    rw [heq, List.map_map]
    refine List.mem_map.2 ⟨(p.algebra.times d.forward corner.2, rule), ?_, rfl⟩
    refine LeftCorners.mem_openings.2 ⟨corner, hcorner, ?_, rfl⟩
    rw [htarget]
    exact Grammar.mem_rulesFor_nonterminal.2 ⟨hrule, hleft⟩
  have hdistinct : (((p.consequences position c d).map (Contribution.turn .forward)).map
      fun x => x.state.item).Nodup := by
    rw [List.map_map, heq]
    exact p.nodup_predictions position c source d.forward
  have hvalue := Ledger.value_addAll (l := ⟨c.turn .forward, []⟩) hc.indexed.rescore hmembers
    (fun x hx => ?_) hdistinct hmem
  · rw [turn_chartAfter]
    refine hvalue.trans ?_
    rw [ScoreAlgebra.lift_times (ScoreAlgebra.IsSemiring.times_mem hforward (corner_mem hcorner))
      hprobability, ScoreAlgebra.lift_times hforward (corner_mem hcorner),
      Grammar.score_toProduction hrule]
    rfl
  · obtain ⟨y, hy, rfl⟩ := List.mem_map.1 hx
    exact forward_mem_of_mem_consequences hmembers hr hinner hforward hy

/-- What predicts comes in at each rule with the weight of the left corner, if only zero. -/
theorem forward_predictions (hc : p.Consistent position ⟨c, d :: ds⟩)
    (hmembers : (c.turn .forward).InnerMembers p.algebra)
    (hinner : p.algebra.member d.inner = true) (hforward : p.algebra.member d.forward = true)
    (hr : c.record? d.id = some r) {source name : String} {q : Production}
    (hactive : r.state.active? = some (.nonterminal source))
    (hpredicted : r.state.isPredicted = false) (hq : q ∈ p.grammar.productionsFor name) :
    ((p.chartAfter position c d ds).turn .forward).value p.algebra ⟨q, position, position, 0⟩ =
      (c.turn .forward).value p.algebra ⟨q, position, position, 0⟩ +
        p.algebra.lift d.forward * p.algebra.lift (p.corners.weightTo p.algebra source name) *
          p.algebra.lift (p.grammar.score p.algebra q) := by
  by_cases hlisted : ∃ corner ∈ p.corners.reachableFrom (.nonterminal source),
      corner.1 = .nonterminal name
  · obtain ⟨corner, hcorner, htarget⟩ := hlisted
    rw [LeftCorners.weightTo_of_mem (p.nodup_reachableFrom _) hcorner htarget]
    exact forward_prediction hc hmembers hinner hforward hr hactive hpredicted hq hcorner htarget
  · have hzero : p.corners.weightTo p.algebra source name = p.algebra.zero :=
      LeftCorners.weightTo_eq_zero fun corner hcorner htarget =>
        hlisted ⟨corner, hcorner, htarget⟩
    rw [hzero, ScoreAlgebra.lift_zero, mul_zero, zero_mul, add_zero, turn_chartAfter]
    refine Ledger.value_addAll_of_forall_ne (l := ⟨c.turn .forward, []⟩) hc.indexed.rescore
      fun x hx hitem => hlisted ?_
    rw [p.consequences_eq_predictions position hr hactive hpredicted, List.map_map] at hx
    obtain ⟨y, hy, rfl⟩ := List.mem_map.1 hx
    obtain ⟨corner, hcorner, hrule, -⟩ := LeftCorners.mem_openings.1 hy
    have hsame : y.2.toProduction = q := congrArg Item.production hitem
    refine ⟨corner, hcorner, ?_⟩
    rw [← (Grammar.mem_rulesFor.1 hrule).2, ← (Grammar.mem_productionsFor.1 hq).2]
    exact congrArg Production.left hsame

/-- Passing on changes the forward score of a rule of which nothing is matched by what comes in at
the left corner. -/
theorem forward_chartAfter_begin (hc : p.Consistent position ⟨c, d :: ds⟩)
    (hmembers : (c.turn .forward).InnerMembers p.algebra)
    (hinner : p.algebra.member d.inner = true) (hforward : p.algebra.member d.forward = true)
    (hr : c.record? d.id = some r) {name : String} {q : Production} {m : Nat}
    (hq : q ∈ p.grammar.productionsFor name) :
    ((p.chartAfter position c d ds).turn .forward).value p.algebra ⟨q, m, m, 0⟩ =
      (c.turn .forward).value p.algebra ⟨q, m, m, 0⟩ + (if r.state.item ∈ p.grammar.items m then
        p.algebra.lift d.forward * p.reach r.state.item name else 0) *
          p.algebra.lift (p.grammar.score p.algebra q) := by
  have hposition : r.state.position = position := hc.position_eq hr
  have hmem : r.state.item ∈ p.grammar.items m ↔ m = position := by
    rw [(hc.admits _ r hr).item_mem_items_iff, hposition]
  by_cases hm : m = position
  · rw [if_pos (hmem.2 hm)]
    subst hm
    by_cases hpredicts : ∃ source, r.state.active? = some (.nonterminal source) ∧
        r.state.isPredicted = false
    · obtain ⟨source, hactive, hpredicted⟩ := hpredicts
      rw [forward_predictions hc hmembers hinner hforward hr hactive hpredicted hq,
        reach_of_active? hactive hpredicted]
    · have hreach : p.reach r.state.item name = 0 := by
        refine reach_eq_zero (fun source hactive => ?_) name
        rw [← Bool.not_eq_false]
        exact fun hpredicted => hpredicts ⟨source, hactive, hpredicted⟩
      rw [hreach, mul_zero, zero_mul, add_zero, turn_chartAfter]
      refine Ledger.value_addAll_of_forall_ne (l := ⟨c.turn .forward, []⟩) hc.indexed.rescore
        fun x hx hitem => hpredicts ?_
      obtain ⟨y, hy, rfl⟩ := List.mem_map.1 hx
      obtain ⟨source, hactive, hpredicted, -⟩ :=
        exists_opening_of_mem_consequences hr hy (congrArg Item.dot hitem)
      exact ⟨source, hactive, hpredicted⟩
  · rw [if_neg (mt hmem.1 hm), zero_mul, add_zero]
    exact value_chartAfter_of_ne .forward hc hm

/-- The top rule is not predicted. -/
theorem forward_chartAfter_top (hc : p.Consistent position ⟨c, d :: ds⟩)
    (hr : c.record? d.id = some r) :
    ((p.chartAfter position c d ds).turn .forward).value p.algebra
        (State.begin p.grammar.topRule 0).item =
      (c.turn .forward).value p.algebra (State.begin p.grammar.topRule 0).item := by
  rw [turn_chartAfter]
  refine Ledger.value_addAll_of_forall_ne (l := ⟨c.turn .forward, []⟩) hc.indexed.rescore
    fun x hx hitem => ?_
  obtain ⟨y, hy, rfl⟩ := List.mem_map.1 hx
  obtain ⟨source, -, -, z, hz, rfl⟩ :=
    exists_opening_of_mem_consequences hr hy (congrArg Item.dot hitem)
  obtain ⟨corner, hcorner, hrule, -⟩ := LeftCorners.mem_openings.1 hz
  have hleft : z.2.left = .start := congrArg (fun i : Item => i.production.left) hitem
  exact Grammar.left_ne_start (mem_rules_of_mem_reachableFrom hcorner hrule) hleft

end Pass

/-! ## Accounts -/

section Accounts

variable [p.algebra.IsSemiring] {options : ParseOptions τ α} {tokens : List (Token τ)}
  {passed passedForward : Item → p.algebra.Members}

/-- What the forward scores of a chart are made up of. -/
structure ForwardAccounts (p : Parser π α) [p.algebra.IsSemiring] (options : ParseOptions τ α)
    (tokens : List (Token τ)) (position : Nat) (c : Chart π α)
    (passed passedForward : Item → p.algebra.Members) : Prop
    extends p.Carries options tokens position ((c.turn .forward).value p.algebra) passed where
  top : (c.turn .forward).value p.algebra (State.begin p.grammar.topRule 0).item = 1
  /-- At a left corner everything passed on that predicts it has come in. -/
  predicted : ∀ {name : String} {q : Production} {m : Nat}, q ∈ p.grammar.productionsFor name →
    (c.turn .forward).value p.algebra ⟨q, m, m, 0⟩ =
      (∑ i ∈ p.grammar.items m, passedForward i * p.reach i name) *
        p.algebra.lift (p.grammar.score p.algebra q)

namespace ForwardAccounts

/-- Passing on a contribution keeps the accounts. -/
theorem pass (h : p.ForwardAccounts options tokens position c passed passedForward)
    (hc : p.Consistent position ⟨c, d :: ds⟩)
    (hmembers : (c.turn .forward).InnerMembers p.algebra)
    (hinner : p.algebra.member d.inner = true) (hforward : p.algebra.member d.forward = true)
    (hr : c.record? d.id = some r) :
    p.ForwardAccounts options tokens position (p.chartAfter position c d ds)
      (passed + Pi.single r.state.item (p.algebra.lift d.inner))
      (passedForward + Pi.single r.state.item (p.algebra.lift d.forward)) where
  toCarries := h.toCarries.pass .forward hc hmembers hinner hr
  top := (forward_chartAfter_top hc hr).trans h.top
  predicted {name q m} hq := by
    rw [forward_chartAfter_begin hc hmembers hinner hforward hr hq, h.predicted hq,
      Grammar.sum_items_add_single, add_mul]

/-- Scanning a token keeps the accounts. -/
theorem scan (h : p.ForwardAccounts options tokens position c passed passedForward)
    (hc : p.Consistent position ⟨c, []⟩) (hmembers : (c.turn .forward).InnerMembers p.algebra)
    (habsent : ∀ i : Item, position < i.position → passed i = 0)
    (hoptions : options.WeighsIn p.algebra) {token : Token τ}
    (htoken : tokens[position]? = some token) :
    p.ForwardAccounts options tokens (position + 1) (p.chartBehind options position token c)
      passed passedForward where
  toCarries := h.toCarries.scan .forward hc hmembers habsent hoptions htoken
  top := (value_chartBehind_of_ne .forward hc (.inr rfl)).trans h.top
  predicted hq := (value_chartBehind_of_ne .forward hc (.inr rfl)).trans (h.predicted hq)

/-- A parse begins with both scores of the top state alike. -/
theorem turn_begin (p : Parser π α) (side : Side) :
    (Ledger.empty.add p.algebra p.seed).turn side = Ledger.empty.add p.algebra p.seed := by
  rw [Ledger.turn_add side Ledger.indexed_empty, Ledger.turn_empty]
  cases side <;> rfl

/-- A parse begins with the accounts in order. -/
theorem begin (p : Parser π α) [p.algebra.IsSemiring] (options : ParseOptions τ α)
    (tokens : List (Token τ)) :
    p.ForwardAccounts options tokens 0 (Ledger.empty.add p.algebra p.seed).chart 0 0 := by
  have hturn : (Ledger.empty.add p.algebra p.seed).chart.turn .forward =
      (Ledger.empty.add p.algebra p.seed).chart :=
    congrArg Ledger.chart (turn_begin p .forward)
  obtain ⟨-, haccounts⟩ := Accounts.begin p options tokens
  refine ⟨hturn.symm ▸ haccounts.toCarries, hturn.symm ▸ haccounts.top, ?_⟩
  intro name q m hq
  obtain ⟨⟨rule, hrule, rfl⟩, -⟩ := Grammar.mem_productionsFor.1 hq
  rw [Chart.value_turn_eq_zero .forward fun id r hr hitem => ?_]
  · simp
  · rw [Ledger.eq_record_of_add_empty hr] at hitem
    have hleft : Category.start = rule.left := congrArg (fun i : Item => i.production.left) hitem
    exact Grammar.left_ne_start hrule hleft.symm

end ForwardAccounts

/-- **In every ledger of a parse** the accounts of the forward scores are in order, for balances of
both scores. -/
theorem Reaches.exists_forwardAccounts (hoptions : options.WeighsIn p.algebra) {l : Ledger π α}
    (h : p.Reaches options tokens position l) : ∃ passed passedForward,
      l.Balanced p.algebra passed ∧ (l.turn .forward).Balanced p.algebra passedForward ∧
        p.ForwardAccounts options tokens position l.chart passed passedForward := by
  induction h with
  | begin =>
    have hb := (Accounts.begin p options tokens).1
    refine ⟨0, 0, hb, ?_, ForwardAccounts.begin p options tokens⟩
    rw [ForwardAccounts.turn_begin]
    exact hb
  | @pass position c d ds h ih =>
    obtain ⟨passed, passedForward, hb, hforward, haccounts⟩ := ih
    obtain ⟨hd, r, hr⟩ := hb.pending d List.mem_cons_self
    have hdforward : p.algebra.member d.forward = true :=
      (hforward.pending (d.turn .forward) List.mem_cons_self).1
    refine ⟨_, _, (hb.pop hr).addAll fun x hx => member_of_mem_consequences hb hx, ?_,
      haccounts.pass h.consistent hforward.inner hd hdforward hr⟩
    rw [Ledger.turn_addAll (l := ⟨c, ds⟩) .forward hb.indexed]
    refine (hforward.pop (Chart.record?_turn .forward hr)).addAll fun x hx => ?_
    obtain ⟨y, hy, rfl⟩ := List.mem_map.1 hx
    exact forward_mem_of_mem_consequences hforward.inner hr hd hdforward hy
  | @scan position c token h htoken ih =>
    obtain ⟨passed, passedForward, hb, hforward, haccounts⟩ := ih
    have hcomposes := hoptions.composes position token
    refine ⟨passed, passedForward,
      hb.addAll fun x hx => Ledger.member_of_mem_moved hb.inner hcomposes hx, ?_,
      haccounts.scan h.consistent hforward.inner
        (fun i hi => hb.absent i (h.consistent.forall_ne hi)) hoptions htoken⟩
    rw [Ledger.turn_addAll .forward hb.indexed, Chart.readings, Chart.reading,
      Chart.map_turn_moved]
    exact hforward.addAll fun x hx => Ledger.member_of_mem_moved hforward.inner hcomposes hx

/-- When a parse returns the accounts of the forward scores are in order, and all of both scores has
been passed on. -/
theorem forwardAccounts_of_parse (hoptions : options.WeighsIn p.algebra) {fuel : Nat}
    {result : ParseResult π α} (h : p.parse options fuel tokens = some result) :
    result.chart.InnerMembers p.algebra ∧ (result.chart.turn .forward).InnerMembers p.algebra ∧
      p.ForwardAccounts options tokens tokens.length result.chart (result.chart.value p.algebra)
        ((result.chart.turn .forward).value p.algebra) := by
  obtain ⟨passed, passedForward, hb, hforward, haccounts⟩ :=
    (reaches_of_parse h).1.exists_forwardAccounts hoptions
  obtain rfl : passed = result.chart.value p.algebra := funext fun i => (hb.value_eq i).symm
  obtain rfl : passedForward = (result.chart.turn .forward).value p.algebra :=
    funext fun i => (hforward.value_eq i).symm
  exact ⟨hb.inner, hforward.inner, haccounts⟩

end Accounts

end Parser

end SemiringParsing
