import SemiringParsing.Proofs.Number.Truth
import SemiringParsing.Proofs.Sweep.Forward
import SemiringParsing.Proofs.Sweep.PackedForest

/-!
# The equations of a finished chart

In the chart of a parse that has returned the two scores of every record come from those of other
records. `Parser.Equations` says how. Nothing that was to be passed on has been lost and nothing has
come in twice, whether or not the links of the chart form cycles (`equations_of_parse`).

The accounts of a finished chart say the same of the values of items. There the sums are over all
items there could be. Here they are over the records of a position and over the links of a record.
These are fewer, but what is not in the chart has the value zero.
-/

namespace SemiringParsing

variable {π α τ : Type}

/-- The nonterminal whose rules a state predicts. A state that was predicted itself predicts
none. -/
def State.predicts? (s : State π) : Option String :=
  if s.isPredicted then none else s.active?.bind Category.nonterminal?

theorem State.predicts?_eq_some {s : State π} {source : String} : s.predicts? = some source ↔
    s.active? = some (.nonterminal source) ∧ s.isPredicted = false := by
  simp [predicts?, Option.bind_eq_some_iff, and_comm]

namespace Chart

variable {c : Chart π α} {id : StateId} {r : Record π α} {position : Nat}

/-- The records of the states that end at a position. -/
def recordsAt (c : Chart π α) (position : Nat) : List (Record π α) :=
  (c.statesAt position).toList.filterMap c.record?

/-- The records at a position whose states predict, with the nonterminal that each expects. -/
def predictors (c : Chart π α) (position : Nat) : List (String × Record π α) :=
  (c.recordsAt position).filterMap fun r => r.state.predicts?.map fun source => (source, r)

/-- The records that a link names if it tells of a completed state: that of the state whose dot was
moved, and that of the completed one. -/
def ends? (c : Chart π α) (link : Link) : Option (Record π α × Record π α) :=
  (c.record? link.predecessor).bind fun before =>
    (link.completed?.bind c.record?).map fun child => (before, child)

theorem Indexed.mem_recordsAt (h : c.Indexed) : r ∈ c.recordsAt position ↔
    ∃ id, c.record? id = some r ∧ r.state.position = position := by
  simp only [recordsAt, List.mem_filterMap, Array.mem_toList_iff, h.mem_statesAt]
  constructor
  · rintro ⟨id, ⟨r', hr', hposition⟩, hr⟩
    obtain rfl : r' = r := Option.some.inj (hr'.symm.trans hr)
    exact ⟨id, hr, hposition⟩
  · rintro ⟨id, hr, hposition⟩
    exact ⟨id, ⟨r, hr, hposition⟩, hr⟩

/-- No two records at a position have the same state. -/
theorem Indexed.pairwise_recordsAt (h : c.Indexed) (position : Nat) :
    (c.recordsAt position).Pairwise fun r r' => r.state.item ≠ r'.state.item := by
  rw [recordsAt, List.pairwise_filterMap]
  refine (h.nodup_statesAt position).imp ?_
  intro id id' hne r hr r' hr' hitem
  exact hne (h.id_unique hr hr' hitem)

theorem Indexed.mem_predictors (h : c.Indexed) {x : String × Record π α} :
    x ∈ c.predictors position ↔ ∃ id, c.record? id = some x.2 ∧ x.2.state.position = position ∧
      x.2.state.active? = some (.nonterminal x.1) ∧ x.2.state.isPredicted = false := by
  obtain ⟨source, r⟩ := x
  simp only [predictors, List.mem_filterMap, h.mem_recordsAt, Option.map_eq_some_iff,
    State.predicts?_eq_some, Prod.mk.injEq]
  constructor
  · rintro ⟨_, ⟨id, hr, hposition⟩, _, hpredicts, rfl, rfl⟩
    exact ⟨id, hr, hposition, hpredicts⟩
  · rintro ⟨id, hr, hposition, hpredicts⟩
    exact ⟨r, ⟨id, hr, hposition⟩, source, hpredicts, rfl, rfl⟩

theorem Indexed.pairwise_predictors (h : c.Indexed) (position : Nat) :
    (c.predictors position).Pairwise fun x y => x.2.state.item ≠ y.2.state.item := by
  rw [predictors, List.pairwise_filterMap]
  refine (h.pairwise_recordsAt position).imp ?_
  intro r r' hne x hx y hy
  obtain ⟨_, -, rfl⟩ := Option.map_eq_some_iff.1 hx
  obtain ⟨_, -, rfl⟩ := Option.map_eq_some_iff.1 hy
  exact hne

theorem ends?_eq_some {link : Link} {e : Record π α × Record π α} : c.ends? link = some e ↔
    ∃ child, link = .completed link.predecessor child ∧
      c.record? link.predecessor = some e.1 ∧ c.record? child = some e.2 := by
  obtain ⟨before, completed⟩ := e
  obtain ⟨predecessor, child?⟩ := link
  cases child? <;> simp [ends?, Link.completed, Option.bind_eq_some_iff]

end Chart

namespace Parser

variable [Number π] {p : Parser π α} {tokens : List (Token τ)} {options : ParseOptions τ α}
  {c : Chart π α} {id : StateId} {r : Record π α}

/-- **The equations of a record**: how its scores come from those of other records. -/
structure Equations (p : Parser π α) (options : ParseOptions τ α) (tokens : List (Token τ))
    (c : Chart π α) (r : Record π α) : Prop where
  top : r.state.dot = 0 → r.state.isPredicted = false →
    r.forward = p.algebra.one ∧ r.inner = p.algebra.one
  /-- A predicted rule has its probability, and what predicts it comes in with the weight of the
  left corner. -/
  predicted : r.state.isPredicted = true → ∃ left, r.state.rule.left = .nonterminal left ∧
    r.inner = p.algebra.ofProbability r.state.rule.probability ∧
    r.forward = p.algebra.sum ((c.predictors r.state.position).map fun k =>
      p.algebra.times (p.algebra.times k.2.forward (p.corners.weightTo p.algebra k.1 left))
        (p.algebra.ofProbability r.state.rule.probability))
  /-- Behind a token both scores are weighed. -/
  scanned : ∀ w, .scanned w ∈ r.links → ∃ before token, c.record? w = some before ∧
    r.state.position = before.state.position + 1 ∧
    tokens[before.state.position]? = some token ∧
    r.forward = Scan.reweigh p.algebra (options.weightOf? before.state.position token)
      before.forward ∧
    r.inner = Scan.reweigh p.algebra (options.weightOf? before.state.position token) before.inner
  /-- Behind a nonterminal all links come in. -/
  completed : r.state.dot ≠ 0 → (∀ w, .scanned w ∉ r.links) →
    (∀ link ∈ r.links, ∃ e, c.ends? link = some e) ∧
    r.forward = p.algebra.sum ((r.links.filterMap c.ends?).map fun e =>
      p.algebra.times e.1.forward e.2.inner) ∧
    r.inner = p.algebra.sum ((r.links.filterMap c.ends?).map fun e =>
      p.algebra.times e.1.inner e.2.inner)

/-! ## The ends of links -/

/-- A link of a token tells of a state that expected it. -/
theorem LeadsTo.of_scanned {s : State π} {w : StateId}
    (h : p.LeadsTo tokens c id s (some (.scanned w))) : ∃ before token category,
      c.record? w = some before ∧ tokens[before.state.position]? = some token ∧
      before.state.active? = some category ∧ token.isA category = true ∧
      before.state.advance (before.state.position + 1) = .ok (some s) := by
  generalize hlink : some (Link.scanned w) = link? at h
  cases h with
  | predict => simp at hlink
  | complete => simp [Link.scanned, Link.completed] at hlink
  | @scan _ before token category _ hr htoken hactive hisA hnext =>
    obtain ⟨rfl, -⟩ := Link.mk.inj (Option.some.inj hlink)
    exact ⟨before, token, category, hr, htoken, hactive, hisA, hnext⟩

namespace Finished

variable {dot : Nat} {name : String} {link : Link}

/-- A link behind a nonterminal names two records. -/
theorem exists_ends (h : p.Finished tokens c) (hr : c.record? id = some r)
    (hdot : r.state.dot = dot + 1)
    (hcategory : r.state.rule.right[dot]? = some (.nonterminal name)) (hlink : link ∈ r.links) :
    ∃ e, c.ends? link = some e := by
  obtain ⟨w, child, middle, rfl, ⟨before, hbefore, -⟩, ⟨completed, hchild, -⟩⟩ :=
    (((h.packs hr).completed dot name hdot hcategory).2.2 link).1 hlink
  exact ⟨(before, completed), Chart.ends?_eq_some.2 ⟨child, rfl, hbefore, hchild⟩⟩

/-- They are a state with the dot before the nonterminal and a completed rule of it. -/
theorem ends_items (h : p.Finished tokens c) (hr : c.record? id = some r)
    (hdot : r.state.dot = dot + 1)
    (hcategory : r.state.rule.right[dot]? = some (.nonterminal name)) (hlink : link ∈ r.links)
    {e : Record π α × Record π α} (he : c.ends? link = some e) :
    e.1.state.item = ⟨r.state.rule.toProduction, e.2.state.origin, r.state.origin, dot⟩ ∧
      e.2.state.item = ⟨e.2.state.rule.toProduction, r.state.position, e.2.state.origin,
        e.2.state.rule.toProduction.length⟩ ∧
      e.2.state.origin < r.state.position ∧
      e.2.state.rule.toProduction ∈ p.grammar.productionsFor name := by
  obtain ⟨w, child, middle, rfl, ⟨before, hbefore, hitem⟩,
    ⟨completed, hchild, hdone, hleft, rfl, hposition⟩⟩ :=
    (((h.packs hr).completed dot name hdot hcategory).2.2 link).1 hlink
  obtain rfl : (before, completed) = e := by
    rw [← Option.some_inj, ← he]
    exact (Chart.ends?_eq_some.2 ⟨child, rfl, hbefore, hchild⟩).symm
  obtain ⟨hlt, hproduction, hlast⟩ := (h.admits child completed hchild).completes_iff.1
    ⟨hdone, hleft.symm⟩
  refine ⟨hitem, ?_, hposition ▸ hlt, hproduction⟩
  rw [← hlast, ← hposition]
  rfl

/-- The completed state of a link tells where the other one ends, so that it tells the link. -/
theorem pairwise_ends (h : p.Finished tokens c) (hr : c.record? id = some r)
    (hdot : r.state.dot = dot + 1)
    (hcategory : r.state.rule.right[dot]? = some (.nonterminal name)) :
    (r.links.filterMap c.ends?).Pairwise fun e e' =>
      (e.2.state.origin, e.2.state.rule.toProduction) ≠
        (e'.2.state.origin, e'.2.state.rule.toProduction) := by
  rw [List.pairwise_filterMap]
  refine (h.linked id r hr).nodup.imp_of_mem fun {link link'} hlink hlink' hne e he e' he' heq => ?_
  obtain ⟨horigin, hproduction⟩ := Prod.mk.inj heq
  obtain ⟨hbefore, hchild, -⟩ := h.ends_items hr hdot hcategory hlink he
  obtain ⟨hbefore', hchild', -⟩ := h.ends_items hr hdot hcategory hlink' he'
  obtain ⟨child, hcompleted, hw, hr⟩ := Chart.ends?_eq_some.1 he
  obtain ⟨child', hcompleted', hw', hr'⟩ := Chart.ends?_eq_some.1 he'
  rw [horigin] at hbefore
  rw [horigin, hproduction] at hchild
  apply hne
  rw [hcompleted, hcompleted', h.indexed.id_unique hw hw' (hbefore.trans hbefore'.symm),
    h.indexed.id_unique hr hr' (hchild.trans hchild'.symm)]

/-- The top state is the only one that was neither predicted nor moved. -/
theorem item_eq_top (h : p.Finished tokens c) (hr : c.record? id = some r)
    (hdot : r.state.dot = 0) (hleft : r.state.rule.left = .start) :
    r.state.item = (State.begin p.grammar.topRule 0).item := by
  have hadmits := h.admits id r hr
  obtain ⟨hrule, horigin⟩ : r.state.rule = p.grammar.topRule ∧ r.state.origin = 0 :=
    hadmits.rule.resolve_left fun hrule => Grammar.left_ne_start hrule hleft
  rw [State.item, hrule, ← hadmits.dot_eq_zero_iff.1 hdot, horigin, hdot]
  rfl

end Finished

section Values

variable [p.algebra.IsSemiring] {position : Nat} {passed : Item → p.algebra.Members}

/-! ## What predicts a rule -/

/-- What has been passed on and predicts a nonterminal is what the records that predict it hold. -/
theorem sum_items_reach (hc : p.Sound tokens c) (target : String) :
    ∑ i ∈ p.grammar.items position, (c.turn .forward).value p.algebra i * p.reach i target =
      ((c.predictors position).map fun k => p.algebra.lift k.2.forward *
        p.algebra.lift (p.corners.weightTo p.algebra k.1 target)).sum := by
  rw [sum_eq_sum_map (hc.indexed.pairwise_predictors position)]
  · refine congrArg List.sum (List.map_congr_left fun k hk => ?_)
    obtain ⟨id, hr, -, hactive, hpredicted⟩ := hc.indexed.mem_predictors.1 hk
    rw [Chart.value_turn .forward hc.indexed hr, reach_of_active? hactive hpredicted]
    rfl
  · intro k hk
    obtain ⟨id, hr, hposition, -⟩ := hc.indexed.mem_predictors.1 hk
    exact (hc.admits id k.2 hr).item_mem_items_iff.2 hposition.symm
  · intro i hi hne
    rcases c.exists_or_forall_ne i with ⟨id, r, hr, rfl⟩ | hnone
    · rw [reach_eq_zero (fun source hactive => ?_), mul_zero]
      rw [← Bool.not_eq_false]
      intro hpredicted
      have hposition := (hc.admits id r hr).item_mem_items_iff.1 hi
      exact hne (source, r)
        (hc.indexed.mem_predictors.2 ⟨id, hr, hposition.symm, hactive, hpredicted⟩) rfl
    · rw [Chart.value_turn_eq_zero .forward hnone, zero_mul]

/-! ## What links tell -/

/-- What has come in behind a nonterminal is what the links tell of. -/
theorem Finished.sum_links (h : p.Finished tokens c) (hr : c.record? id = some r) {dot : Nat}
    {name : String} (hdot : r.state.dot = dot + 1)
    (hcategory : r.state.rule.right[dot]? = some (.nonterminal name)) (side : Side) :
    ∑ k ∈ Finset.range r.state.position, ∑ q ∈ p.grammar.productionsFor name,
        (c.turn side).value p.algebra ⟨r.state.rule.toProduction, k, r.state.origin, dot⟩ *
          c.value p.algebra ⟨q, r.state.position, k, q.length⟩ =
      ((r.links.filterMap c.ends?).map fun e =>
        p.algebra.lift (e.1.scoreOn side) * p.algebra.lift e.2.inner).sum := by
  rw [← Finset.sum_product', sum_eq_sum_map (f := fun x =>
    (c.turn side).value p.algebra ⟨r.state.rule.toProduction, x.1, r.state.origin, dot⟩ *
      c.value p.algebra ⟨x.2, r.state.position, x.1, x.2.length⟩)
    (h.pairwise_ends hr hdot hcategory)]
  · refine congrArg List.sum (List.map_congr_left fun e he => ?_)
    obtain ⟨link, hlink, he⟩ := List.mem_filterMap.1 he
    obtain ⟨hbefore, hchild, -⟩ := h.ends_items hr hdot hcategory hlink he
    obtain ⟨child, -, hw, hr⟩ := Chart.ends?_eq_some.1 he
    rw [← hbefore, ← hchild, Chart.value_turn side h.indexed hw,
      Chart.value_of_record? h.indexed hr rfl]
  · intro e he
    obtain ⟨link, hlink, he⟩ := List.mem_filterMap.1 he
    obtain ⟨-, -, hlt, hproduction⟩ := h.ends_items hr hdot hcategory hlink he
    exact Finset.mem_product.2 ⟨Finset.mem_range.2 hlt, hproduction⟩
  · rintro ⟨k, q⟩ hkq hne
    obtain ⟨hk, hq⟩ := Finset.mem_product.1 hkq
    rcases c.exists_or_forall_ne ⟨r.state.rule.toProduction, k, r.state.origin, dot⟩ with
      ⟨w, before, hw, hbefore⟩ | hnone
    · rcases c.exists_or_forall_ne ⟨q, r.state.position, k, q.length⟩ with
        ⟨child, completed, hchild, hitem⟩ | hnone
      · -- Both are in the chart, so that there is a link.
        obtain ⟨hproduction, hposition, horigin, hlast⟩ := Item.mk.inj hitem
        have hdone : completed.state.isCompleted = true ∧
            .nonterminal name = completed.state.rule.left := by
          rw [(h.admits child completed hchild).completes_iff, hproduction, hposition, horigin]
          exact ⟨Finset.mem_range.1 hk, hq, hlast⟩
        have hlink : .completed w child ∈ r.links :=
          (((h.packs hr).completed dot name hdot hcategory).2.2 _).2 ⟨w, child, k, rfl,
            ⟨before, hw, hbefore⟩, completed, hchild, hdone.1, hdone.2.symm, horigin, hposition⟩
        have hmem : (before, completed) ∈ r.links.filterMap c.ends? :=
          List.mem_filterMap.2 ⟨_, hlink, Chart.ends?_eq_some.2 ⟨child, rfl, hw, hchild⟩⟩
        exact absurd (Prod.ext horigin hproduction) (hne _ hmem)
      · rw [Chart.value_eq_zero hnone, mul_zero]
    · rw [Chart.value_turn_eq_zero side hnone, zero_mul]

/-! ## The scores of a record -/

variable {side : Side}

/-- The top state scores one. -/
theorem Finished.scoreOn_top (h : p.Finished tokens c)
    (hmembers : (c.turn side).InnerMembers p.algebra)
    (htop : (c.turn side).value p.algebra (State.begin p.grammar.topRule 0).item = 1)
    (hr : c.record? id = some r) (hdot : r.state.dot = 0)
    (hpredicted : r.state.isPredicted = false) : r.scoreOn side = p.algebra.one := by
  have hstart : r.state.rule.left = .start := by
    simpa [State.isPredicted, hdot] using hpredicted
  rw [← ScoreAlgebra.lift_inj (hmembers.scoreOn hr) ScoreAlgebra.IsSemiring.one_mem,
    ScoreAlgebra.lift_one, ← htop, ← h.item_eq_top hr hdot hstart]
  exact (Chart.value_turn side h.indexed hr).symm

/-- Behind a token a score is weighed. -/
theorem Finished.scoreOn_scanned (h : p.Finished tokens c)
    (hmembers : (c.turn side).InnerMembers p.algebra) (hoptions : options.WeighsIn p.algebra)
    (hcarries : p.Carries options tokens tokens.length ((c.turn side).value p.algebra) passed)
    (hr : c.record? id = some r) {w : StateId} {before : Record π α} {token : Token τ}
    {category : Category} (hbefore : c.record? w = some before)
    (htoken : tokens[before.state.position]? = some token)
    (hactive : before.state.active? = some category) (hisA : token.isA category = true)
    (hnext : before.state.advance (before.state.position + 1) = .ok (some r.state)) :
    r.scoreOn side = Scan.reweigh p.algebra (options.weightOf? before.state.position token)
      (before.scoreOn side) := by
  obtain ⟨hmember, hlift⟩ := hoptions.composes before.state.position token _
    (hmembers.scoreOn hbefore)
  obtain ⟨hrule, hposition, horigin, hdot⟩ := State.advance_eq_some_iff.1 hnext
  have hitem : before.state.item.next = r.state.item := by
    rw [State.item, Item.next, State.item, hrule, hposition, horigin, hdot]
  have hvalue : (c.turn side).value p.algebra before.state.item.next =
      (c.turn side).value p.algebra before.state.item *
        tokenWeight p.algebra options tokens before.state.position :=
    hcarries.next (Item.reads_iff.2 ⟨token, category, htoken, hactive, hisA⟩)
  rw [hitem, Chart.value_turn side h.indexed hr, Chart.value_turn side h.indexed hbefore,
    tokenWeight, htoken] at hvalue
  rw [← ScoreAlgebra.lift_inj (hmembers.scoreOn hr) hmember, hlift, hvalue]

/-- Behind a nonterminal a score is what all links bring in. -/
theorem Finished.scoreOn_completed (h : p.Finished tokens c) (hinner : c.InnerMembers p.algebra)
    (hmembers : (c.turn side).InnerMembers p.algebra)
    (hcarries : p.Carries options tokens tokens.length ((c.turn side).value p.algebra)
      (c.value p.algebra)) (hr : c.record? id = some r) {dot : Nat} {name : String}
    (hdot : r.state.dot = dot + 1)
    (hcategory : r.state.rule.right[dot]? = some (.nonterminal name)) :
    r.scoreOn side = p.algebra.sum ((r.links.filterMap c.ends?).map fun e =>
      p.algebra.times (e.1.scoreOn side) e.2.inner) := by
  have hends : ∀ e ∈ r.links.filterMap c.ends?, p.algebra.member (e.1.scoreOn side) = true ∧
      p.algebra.member e.2.inner = true := by
    intro e he
    obtain ⟨link, -, he⟩ := List.mem_filterMap.1 he
    obtain ⟨child, -, hw, hr⟩ := Chart.ends?_eq_some.1 he
    exact ⟨hmembers.scoreOn hw, hinner child e.2 hr⟩
  have hterms : ∀ x ∈ (r.links.filterMap c.ends?).map fun e =>
      p.algebra.times (e.1.scoreOn side) e.2.inner, p.algebra.member x = true := by
    intro x hx
    obtain ⟨e, he, rfl⟩ := List.mem_map.1 hx
    exact ScoreAlgebra.IsSemiring.times_mem (hends e he).1 (hends e he).2
  have hitem : r.state.item =
      ⟨r.state.rule.toProduction, r.state.position, r.state.origin, dot + 1⟩ := by
    rw [State.item, hdot]
  rw [ScoreAlgebra.eq_sum_iff hterms (hmembers.scoreOn hr), ← Chart.value_turn side h.indexed hr,
    hitem, hcarries.completed hcategory (h.position_le id r hr),
    h.sum_links hr hdot hcategory side, List.map_map]
  refine congrArg List.sum (List.map_congr_left fun e he => ?_)
  exact (ScoreAlgebra.lift_times (hends e he).1 (hends e he).2).symm

/-- The forward score of a predicted state is what all that predict it bring in. -/
theorem Finished.forward_predicted (h : p.Finished tokens c)
    (hmembers : (c.turn .forward).InnerMembers p.algebra)
    (haccounts : p.ForwardAccounts options tokens tokens.length c passed
      ((c.turn .forward).value p.algebra)) (hr : c.record? id = some r) {left : String}
    (hpredicted : r.state.isPredicted = true) (hleft : r.state.rule.left = .nonterminal left) :
    r.forward = p.algebra.sum ((c.predictors r.state.position).map fun k =>
      p.algebra.times (p.algebra.times k.2.forward (p.corners.weightTo p.algebra k.1 left))
        (p.algebra.ofProbability r.state.rule.probability)) := by
  simp only [State.isPredicted, Bool.and_eq_true, beq_iff_eq, bne_iff_ne] at hpredicted
  obtain ⟨hdot, hstart⟩ := hpredicted
  have hrule : r.state.rule ∈ p.grammar.rules := (h.admits id r hr).mem_rules hstart
  have hprobability := Grammar.ofProbability_mem (S := p.algebra) hrule
  have hforward : ∀ k ∈ c.predictors r.state.position, p.algebra.member k.2.forward = true := by
    intro k hk
    obtain ⟨id, hr, -⟩ := h.indexed.mem_predictors.1 hk
    exact hmembers.scoreOn hr
  have hreach : ∀ k ∈ c.predictors r.state.position, p.algebra.member
      (p.algebra.times k.2.forward (p.corners.weightTo p.algebra k.1 left)) = true :=
    fun k hk => ScoreAlgebra.IsSemiring.times_mem (hforward k hk) (p.weightTo_mem k.1 left)
  have hterms : ∀ x ∈ (c.predictors r.state.position).map fun k =>
      p.algebra.times (p.algebra.times k.2.forward (p.corners.weightTo p.algebra k.1 left))
        (p.algebra.ofProbability r.state.rule.probability), p.algebra.member x = true := by
    intro x hx
    obtain ⟨k, hk, rfl⟩ := List.mem_map.1 hx
    exact ScoreAlgebra.IsSemiring.times_mem (hreach k hk) hprobability
  have hitem : r.state.item =
      ⟨r.state.rule.toProduction, r.state.position, r.state.position, 0⟩ := by
    rw [State.item, hdot, (h.admits id r hr).dot_eq_zero_iff.1 hdot]
  have hvalue := haccounts.predicted (m := r.state.position)
    (Grammar.mem_productionsFor.2 ⟨⟨r.state.rule, hrule, rfl⟩, hleft⟩)
  rw [← hitem, Chart.value_turn .forward h.indexed hr, Grammar.score_toProduction hrule,
    sum_items_reach h.toSound, ← List.sum_map_mul_right] at hvalue
  show r.scoreOn .forward = _
  rw [ScoreAlgebra.eq_sum_iff hterms (hmembers.scoreOn hr), List.map_map]
  refine hvalue.trans (congrArg List.sum (List.map_congr_left fun k hk => ?_))
  rw [Function.comp_apply, ScoreAlgebra.lift_times (hreach k hk) hprobability,
    ScoreAlgebra.lift_times (hforward k hk) (p.weightTo_mem k.1 left)]

end Values

end Parser

end SemiringParsing
