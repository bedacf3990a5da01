import SemiringParsing.Proofs.Chart.Items
import SemiringParsing.Proofs.Sweep.Balance
import SemiringParsing.Proofs.Sweep.Moves
import SemiringParsing.Proofs.Sweep.Side
import SemiringParsing.Proofs.Tree.Weight

/-!
# How the values of a chart are made up

`Parser.Accounts` says of which values the value of an item is made up while a parse goes on. The
value behind a token is the one before it, weighed. The value behind a nonterminal adds up, over all
states that complete it, the value before it times what has been passed on of the completed state.

What values behind dots are made up of is the same for both scores of a record. It is stated as
`Carries`, for any values. The rest of the accounts is of inner scores only.

Each step of a parse keeps the accounts. Passing on a contribution to a completed state moves dots
at the position that is being closed. The values before these dots belong to earlier positions and
are final. So what is added to the value behind the dot is what the new entry among those passed on
adds to the sum.
-/

namespace SemiringParsing

variable {π α τ : Type} [Number π]

/-- The completed states of a nonterminal are those whose dot is behind one of its rules. -/
theorem Grammar.Admits.completes_iff {G : Grammar π} {s : State π} (h : G.Admits s)
    {name : String} : s.isCompleted = true ∧ .nonterminal name = s.rule.left ↔
      s.origin < s.position ∧ s.rule.toProduction ∈ G.productionsFor name ∧
        s.dot = s.rule.toProduction.length := by
  rw [mem_productionsFor]
  constructor
  · rintro ⟨hcompleted, hleft⟩
    have hdot : s.dot = s.rule.toProduction.length := by
      simpa [State.isCompleted] using hcompleted
    have hmem : s.rule ∈ G.rules := h.mem_rules (by simp [← hleft])
    exact ⟨h.origin_lt_position_of_isCompleted hcompleted, ⟨⟨s.rule, hmem, rfl⟩, hleft.symm⟩, hdot⟩
  · rintro ⟨-, ⟨-, hleft⟩, hdot⟩
    have hcompleted : s.isCompleted = true := by
      simpa [State.isCompleted] using hdot
    exact ⟨hcompleted, hleft.symm⟩

namespace Parser

/-! ## Passing on -/

variable {p : Parser π α} {c : Chart π α} {d : Delta α} {r : Record π α} {position : Nat}

/-- The chart after a contribution has been passed on. -/
def chartAfter (p : Parser π α) (position : Nat) (c : Chart π α) (d : Delta α)
    (ds : List (Delta α)) : Chart π α :=
  (Ledger.addAll p.algebra ⟨c, ds⟩ (p.consequences position c d)).chart

theorem turn_chartAfter (side : Side) (c : Chart π α) (d : Delta α) (ds : List (Delta α)) :
    (p.chartAfter position c d ds).turn side = (Ledger.addAll p.algebra ⟨c.turn side, []⟩
      ((p.consequences position c d).map (Contribution.turn side))).chart :=
  Ledger.rescore_addAll (side.agrees_turn _) ..

section Values

variable {tokens : List (Token τ)} {ds : List (Delta α)} [p.algebra.IsSemiring]
  {passed : Item → p.algebra.Members} {i : Item}

/-- Passing on changes no values at other positions. -/
theorem value_chartAfter_of_ne (side : Side) (hc : p.Consistent position ⟨c, d :: ds⟩)
    (hne : i.position ≠ position) :
    ((p.chartAfter position c d ds).turn side).value p.algebra i =
      (c.turn side).value p.algebra i := by
  rw [turn_chartAfter]
  refine Ledger.value_addAll_of_forall_ne (l := ⟨c.turn side, []⟩) hc.indexed.rescore
    fun x hx hitem => hne ?_
  obtain ⟨y, hy, rfl⟩ := List.mem_map.1 hx
  obtain ⟨id, -, hposition⟩ := hc.consequences ([] : List (Token Unit)) y hy
  rw [← hitem]
  exact hposition

/-- What is passed on to has the inner score of a member. -/
theorem member_of_mem_consequences (hb : Ledger.Balanced p.algebra ⟨c, d :: ds⟩ passed)
    {x : Contribution π α} (hx : x ∈ p.consequences position c d) :
    p.algebra.member x.inner = true := by
  obtain ⟨hd, r, hr⟩ := hb.pending d List.mem_cons_self
  rcases p.consequences_cases position hr with
    ⟨-, heq⟩ | ⟨name, -, -, heq⟩ | ⟨-, heq⟩
  · rw [heq] at hx
    obtain ⟨id, -, w, hw, hinner, -⟩ := Chart.exists_of_mem_moved hx
    rw [hinner]
    exact ScoreAlgebra.IsSemiring.times_mem (hb.inner id w hw) hd
  · rw [heq] at hx
    obtain ⟨y, hy, rfl⟩ := List.mem_map.1 hx
    obtain ⟨corner, hcorner, hrule, -⟩ := LeftCorners.mem_openings.1 hy
    unfold Chart.prediction
    dsimp only
    split
    · exact ScoreAlgebra.IsSemiring.zero_mem
    · exact Grammar.ofProbability_mem (mem_rules_of_mem_reachableFrom hcorner hrule)
  · simp [heq] at hx

/-- The dots of the states that waited for a completed one are moved over it. -/
theorem value_chartAfter_succ (side : Side) (hc : p.Consistent position ⟨c, d :: ds⟩)
    (hmembers : (c.turn side).InnerMembers p.algebra) (hd : p.algebra.member d.inner = true)
    (hr : c.record? d.id = some r) {production : Production} {origin dot : Nat}
    {category : Category} (hcategory : production.right[dot]? = some category) :
    ((p.chartAfter position c d ds).turn side).value p.algebra
        ⟨production, position, origin, dot + 1⟩ =
      (c.turn side).value p.algebra ⟨production, position, origin, dot + 1⟩ +
        if r.state.isCompleted = true ∧ category = r.state.rule.left then
          (c.turn side).value p.algebra ⟨production, r.state.origin, origin, dot⟩ *
            p.algebra.lift d.inner
        else 0 := by
  have hposition : r.state.position = position := hc.position_eq hr
  have hindexed : (c.turn side).Indexed := hc.indexed.rescore
  rw [turn_chartAfter]
  rcases p.consequences_cases position hr with
    ⟨hcompleted, heq⟩ | ⟨name, hactive, -, heq⟩ | ⟨hopen, heq⟩
  · have hcompose : p.algebra.Composes (p.algebra.times · d.inner) (p.algebra.lift d.inner) :=
      fun a ha => ⟨ScoreAlgebra.IsSemiring.times_mem ha hd, ScoreAlgebra.lift_times ha hd⟩
    have hmoved := Ledger.value_moved [] (.completed · d.id) hindexed hmembers
      (hindexed.lists_activeOn r.state.origin r.state.rule.left) (hposition ▸ r.state.origin_le)
      hcompose origin hcategory
    rw [heq, Chart.completions, Chart.completion, Chart.map_turn_moved, hposition]
    refine hmoved.trans ?_
    simp [hcompleted]
  · have hopen : r.state.isCompleted = false := State.isCompleted_eq_false hactive
    rw [heq, Ledger.value_addAll_of_forall_ne (l := ⟨c.turn side, []⟩) hindexed, hopen]
    · simp
    · intro x hx hitem
      obtain ⟨y, hy, rfl⟩ := List.mem_map.1 hx
      obtain ⟨z, -, rfl⟩ := List.mem_map.1 hy
      exact absurd (congrArg Item.dot hitem) (Nat.succ_ne_zero dot).symm
  · rw [heq, hopen]
    simp

/-- Passing on changes nothing behind a token. -/
theorem value_chartAfter_scanned (side : Side) (hc : p.Consistent position ⟨c, d :: ds⟩)
    (hmembers : (c.turn side).InnerMembers p.algebra) (hd : p.algebra.member d.inner = true)
    (hr : c.record? d.id = some r) {production : Production} {origin dot k : Nat}
    {category : Category} (hcategory : production.right[dot]? = some category)
    (hne : ∀ name, category ≠ .nonterminal name) (hstart : category ≠ .start) (hk : k < position) :
    ((p.chartAfter position c d ds).turn side).value p.algebra
        ⟨production, k + 1, origin, dot + 1⟩ =
      (c.turn side).value p.algebra ⟨production, k + 1, origin, dot + 1⟩ := by
  rcases Nat.lt_or_ge (k + 1) position with hlt | hge
  · exact value_chartAfter_of_ne side hc (Nat.ne_of_lt hlt)
  · obtain rfl : k + 1 = position := by omega
    have hleft : ¬ (r.state.isCompleted = true ∧ category = r.state.rule.left) := by
      rintro ⟨-, rfl⟩
      obtain ⟨name, hname⟩ := Grammar.left_eq_nonterminal ((hc.admits _ r hr).mem_rules hstart)
      exact hne name hname
    rw [value_chartAfter_succ side hc hmembers hd hr hcategory, if_neg hleft, add_zero]

/-- No two rules are predicted as the same item. -/
theorem nodup_predictions (p : Parser π α) (position : Nat) (c : Chart π α) (name : String)
    (forward : α) :
    (((p.corners.openings p.algebra p.grammar (.nonterminal name) forward).map
      (c.prediction p.algebra position)).map fun x => x.state.item).Nodup := by
  have hopenings := LeftCorners.nodup_openings (S := p.algebra) (G := p.grammar)
    (p.nodup_reachableFrom (.nonterminal name)) forward
  rw [List.map_map]
  refine List.Nodup.of_map Item.production ?_
  rw [List.map_map]
  exact hopenings

/-- A predicted rule has its probability as its value, if it was not there. -/
theorem value_predictions (hc : p.Consistent position ⟨c, d :: ds⟩)
    (hb : Ledger.Balanced p.algebra ⟨c, d :: ds⟩ passed) {name : String}
    (heq : p.consequences position c d =
      (p.corners.openings p.algebra p.grammar (.nonterminal name) d.forward).map
        (c.prediction p.algebra position)) {x : α × Rule π}
    (hx : x ∈ p.corners.openings p.algebra p.grammar (.nonterminal name) d.forward) :
    (p.chartAfter position c d ds).value p.algebra (State.begin x.2 position).item =
      c.value p.algebra (State.begin x.2 position).item +
        p.algebra.lift (c.prediction p.algebra position x).inner := by
  have hmembers : ∀ x ∈ p.consequences position c d, p.algebra.member x.inner = true :=
    fun x hx => member_of_mem_consequences hb hx
  have hdistinct : ((p.consequences position c d).map fun x => x.state.item).Nodup :=
    heq ▸ p.nodup_predictions position c name d.forward
  have hmem : c.prediction p.algebra position x ∈ p.consequences position c d := by
    rw [heq]
    exact List.mem_map_of_mem hx
  exact Ledger.value_addAll (l := ⟨c, ds⟩) hc.indexed hb.inner hmembers hdistinct hmem

/-- Values of items that are there change behind dots only. -/
theorem value_chartAfter_zero (hc : p.Consistent position ⟨c, d :: ds⟩)
    (hb : Ledger.Balanced p.algebra ⟨c, d :: ds⟩ passed) {id : StateId} {s : Record π α}
    (hs : c.record? id = some s) (hdot : s.state.dot = 0) :
    (p.chartAfter position c d ds).value p.algebra s.state.item =
      c.value p.algebra s.state.item := by
  obtain ⟨-, r, hr⟩ := hb.pending d List.mem_cons_self
  rcases p.consequences_cases position hr with
    ⟨-, heq⟩ | ⟨name, -, -, heq⟩ | ⟨-, heq⟩
  · unfold chartAfter
    rw [heq]
    exact Ledger.value_moved_of_ne hc.indexed (.inr hdot)
  · by_cases hpredicted : ∃ x ∈ p.corners.openings p.algebra p.grammar (.nonterminal name) d.forward,
        (State.begin x.2 position).item = s.state.item
    · obtain ⟨x, hx, hitem⟩ := hpredicted
      have hid : c.id? (.begin x.2 position) = some id :=
        hc.indexed.id?_eq_some.2 ⟨s, hs, hitem.symm⟩
      rw [← hitem, value_predictions hc hb heq hx]
      simp [Chart.prediction, hid]
    · unfold chartAfter
      refine Ledger.value_addAll_of_forall_ne (l := ⟨c, ds⟩) hc.indexed fun x hx hitem => ?_
      rw [heq] at hx
      obtain ⟨y, hy, rfl⟩ := List.mem_map.1 hx
      exact hpredicted ⟨y, hy, hitem⟩
  · unfold chartAfter
    rw [heq]
    rfl

/-- A state in front of whose dot there is nothing was there, or its value is its probability. -/
theorem begun_chartAfter (hc : p.Consistent position ⟨c, d :: ds⟩)
    (hb : Ledger.Balanced p.algebra ⟨c, d :: ds⟩ passed) {id : StateId} {s : Record π α}
    (hs : (p.chartAfter position c d ds).record? id = some s) (hdot : s.state.dot = 0) :
    (∃ s', c.record? id = some s' ∧ s.state = s'.state) ∨
      (p.chartAfter position c d ds).value p.algebra s.state.item =
        p.algebra.lift (p.algebra.ofProbability s.state.rule.probability) := by
  obtain ⟨-, r, hr⟩ := hb.pending d List.mem_cons_self
  rcases Ledger.record?_addAll (l := ⟨c, ds⟩) hc.indexed hs with hold | ⟨⟨x, hx, hstate⟩, -⟩
  · exact .inl hold
  rcases p.consequences_cases position hr with
    ⟨-, heq⟩ | ⟨name, -, -, heq⟩ | ⟨-, heq⟩
  · rw [heq] at hx
    obtain ⟨_, -, _, -, -, hitem⟩ := Chart.exists_of_mem_moved hx
    rw [← hstate] at hitem
    exact absurd (hdot.symm.trans (congrArg Item.dot hitem)) (Nat.succ_ne_zero _).symm
  · rw [heq] at hx
    obtain ⟨y, hy, rfl⟩ := List.mem_map.1 hx
    have hbegin : s.state = .begin y.2 position := hstate
    rcases c.exists_or_forall_ne s.state.item with ⟨id', s', hs', hitem⟩ | hnone
    · -- It was there already, under the same number.
      obtain ⟨s'', hs'', hstate'', -⟩ :=
        Ledger.extends_addAll (l := ⟨c, ds⟩) p.algebra (p.consequences position c d)
          hc.indexed id' s' hs'
      have hindexed : (p.chartAfter position c d ds).Indexed := Ledger.indexed_addAll hc.indexed
      obtain rfl : id = id' := hindexed.id_unique hs hs'' (hstate''.symm ▸ hitem.symm)
      obtain rfl : s = s'' := Option.some.inj (hs.symm.trans hs'')
      exact .inl ⟨s', hs', hstate''⟩
    · have hid : c.id? (.begin y.2 position) = none := by
        rw [← hbegin]
        exact hc.indexed.id?_eq_none.2 hnone
      have hvalue := value_predictions hc hb heq hy
      rw [← hbegin, Chart.value_eq_zero hnone, zero_add] at hvalue
      rw [hvalue, Chart.prediction, hid, hbegin]
      exact .inr rfl
  · simp [heq] at hx

end Values

/-! ## Scanning -/

section Readings

variable {options : ParseOptions τ α} {token : Token τ}

/-- The chart after a token has been scanned. -/
def chartBehind (p : Parser π α) (options : ParseOptions τ α) (position : Nat) (token : Token τ)
    (c : Chart π α) : Chart π α :=
  (Ledger.addAll p.algebra ⟨c, []⟩ (c.readings p.algebra options position token)).chart

theorem turn_chartBehind (side : Side) (c : Chart π α) :
    (p.chartBehind options position token c).turn side = (Ledger.addAll p.algebra ⟨c.turn side, []⟩
      (((c.statesAt position).toList.filter (Sweep.expects c token)).filterMap
        ((c.turn side).reading p.algebra (options.weightOf? position token) (position + 1)))).chart := by
  rw [chartBehind, Chart.turn, Ledger.rescore_addAll (side.agrees_turn _) _ _ [], Chart.readings,
    Chart.reading, Chart.map_turn_moved]
  rfl

variable [p.algebra.IsSemiring] {i : Item}

/-- Scanning changes values behind the token only. -/
theorem value_chartBehind_of_ne (side : Side) (hc : p.Consistent position ⟨c, []⟩)
    (hi : i.position ≠ position + 1 ∨ i.dot = 0) :
    ((p.chartBehind options position token c).turn side).value p.algebra i =
      (c.turn side).value p.algebra i := by
  rw [turn_chartBehind]
  exact Ledger.value_moved_of_ne hc.indexed.rescore hi

/-- The dots of the states that expect the token are moved over it. -/
theorem value_chartBehind_succ (side : Side) (hc : p.Consistent position ⟨c, []⟩)
    (hmembers : (c.turn side).InnerMembers p.algebra) (hoptions : options.WeighsIn p.algebra)
    {production : Production} {origin dot : Nat} {category : Category}
    (hcategory : production.right[dot]? = some category) :
    ((p.chartBehind options position token c).turn side).value p.algebra
        ⟨production, position + 1, origin, dot + 1⟩ =
      if token.isA category = true then
        (c.turn side).value p.algebra ⟨production, position, origin, dot⟩ *
          p.algebra.lift (options.tokenScore p.algebra position token)
      else 0 := by
  have hexpects : Sweep.expects (c.turn side) token = Sweep.expects c token := by
    funext id
    exact Chart.expects_rescore token id
  have hindexed : (c.turn side).Indexed := hc.indexed.rescore
  have hids := hindexed.lists_expects position token
  have hzero : (c.turn side).value p.algebra ⟨production, position + 1, origin, dot + 1⟩ = 0 :=
    Chart.value_turn_eq_zero side (hc.forall_ne (Nat.lt_succ_self position))
  rw [hexpects] at hids
  have hmoved := Ledger.value_moved [] Link.scanned hindexed hmembers hids (Nat.le_succ position)
    (hoptions.composes position token) origin hcategory
  rw [hzero, zero_add] at hmoved
  rw [turn_chartBehind]
  exact hmoved

end Readings

/-! ## Accounts -/

section Accounts

variable [p.algebra.IsSemiring] {options : ParseOptions τ α} {tokens : List (Token τ)}
  {passed : Item → p.algebra.Members} {ds : List (Delta α)}

/-- What the values behind a dot are made up of, at the positions up to one. -/
structure Carries (p : Parser π α) [p.algebra.IsSemiring] (options : ParseOptions τ α)
    (tokens : List (Token τ)) (position : Nat) (value passed : Item → p.algebra.Members) :
    Prop where
  /-- Behind a token that can be read as what was expected its weight has come in. -/
  scanned : ∀ {production : Production} {origin dot k : Nat} {category : Category},
    production.right[dot]? = some category → (∀ name, category ≠ .nonterminal name) →
    category ≠ .start → k < position →
    value ⟨production, k + 1, origin, dot + 1⟩ =
      if (tokens[k]?.any (·.isA category)) = true then
        value ⟨production, k, origin, dot⟩ * tokenWeight p.algebra options tokens k
      else 0
  /-- Behind a nonterminal everything passed on that completes it has come in. -/
  completed : ∀ {production : Production} {origin dot m : Nat} {name : String},
    production.right[dot]? = some (.nonterminal name) → m ≤ position →
    value ⟨production, m, origin, dot + 1⟩ =
      ∑ k ∈ Finset.range m, ∑ q ∈ p.grammar.productionsFor name,
        value ⟨production, k, origin, dot⟩ * passed ⟨q, m, k, q.length⟩

/-- What is counted as passed on of one item changes the sum by one term, or not at all. -/
theorem sum_passed_add_single (f : Nat → p.algebra.Members) (i : Item) (weight : p.algebra.Members)
    (m : Nat) (name : String) :
    ∑ k ∈ Finset.range m, ∑ q ∈ p.grammar.productionsFor name,
        f k * (passed + Pi.single i weight : Item → p.algebra.Members) ⟨q, m, k, q.length⟩ =
      (∑ k ∈ Finset.range m, ∑ q ∈ p.grammar.productionsFor name,
        f k * passed ⟨q, m, k, q.length⟩) +
      if i.position = m ∧ i.origin < m ∧ i.production ∈ p.grammar.productionsFor name ∧
        i.dot = i.production.length then f i.origin * weight else 0 := by
  simp only [Pi.add_apply, mul_add, Finset.sum_add_distrib]
  congr 1
  split
  · next h =>
    obtain ⟨hposition, horigin, hproduction, hdot⟩ := h
    have hi : i = ⟨i.production, m, i.origin, i.production.length⟩ := by
      rw [← hposition, ← hdot]
    rw [Finset.sum_eq_single i.origin, Finset.sum_eq_single i.production]
    · rw [← hi, Pi.single_eq_same]
    · intro q _ hne
      rw [Pi.single_eq_of_ne fun heq => hne (congrArg Item.production heq), mul_zero]
    · exact fun h => absurd hproduction h
    · intro k _ hne
      refine Finset.sum_eq_zero fun q _ => ?_
      rw [Pi.single_eq_of_ne fun heq => hne (congrArg Item.origin heq), mul_zero]
    · exact fun h => absurd (Finset.mem_range.2 horigin) h
  · next h =>
    refine Finset.sum_eq_zero fun k hk => Finset.sum_eq_zero fun q hq => ?_
    rw [Pi.single_eq_of_ne, mul_zero]
    rintro rfl
    exact h ⟨rfl, Finset.mem_range.1 hk, hq, rfl⟩

namespace Carries

/-- Behind a token that an item reads its weight has come in. -/
theorem next {value passed : Item → p.algebra.Members} {i : Item}
    (h : p.Carries options tokens tokens.length value passed) (hreads : i.reads tokens = true) :
    value i.next = value i * tokenWeight p.algebra options tokens i.position := by
  obtain ⟨token, category, htoken, hactive, hisA⟩ := Item.reads_iff.1 hreads
  have hvalue : value i.next = if (tokens[i.position]?.any (·.isA category)) = true then
      value i * tokenWeight p.algebra options tokens i.position else 0 :=
    h.scanned hactive (Token.ne_nonterminal_of_isA hisA) (Token.ne_start_of_isA hisA)
      (List.getElem?_eq_some_iff.1 htoken).1
  rw [hvalue, htoken, Option.any_some, if_pos hisA]

/-- Passing on a contribution changes what is behind dots by what it is made up of. -/
theorem pass (side : Side)
    (h : p.Carries options tokens position ((c.turn side).value p.algebra) passed)
    (hc : p.Consistent position ⟨c, d :: ds⟩) (hmembers : (c.turn side).InnerMembers p.algebra)
    (hd : p.algebra.member d.inner = true) (hr : c.record? d.id = some r) :
    p.Carries options tokens position
      (((p.chartAfter position c d ds).turn side).value p.algebra)
      (passed + Pi.single r.state.item (p.algebra.lift d.inner)) where
  scanned {production origin dot k category} hcategory hne hstart hk := by
    rw [value_chartAfter_scanned side hc hmembers hd hr hcategory hne hstart hk,
      h.scanned hcategory hne hstart hk, value_chartAfter_of_ne side hc (Nat.ne_of_lt hk)]
  completed {production origin dot m name} hcategory hm := by
    have hposition : r.state.position = position := hc.position_eq hr
    have hsum : ∀ k ∈ Finset.range m, ((p.chartAfter position c d ds).turn side).value p.algebra
        ⟨production, k, origin, dot⟩ =
          (c.turn side).value p.algebra ⟨production, k, origin, dot⟩ := by
      intro k hk
      have := Finset.mem_range.1 hk
      refine value_chartAfter_of_ne side hc (show k ≠ position from ?_)
      omega
    rw [Finset.sum_congr rfl fun k hk => by rw [hsum k hk],
      sum_passed_add_single (fun k => (c.turn side).value p.algebra ⟨production, k, origin, dot⟩),
      ← h.completed hcategory hm]
    rcases Nat.lt_or_eq_of_le hm with hlt | rfl
    · have hne : r.state.item.position ≠ m := by
        rw [State.item, hposition]
        exact Nat.ne_of_gt hlt
      rw [value_chartAfter_of_ne side hc (Nat.ne_of_lt hlt), if_neg fun h => hne h.1, add_zero]
    · rw [value_chartAfter_succ side hc hmembers hd hr hcategory]
      congr 1
      refine if_congr ?_ rfl rfl
      rw [(hc.admits _ r hr).completes_iff, hposition]
      exact (and_iff_right hposition).symm

/-- Scanning a token brings in its weight behind it. -/
theorem scan (side : Side)
    (h : p.Carries options tokens position ((c.turn side).value p.algebra) passed)
    (hc : p.Consistent position ⟨c, []⟩) (hmembers : (c.turn side).InnerMembers p.algebra)
    (habsent : ∀ i : Item, position < i.position → passed i = 0)
    (hoptions : options.WeighsIn p.algebra) {token : Token τ}
    (htoken : tokens[position]? = some token) :
    p.Carries options tokens (position + 1)
      (((p.chartBehind options position token c).turn side).value p.algebra) passed where
  scanned {production origin dot k category} hcategory hne hstart hk := by
    have hbefore : k ≠ position + 1 := by omega
    rw [value_chartBehind_of_ne side (i := ⟨production, k, origin, dot⟩) hc (.inl hbefore)]
    rcases Nat.lt_or_eq_of_le (Nat.le_of_lt_succ hk) with hlt | rfl
    · have hbehind : k + 1 ≠ position + 1 := by omega
      rw [value_chartBehind_of_ne side hc (.inl hbehind), h.scanned hcategory hne hstart hlt]
    · rw [value_chartBehind_succ side hc hmembers hoptions hcategory]
      simp [htoken, tokenWeight]
  completed {production origin dot m name} hcategory hm := by
    have hsum : ∀ k ∈ Finset.range m,
        ((p.chartBehind options position token c).turn side).value p.algebra
          ⟨production, k, origin, dot⟩ =
          (c.turn side).value p.algebra ⟨production, k, origin, dot⟩ := by
      intro k hk
      have hlt := Finset.mem_range.1 hk
      have hbefore : k ≠ position + 1 := by omega
      exact value_chartBehind_of_ne side hc (.inl hbefore)
    rw [Finset.sum_congr rfl fun k hk => by rw [hsum k hk]]
    rcases Nat.lt_or_eq_of_le hm with hlt | rfl
    · rw [value_chartBehind_of_ne side hc (.inl (Nat.ne_of_lt hlt)),
        h.completed hcategory (Nat.le_of_lt_succ hlt)]
    · -- Nothing that ends behind the token was there to be passed on.
      rw [value_chartBehind_succ side hc hmembers hoptions hcategory, Token.isA_nonterminal,
        if_neg Bool.false_ne_true]
      refine (Finset.sum_eq_zero fun k _ => Finset.sum_eq_zero fun q _ => ?_).symm
      rw [habsent _ (Nat.lt_succ_self position), mul_zero]

end Carries

/-- What the values of a chart are made up of, at the positions up to one. -/
structure Accounts (p : Parser π α) [p.algebra.IsSemiring] (options : ParseOptions τ α)
    (tokens : List (Token τ)) (position : Nat) (c : Chart π α)
    (passed : Item → p.algebra.Members) : Prop
    extends p.Carries options tokens position (c.value p.algebra) passed where
  top : c.value p.algebra (State.begin p.grammar.topRule 0).item = 1
  /-- A rule of which nothing is matched has its probability. -/
  begun : ∀ {id r}, c.record? id = some r → r.state.dot = 0 → r.state.rule ∈ p.grammar.rules →
    c.value p.algebra r.state.item =
      p.algebra.lift (p.algebra.ofProbability r.state.rule.probability)

/-- Passing on a contribution keeps the accounts. -/
theorem Accounts.pass (h : p.Accounts options tokens position c passed)
    (hc : p.Consistent position ⟨c, d :: ds⟩)
    (hb : Ledger.Balanced p.algebra ⟨c, d :: ds⟩ passed) (hr : c.record? d.id = some r)
    (htop : ∃ id s, c.record? id = some s ∧ s.state = .begin p.grammar.topRule 0) :
    p.Accounts options tokens position (p.chartAfter position c d ds)
      (passed + Pi.single r.state.item (p.algebra.lift d.inner)) := by
  have hmembers : (c.turn .inner).InnerMembers p.algebra := c.turn_inner.symm ▸ hb.inner
  have hbefore : p.Carries options tokens position ((c.turn .inner).value p.algebra) passed :=
    c.turn_inner.symm ▸ h.toCarries
  have hcarries := hbefore.pass .inner hc hmembers (hb.pending d List.mem_cons_self).1 hr
  rw [Chart.turn_inner] at hcarries
  refine ⟨hcarries, ?_, fun {id s} hs hdot hrule => ?_⟩
  · obtain ⟨id, s, hs, hstate⟩ := htop
    have hzero := value_chartAfter_zero hc hb hs (by rw [hstate]; rfl)
    rw [hstate] at hzero
    rw [hzero, h.top]
  · rcases begun_chartAfter hc hb hs hdot with ⟨s', hs', hstate⟩ | hvalue
    · rw [hstate] at hdot hrule ⊢
      rw [value_chartAfter_zero hc hb hs' hdot]
      exact h.begun hs' hdot hrule
    · exact hvalue

/-- Scanning a token keeps the accounts. -/
theorem Accounts.scan (h : p.Accounts options tokens position c passed)
    (hc : p.Consistent position ⟨c, []⟩) (hb : Ledger.Balanced p.algebra ⟨c, []⟩ passed)
    (hoptions : options.WeighsIn p.algebra) {token : Token τ}
    (htoken : tokens[position]? = some token) :
    p.Accounts options tokens (position + 1) (p.chartBehind options position token c) passed := by
  have hmembers : (c.turn .inner).InnerMembers p.algebra := c.turn_inner.symm ▸ hb.inner
  have hbefore : p.Carries options tokens position ((c.turn .inner).value p.algebra) passed :=
    c.turn_inner.symm ▸ h.toCarries
  have hcarries := hbefore.scan .inner hc hmembers
    (fun i hi => hb.absent i (hc.forall_ne hi)) hoptions htoken
  have hsame : ∀ i : Item, i.dot = 0 →
      (p.chartBehind options position token c).value p.algebra i = c.value p.algebra i := by
    intro i hi
    have hvalue : ((p.chartBehind options position token c).turn .inner).value p.algebra i =
        (c.turn .inner).value p.algebra i :=
      value_chartBehind_of_ne .inner hc (.inr hi)
    rw [Chart.turn_inner, Chart.turn_inner] at hvalue
    exact hvalue
  rw [Chart.turn_inner] at hcarries
  refine ⟨hcarries, ?_, fun {id r} hr hdot hrule => ?_⟩
  · rw [hsame _ rfl, h.top]
  · rcases Ledger.record?_addAll (l := ⟨c, []⟩) hc.indexed hr with
      ⟨r', hr', hstate⟩ | ⟨⟨x, hx, hstate⟩, -⟩
    · rw [hsame _ hdot]
      rw [hstate] at hdot hrule ⊢
      exact h.begun hr' hdot hrule
    · obtain ⟨_, -, _, -, -, hitem⟩ := Chart.exists_of_mem_moved hx
      rw [← hstate] at hitem
      exact absurd (hdot.symm.trans (congrArg Item.dot hitem)) (Nat.succ_ne_zero _).symm

/-- A parse begins with the accounts in order. -/
theorem Accounts.begin (p : Parser π α) [p.algebra.IsSemiring] (options : ParseOptions τ α)
    (tokens : List (Token τ)) :
    Ledger.Balanced p.algebra (Ledger.empty.add p.algebra p.seed) 0 ∧
      p.Accounts options tokens 0 (Ledger.empty.add p.algebra p.seed).chart 0 := by
  have hinner : (Ledger.empty : Ledger π α).chart.InnerMembers p.algebra :=
    fun id r hr => by simp at hr
  have hb : Ledger.Balanced p.algebra (Ledger.empty : Ledger π α) 0 :=
    ⟨Ledger.indexed_empty, hinner, fun d hd => by simp at hd, fun id r hr => by simp at hr,
      fun _ _ => rfl⟩
  have hone : p.algebra.member p.seed.inner = true := ScoreAlgebra.IsSemiring.one_mem
  refine ⟨hb.add hone, ⟨?_, ?_⟩, ?_, ?_⟩
  · intro _ _ _ _ _ _ _ _ hk
    exact absurd hk (Nat.not_lt_zero _)
  · intro production origin dot m name _ hm
    obtain rfl : m = 0 := Nat.le_zero.1 hm
    rw [Finset.range_zero, Finset.sum_empty]
    refine Chart.value_eq_zero fun id r hr hitem => ?_
    rw [Ledger.eq_record_of_add_empty hr] at hitem
    exact absurd (congrArg Item.dot hitem) (Nat.succ_ne_zero dot).symm
  · have hzero : (Ledger.empty : Ledger π α).chart.value p.algebra p.seed.state.item = 0 :=
      Chart.value_eq_zero fun id r hr => by simp at hr
    have hvalue := Ledger.value_add Ledger.indexed_empty hinner hone
    rw [hzero, zero_add] at hvalue
    exact hvalue.trans ScoreAlgebra.lift_one
  · intro id r hr _ hrule
    rw [Ledger.eq_record_of_add_empty hr] at hrule
    exact absurd rfl (Grammar.left_ne_start hrule)

/-- **In every ledger of a parse** the accounts are in order. -/
theorem Reaches.exists_accounts (hoptions : options.WeighsIn p.algebra) {l : Ledger π α}
    (h : p.Reaches options tokens position l) :
    ∃ passed, l.Balanced p.algebra passed ∧ p.Accounts options tokens position l.chart passed := by
  induction h with
  | begin => exact ⟨0, Accounts.begin p options tokens⟩
  | pass h ih =>
    obtain ⟨passed, hb, haccounts⟩ := ih
    obtain ⟨-, r, hr⟩ := hb.pending _ List.mem_cons_self
    exact ⟨_, (hb.pop hr).addAll fun x hx => member_of_mem_consequences hb hx,
      haccounts.pass h.consistent hb hr h.exists_top⟩
  | @scan position c token h htoken ih =>
    obtain ⟨passed, hb, haccounts⟩ := ih
    have hmembers : ∀ x ∈ c.readings p.algebra options position token,
        p.algebra.member x.inner = true := fun x hx =>
      Ledger.member_of_mem_moved hb.inner (hoptions.composes position token) hx
    exact ⟨passed, hb.addAll hmembers, haccounts.scan h.consistent hb hoptions htoken⟩

/-- When a parse returns the accounts are in order, and all inner scores have been passed on. -/
theorem accounts_of_parse (hoptions : options.WeighsIn p.algebra) {fuel : Nat}
    {result : ParseResult π α} (h : p.parse options fuel tokens = some result) :
    p.Accounts options tokens tokens.length result.chart (result.chart.value p.algebra) := by
  obtain ⟨passed, hb, haccounts⟩ := (reaches_of_parse h).1.exists_accounts hoptions
  obtain rfl : passed = result.chart.value p.algebra := funext fun i => (hb.value_eq i).symm
  exact haccounts

end Accounts

end Parser

end SemiringParsing
