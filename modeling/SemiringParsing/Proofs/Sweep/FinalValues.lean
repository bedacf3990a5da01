import SemiringParsing.Proofs.Grammar.Corners
import SemiringParsing.Proofs.Sweep.Accounts
import SemiringParsing.Proofs.Tree.Recurrence

/-!
# The values of a finished chart

When a parse returns everything that is stored has been passed on. Then the accounts say how the
values of the chart come from each other, and they satisfy the recurrence (`recurrence_of_parse`).

What is left to show for this is that no rule is missing where it could count. A state that was not
predicted predicts all left corners that score more than zero. A predicted state predicts nothing.
But if its own rule scores more than zero, its left corners are left corners of what the state that
predicted it expected.
-/

namespace SemiringParsing

open Relation

variable {π α τ : Type} [Number π]

namespace Parser

variable {p : Parser π α} {tokens : List (Token τ)} {options : ParseOptions τ α}
  {position : Nat} {c : Chart π α} {id : StateId} {r : Record π α} {s : State π}
  {link? : Option Link}

/-- A state that has matched nothing was predicted. -/
theorem LeadsTo.of_dot_eq_zero (h : p.LeadsTo tokens c id s link?) (hdot : s.dot = 0) :
    ∃ r name corner, c.record? id = some r ∧ r.state.active? = some (.nonterminal name) ∧
      r.state.isPredicted = false ∧ corner ∈ p.corners.reachableFrom (.nonterminal name) ∧
      s.rule ∈ p.grammar.rulesFor corner.1 ∧ s.position = r.state.position := by
  cases h with
  | @predict _ r name corner _ hr hactive hpredicted hcorner hrule =>
    exact ⟨r, name, corner, hr, hactive, hpredicted, hcorner, hrule, rfl⟩
  | complete _ _ _ _ _ hnext =>
    have := (State.advance_eq_some_iff.1 hnext).2.2.2
    omega
  | scan _ _ _ _ hnext =>
    have := (State.advance_eq_some_iff.1 hnext).2.2.2
    omega

/-- Every state but the first has come from states of the chart. -/
theorem Reaches.exists_leadsTo {l : Ledger π α} (h : p.Reaches options tokens position l) :
    ∀ id r, l.chart.record? id = some r → r.state = .begin p.grammar.topRule 0 ∨
      ∃ cause link?, p.LeadsTo tokens l.chart cause r.state link? := by
  refine h.chart_induction (motive := fun c => ∀ id r, c.record? id = some r →
    r.state = .begin p.grammar.topRule 0 ∨
      ∃ cause link?, p.LeadsTo tokens c cause r.state link?) ?_ ?_
  · intro id r hr
    rw [Ledger.eq_record_of_add_empty hr]
    exact .inl rfl
  · intro c ds xs hindexed _ hxs hc id r hr
    have hextends := Ledger.extends_addAll (l := ⟨c, ds⟩) p.algebra xs hindexed
    rcases Ledger.record?_addAll hindexed hr with ⟨r', hr', hstate⟩ | ⟨⟨x, hx, hstate⟩, -⟩
    · rw [hstate]
      rcases hc id r' hr' with htop | ⟨cause, link?, hleads⟩
      · exact .inl htop
      · exact .inr ⟨cause, link?, hleads.mono hextends⟩
    · obtain ⟨cause, hleads⟩ := hxs x hx
      exact .inr ⟨cause, x.link?, hstate ▸ hleads.mono hextends⟩

section Offered

variable [p.algebra.IsCommSemiring]

/-- A nonterminal has the rules of those that it can begin with, as far as they score. -/
theorem exists_mem_reachableFrom_iff (hone : p.algebra.one ≠ p.algebra.zero)
    {source target : String} :
    (∃ w, (.nonterminal target, w) ∈ p.corners.reachableFrom (.nonterminal source)) ↔
      source ∈ p.grammar.nonterminals ∧
        ReflTransGen (LeftCorners.Step p.algebra p.grammar) source target := by
  rw [p.corners_eq]
  exact LeftCorners.mem_reachableFrom_iff (ScoreAlgebra.positive hone)
    fun r hr => Grammar.ofProbability_mem hr

/-- What predicted a state predicts the left corners of its rule too, if the rule scores. -/
theorem Finished.holds_begin_of_isPredicted (h : p.Finished tokens c)
    (hone : p.algebra.one ≠ p.algebra.zero) {cause : StateId}
    (hleads : p.LeadsTo tokens c cause s link?) (hdot : s.dot = 0) (hmem : s.rule ∈ p.grammar.rules)
    (hscore : p.algebra.ofProbability s.rule.probability ≠ p.algebra.zero) {name : String}
    (hactive : s.active? = some (.nonterminal name)) {rule : Rule π}
    (hrule : rule ∈ p.grammar.rules) (hleft : rule.left = .nonterminal name) :
    c.Holds (.begin rule s.position) none := by
  obtain ⟨r, expected, corner, hr, hexpected, hpredicted, hcorner, hcornerRule, hposition⟩ :=
    hleads.of_dot_eq_zero hdot
  obtain ⟨source, hsource⟩ := Grammar.left_eq_nonterminal hmem
  have hcorner : (.nonterminal source, corner.2) ∈
      p.corners.reachableFrom (.nonterminal expected) := by
    rw [← hsource, (Grammar.mem_rulesFor.1 hcornerRule).2]
    exact hcorner
  obtain ⟨hdefined, hpath⟩ := (exists_mem_reachableFrom_iff hone).1 ⟨corner.2, hcorner⟩
  have hnonZero : p.algebra.NonZero (p.algebra.ofProbability s.rule.probability) :=
    (ScoreAlgebra.nonZero_iff (Grammar.ofProbability_mem hmem)).2 hscore
  rw [State.active?, hdot] at hactive
  have hstep : LeftCorners.Step p.algebra p.grammar source name :=
    ⟨s.rule, hmem, hsource, hactive, hnonZero⟩
  obtain ⟨w, hw⟩ := (exists_mem_reachableFrom_iff hone).2 ⟨hdefined, hpath.tail hstep⟩
  rw [hposition]
  exact h.holds (.predict hr hexpected hpredicted hw
    (Grammar.mem_rulesFor_nonterminal.2 ⟨hrule, hleft⟩))

/-- The rules of what a state expects are there, or the rule of the state scores zero. -/
theorem Finished.exists_begin_or_zero (h : p.Finished tokens c)
    (hone : p.algebra.one ≠ p.algebra.zero)
    (hcause : ∀ id r, c.record? id = some r → r.state = .begin p.grammar.topRule 0 ∨
      ∃ cause link?, p.LeadsTo tokens c cause r.state link?)
    (hr : c.record? id = some r) {name : String}
    (hactive : r.state.active? = some (.nonterminal name)) {rule : Rule π}
    (hrule : rule ∈ p.grammar.rules) (hleft : rule.left = .nonterminal name) :
    c.Holds (.begin rule r.state.position) none ∨
      r.state.dot = 0 ∧ r.state.rule ∈ p.grammar.rules ∧
        p.algebra.ofProbability r.state.rule.probability = p.algebra.zero := by
  cases hpredicted : r.state.isPredicted with
  | false =>
    have hdefined : name ∈ p.grammar.nonterminals :=
      Grammar.mem_nonterminals.2 ⟨rule, hrule, hleft⟩
    obtain ⟨w, hw⟩ := (exists_mem_reachableFrom_iff hone).2 ⟨hdefined, .refl⟩
    exact .inl (h.holds (.predict hr hactive hpredicted hw
      (Grammar.mem_rulesFor_nonterminal.2 ⟨hrule, hleft⟩)))
  | true =>
    simp only [State.isPredicted, Bool.and_eq_true, beq_iff_eq, bne_iff_ne] at hpredicted
    obtain ⟨hdot, hstart⟩ := hpredicted
    have hmem : r.state.rule ∈ p.grammar.rules := (h.admits id r hr).mem_rules hstart
    rcases hcause id r hr with htop | ⟨cause, link?, hleads⟩
    · rw [htop] at hstart
      exact absurd rfl hstart
    · by_cases hzero : p.algebra.ofProbability r.state.rule.probability = p.algebra.zero
      · exact .inr ⟨hdot, hmem, hzero⟩
      · exact .inl (h.holds_begin_of_isPredicted hone hleads hdot hmem hzero hactive hrule hleft)

/-- Where a nonterminal is expected its rules have their scores, as far as it counts. -/
theorem Finished.offered (side : Side) (h : p.Finished tokens c)
    (hcause : ∀ id r, c.record? id = some r → r.state = .begin p.grammar.topRule 0 ∨
      ∃ cause link?, p.LeadsTo tokens c cause r.state link?)
    (hbegun : ∀ {id r}, c.record? id = some r → r.state.dot = 0 → r.state.rule ∈ p.grammar.rules →
      c.value p.algebra r.state.item =
        p.algebra.lift (p.algebra.ofProbability r.state.rule.probability))
    (hzero : ∀ {id r}, c.record? id = some r → r.state.dot = 0 → r.state.rule ∈ p.grammar.rules →
      p.algebra.ofProbability r.state.rule.probability = p.algebra.zero →
      (c.turn side).value p.algebra r.state.item = 0)
    {production q : Production} {origin dot : Nat} {name : String}
    (hcategory : production.right[dot]? = some (.nonterminal name))
    (hq : q ∈ p.grammar.productionsFor name) :
    (c.turn side).value p.algebra ⟨production, position, origin, dot⟩ *
        c.value p.algebra ⟨q, position, position, 0⟩ =
      (c.turn side).value p.algebra ⟨production, position, origin, dot⟩ *
        p.algebra.lift (p.grammar.score p.algebra q) := by
  by_cases hone : p.algebra.one = p.algebra.zero
  · -- All members are the same.
    have htrivial : (0 : p.algebra.Members) = 1 := ScoreAlgebra.Members.ext hone.symm
    have := subsingleton_of_zero_eq_one htrivial
    exact Subsingleton.elim _ _
  · obtain ⟨⟨rule, hrule, rfl⟩, hleft⟩ := Grammar.mem_productionsFor.1 hq
    rcases c.exists_or_forall_ne ⟨production, position, origin, dot⟩ with
      ⟨id, r, hr, hitem⟩ | hnone
    · obtain ⟨hproduction, hposition, -, hdot⟩ := Item.mk.inj hitem
      have hactive : r.state.active? = some (.nonterminal name) := by
        rw [State.active?, Production.categoryAt?, hproduction, hdot]
        exact hcategory
      rcases h.exists_begin_or_zero hone hcause hr hactive hrule hleft with
        ⟨id', r', hr', hstate, -⟩ | ⟨hdot, hmem, hscore⟩
      · have hvalue := hbegun hr' (by rw [hstate]; rfl) (by rw [hstate]; exact hrule)
        rw [hstate, hposition] at hvalue
        rw [Grammar.score_toProduction hrule]
        exact congrArg _ hvalue
      · rw [← hitem, hzero hr hdot hmem hscore, zero_mul, zero_mul]
    · rw [Chart.value_turn_eq_zero side hnone, zero_mul, zero_mul]

/-- What comes in behind dots in a finished chart makes its scores composed, on either side. -/
theorem composed_of_parse (side : Side) {fuel : Nat} {result : ParseResult π α}
    (h : p.parse options fuel tokens = some result)
    (haccounts : p.Accounts options tokens tokens.length result.chart
      (result.chart.value p.algebra))
    (hcarries : p.Carries options tokens tokens.length ((result.chart.turn side).value p.algebra)
      (result.chart.value p.algebra))
    (hzero : ∀ {id r}, result.chart.record? id = some r → r.state.dot = 0 →
      r.state.rule ∈ p.grammar.rules →
      p.algebra.ofProbability r.state.rule.probability = p.algebra.zero →
      (result.chart.turn side).value p.algebra r.state.item = 0) :
    p.grammar.Composed p.algebra options tokens ((result.chart.turn side).value p.algebra)
      (result.chart.value p.algebra) := by
  have hreaches := (reaches_of_parse h).1
  have hfinished := finished_of_parse h
  have hbeyond : ∀ i : Item, tokens.length < i.position →
      (result.chart.turn side).value p.algebra i = 0 :=
    fun i hi => Chart.value_turn_eq_zero side (hreaches.consistent.forall_ne hi)
  refine ⟨?_, ?_, ?_, ?_⟩
  · intro i hi
    rcases result.chart.exists_or_forall_ne i with ⟨id, r, hr, rfl⟩ | hnone
    · exact ⟨r.state.origin_le, (hfinished.admits id r hr).dot_eq_zero_iff⟩
    · exact absurd (Chart.value_turn_eq_zero side hnone) hi
  · exact fun hcategory hq =>
      hfinished.offered side hreaches.exists_leadsTo haccounts.begun hzero hcategory hq
  · intro production position origin dot category hcategory hname hstart
    rcases Nat.lt_or_ge position tokens.length with hlt | hge
    · exact hcarries.scanned hcategory hname hstart hlt
    · rw [hbeyond _ (Nat.lt_succ_of_le hge), List.getElem?_eq_none hge]
      simp
  · intro production position origin dot name hcategory
    rcases Nat.lt_or_ge tokens.length position with hlt | hge
    · rw [hbeyond _ hlt]
      refine (Finset.sum_eq_zero fun k _ => Finset.sum_eq_zero fun q _ => ?_).symm
      rw [Chart.value_eq_zero (hreaches.consistent.forall_ne hlt), mul_zero]
    · exact hcarries.completed hcategory hge

end Offered

/-- **The values of a finished chart** satisfy the recurrence. -/
theorem recurrence_of_parse [p.algebra.IsCommSemiring] (hoptions : options.WeighsIn p.algebra)
    {fuel : Nat} {result : ParseResult π α} (h : p.parse options fuel tokens = some result) :
    p.grammar.Recurrence p.algebra options tokens (result.chart.value p.algebra) := by
  have haccounts := accounts_of_parse hoptions h
  have hcomposed := composed_of_parse .inner h haccounts
    (result.chart.turn_inner.symm ▸ haccounts.toCarries) fun hr hdot hrule hscore => ?_
  · rw [Chart.turn_inner] at hcomposed
    exact ⟨hcomposed, haccounts.top⟩
  · rw [Chart.turn_inner, haccounts.begun hr hdot hrule, hscore, ScoreAlgebra.lift_zero]

end Parser

end SemiringParsing
