import SemiringParsing.Proofs.Number.Nonneg
import SemiringParsing.Proofs.Sweep.Equations

/-!
# Forward scores as outside times inner scores

The forward score of a state is its inner score, times a factor that depends only on where the state
began and on its left side: the score of all that predicts the left side there
(`Parser.outsideScore`). Both scores are carried over dots in the same way, so that a factor between
them stays what it was in front of the rule (`Carries.eq_mul`). There it comes in with the
predictions. It is one for the top rule, which nothing predicts. The main statement is
`forward_eq_outside_times_inner`.
-/

namespace SemiringParsing

variable {π α τ : Type} [Number π]

namespace Parser

variable {p : Parser π α} {options : ParseOptions τ α} {tokens : List (Token τ)} {position : Nat}

/-- The score of all that predicts a nonterminal at a position: the forward scores of the states
that expect a nonterminal there and were not predicted themselves, each with the weight of the left
corners between the two nonterminals. -/
def outsideScore (p : Parser π α) (c : Chart π α) (position : Nat) (target : String) : α :=
  p.algebra.sum ((c.predictors position).map fun k =>
    p.algebra.times k.2.forward (p.corners.weightTo p.algebra k.1 target))

variable [p.algebra.IsSemiring]

/-- Of two families of values that are carried over dots in the same way one is a multiple of the
other, if it is where nothing has been matched. -/
theorem Carries.eq_mul {value value' passed : Item → p.algebra.Members}
    (h : p.Carries options tokens position value passed)
    (h' : p.Carries options tokens position value' passed) {factor : p.algebra.Members}
    {production : Production} {origin : Nat} (hstart : .start ∉ production.right)
    (hunmatched : ∀ m dot, dot = 0 ∨ m = 0 →
      value ⟨production, m, origin, dot⟩ = factor * value' ⟨production, m, origin, dot⟩)
    {m dot : Nat} (hdot : dot ≤ production.length) (hm : m ≤ position) :
    value ⟨production, m, origin, dot⟩ = factor * value' ⟨production, m, origin, dot⟩ := by
  induction dot generalizing m with
  | zero => exact hunmatched m 0 (.inl rfl)
  | succ dot ih =>
    have hcategory : production.right[dot]? = some production.right[dot] :=
      List.getElem?_eq_getElem hdot
    have hbefore : ∀ k ≤ position,
        value ⟨production, k, origin, dot⟩ = factor * value' ⟨production, k, origin, dot⟩ :=
      fun k hk => ih (Nat.le_of_lt hdot) hk
    by_cases hname : ∃ name, production.right[dot] = .nonterminal name
    · obtain ⟨name, hname⟩ := hname
      rw [hname] at hcategory
      rw [h.completed hcategory hm, h'.completed hcategory hm, Finset.mul_sum]
      refine Finset.sum_congr rfl fun k hk => ?_
      rw [hbefore k ((Finset.mem_range.1 hk).le.trans hm), Finset.mul_sum]
      exact Finset.sum_congr rfl fun q _ => mul_assoc ..
    · cases m with
      | zero => exact hunmatched 0 (dot + 1) (.inr rfl)
      | succ m =>
        have hne : ∀ name, production.right[dot] ≠ .nonterminal name :=
          fun name heq => hname ⟨name, heq⟩
        have hnotStart : production.right[dot] ≠ .start :=
          fun heq => hstart (heq ▸ List.getElem_mem hdot)
        rw [h.scanned hcategory hne hnotStart hm, h'.scanned hcategory hne hnotStart hm,
          hbefore m (Nat.le_of_lt hm)]
        split
        · rw [mul_assoc]
        · rw [mul_zero]

variable {c : Chart π α}

/-- The terms of an outside score are members, and so is their sum. -/
theorem outsideScore_mem (h : p.Finished tokens c)
    (hforward : (c.turn .forward).InnerMembers p.algebra) (position : Nat) (target : String) :
    p.algebra.member (p.outsideScore c position target) = true ∧
      p.algebra.lift (p.outsideScore c position target) =
        ∑ i ∈ p.grammar.items position,
          (c.turn .forward).value p.algebra i * p.reach i target := by
  have hscore : ∀ k ∈ c.predictors position, p.algebra.member k.2.forward = true := by
    intro k hk
    obtain ⟨id, hr, -⟩ := h.indexed.mem_predictors.1 hk
    exact hforward.scoreOn hr
  have hterms : ∀ x ∈ (c.predictors position).map fun k =>
      p.algebra.times k.2.forward (p.corners.weightTo p.algebra k.1 target),
      p.algebra.member x = true := by
    intro x hx
    obtain ⟨k, hk, rfl⟩ := List.mem_map.1 hx
    exact ScoreAlgebra.IsSemiring.times_mem (hscore k hk) (p.weightTo_mem k.1 target)
  obtain ⟨hmem, hlift⟩ := ScoreAlgebra.sum_mem hterms
  refine ⟨hmem, hlift.trans ?_⟩
  rw [sum_items_reach h.toSound, List.map_map]
  exact congrArg List.sum (List.map_congr_left fun k hk =>
    ScoreAlgebra.lift_times (hscore k hk) (p.weightTo_mem k.1 target))

/-- A factor between the scores of the records of a rule in front of which nothing has been matched
stays where some of it has. -/
theorem Finished.forward_eq_mul (h : p.Finished tokens c)
    (hcarries : p.Carries options tokens tokens.length (c.value p.algebra) (c.value p.algebra))
    (hforward : p.Carries options tokens tokens.length ((c.turn .forward).value p.algebra)
      (c.value p.algebra)) {id : StateId} {r : Record π α} (hr : c.record? id = some r)
    (factor : p.algebra.Members)
    (hbegin : ∀ id' r', c.record? id' = some r' →
      r'.state.rule.toProduction = r.state.rule.toProduction → r'.state.origin = r.state.origin →
      r'.state.dot = 0 → (c.turn .forward).value p.algebra r'.state.item =
        factor * c.value p.algebra r'.state.item) :
    (c.turn .forward).value p.algebra r.state.item = factor * c.value p.algebra r.state.item := by
  refine hforward.eq_mul hcarries (h.admits id r hr).start_notMem_right (fun m dot hor => ?_)
    r.state.dot_le (h.position_le id r hr)
  rcases c.exists_or_forall_ne ⟨r.state.rule.toProduction, m, r.state.origin, dot⟩ with
    ⟨id', r', hr', hitem⟩ | hnone
  · obtain ⟨hproduction, hposition, horigin, hdot⟩ := Item.mk.inj hitem
    have hzero : r'.state.dot = 0 := by
      rcases hor with rfl | rfl
      · exact hdot
      · have hle := r'.state.origin_le
        rw [(h.admits id' r' hr').dot_eq_zero_iff, hposition]
        exact Nat.le_zero.1 (hposition ▸ hle)
    rw [← hitem]
    exact hbegin id' r' hr' hproduction horigin hzero
  · rw [Chart.value_turn_eq_zero .forward hnone, Chart.value_eq_zero hnone, mul_zero]

/-- A rule that has been predicted scores its probability times what predicts it. -/
theorem Finished.forward_predicted_eq_mul (h : p.Finished tokens c)
    (haccounts : p.Accounts options tokens tokens.length c (c.value p.algebra))
    (hforward : p.ForwardAccounts options tokens tokens.length c (c.value p.algebra)
      ((c.turn .forward).value p.algebra)) {id : StateId} {r : Record π α}
    (hr : c.record? id = some r) (hdot : r.state.dot = 0) {name : String}
    (hleft : r.state.rule.left = .nonterminal name) :
    (c.turn .forward).value p.algebra r.state.item =
      (∑ i ∈ p.grammar.items r.state.origin,
        (c.turn .forward).value p.algebra i * p.reach i name) *
          c.value p.algebra r.state.item := by
  have hrule := (h.admits id r hr).mem_rules (by rw [hleft]; nofun)
  have hitem : r.state.item =
      ⟨r.state.rule.toProduction, r.state.origin, r.state.origin, 0⟩ := by
    rw [State.item, hdot, ← (h.admits id r hr).dot_eq_zero_iff.1 hdot]
  rw [haccounts.begun hr hdot hrule, hitem,
    hforward.predicted (Grammar.mem_productionsFor.2 ⟨⟨_, hrule, rfl⟩, hleft⟩),
    Grammar.score_toProduction hrule]

/-- **Forward is outside times inner.** The forward score of a state is its inner score times the
score of what predicts its left side where it began. For the top rule both scores are the same. -/
theorem forward_eq_outside_times_inner (hoptions : options.WeighsIn p.algebra) {fuel : Nat}
    {result : ParseResult π α} (h : p.parse options fuel tokens = some result) :
    ∀ id r, result.chart.record? id = some r →
      (r.state.rule.left ≠ .start → ∃ name, r.state.rule.left = .nonterminal name ∧
        r.forward = p.algebra.times (p.outsideScore result.chart r.state.origin name) r.inner) ∧
      (r.state.rule.left = .start → r.forward = r.inner) := by
  intro id r hr
  have hfinished := finished_of_parse h
  have haccounts := accounts_of_parse hoptions h
  obtain ⟨hinner, hforward, hforwardAccounts⟩ := forwardAccounts_of_parse hoptions h
  have hmember := hinner id r hr
  have hlift : p.algebra.lift r.forward =
      (result.chart.turn .forward).value p.algebra r.state.item :=
    (Chart.value_turn .forward hfinished.indexed hr).symm
  have hlift' : result.chart.value p.algebra r.state.item = p.algebra.lift r.inner :=
    Chart.value_of_record? hfinished.indexed hr rfl
  refine ⟨fun hstart => ?_, fun hstart => ?_⟩
  · obtain ⟨name, hname⟩ :=
      Grammar.left_eq_nonterminal ((hfinished.admits id r hr).mem_rules hstart)
    obtain ⟨houtside, hsum⟩ := outsideScore_mem hfinished hforward r.state.origin name
    have hscores := hfinished.forward_eq_mul haccounts.toCarries hforwardAccounts.toCarries hr _
      fun id' r' hr' hproduction horigin hdot => horigin ▸
        hfinished.forward_predicted_eq_mul haccounts hforwardAccounts hr' hdot
          ((congrArg Production.left hproduction).trans hname)
    refine ⟨name, hname, (ScoreAlgebra.lift_inj (hforward.scoreOn hr)
      (ScoreAlgebra.IsSemiring.times_mem houtside hmember)).1 ?_⟩
    calc p.algebra.lift r.forward
        = p.algebra.lift (p.outsideScore result.chart r.state.origin name) *
            p.algebra.lift r.inner := by rw [hlift, hscores, ← hsum, hlift']
      _ = p.algebra.lift (p.algebra.times (p.outsideScore result.chart r.state.origin name)
            r.inner) := (ScoreAlgebra.lift_times houtside hmember).symm
  · have hscores := hfinished.forward_eq_mul haccounts.toCarries
      hforwardAccounts.toCarries hr 1 fun id' r' hr' hproduction _ hdot => by
        rw [hfinished.item_eq_top hr' hdot ((congrArg Production.left hproduction).trans hstart),
          hforwardAccounts.top, haccounts.top, mul_one]
    rw [one_mul, ← hlift, hlift'] at hscores
    exact (ScoreAlgebra.lift_inj (hforward.scoreOn hr) hmember).1 hscores

/-- In the ambiguous grammar what is predicted at the second of three tokens is predicted along
chains of any length. With each token weighing a half, what predicts it scores a third. -/
theorem forward_eq_outside_times_inner_ambiguous :
    ∃ (result : ParseResult Exact Exact) (id : StateId) (r : Record Exact Exact),
      (Parser.new Examples.ambiguousGrammar .probability).parse ⟨some fun _ _ => 0.5⟩ 40
          [Token.literal "a", Token.literal "a", Token.literal "a"] = some result ∧
        result.chart.record? id = some r ∧ r.state.isCompleted = true ∧ r.state.origin = 1 ∧
        r.state.position = 3 ∧
        (Parser.new Examples.ambiguousGrammar .probability).outsideScore result.chart 1 "S" =
          .number (1 / 3) ∧
        r.forward = ScoreAlgebra.probability.times
          ((Parser.new Examples.ambiguousGrammar .probability).outsideScore result.chart 1 "S")
          r.inner := by
  have hoptions : ParseOptions.WeighsIn (⟨some fun _ _ => 0.5⟩ : ParseOptions String Exact)
      .probability := .of_forall fun _ _ => .inr (by decide +kernel)
  have hparse : ((Parser.new Examples.ambiguousGrammar .probability).parse ⟨some fun _ _ => 0.5⟩ 40
      [Token.literal "a", Token.literal "a", Token.literal "a"]).any (fun result =>
        (Parser.new Examples.ambiguousGrammar .probability).outsideScore result.chart 1 "S" ==
            .number (1 / 3) &&
          (List.range result.chart.size).any fun id => (result.chart.record? id).any fun r =>
            r.state.isCompleted && r.state.origin == 1 && r.state.position == 3 &&
              r.state.rule.left == .nonterminal "S") = true := by
    decide +kernel
  simp only [Option.any_eq_true, List.any_eq_true, Bool.and_eq_true, beq_iff_eq] at hparse
  obtain ⟨result, hresult, houtside, id, -, r, hr, ⟨⟨hcompleted, horigin⟩, hposition⟩, hleft⟩ :=
    hparse
  have : (Parser.new Examples.ambiguousGrammar .probability).algebra.IsSemiring :=
    inferInstanceAs (ScoreAlgebra.probability : ScoreAlgebra Exact Exact).IsSemiring
  obtain ⟨name, hname, hforward⟩ :=
    (forward_eq_outside_times_inner hoptions hresult id r hr).1 (by rw [hleft]; nofun)
  obtain rfl : "S" = name := Category.nonterminal.inj (hleft.symm.trans hname)
  rw [horigin] at hforward
  exact ⟨result, id, r, hresult, hr, hcompleted, horigin, hposition, houtside, hforward⟩

end Parser

end SemiringParsing
