import SemiringParsing.Proofs.Grammar.CornerWeights
import SemiringParsing.Proofs.Sweep.FinalValues
import SemiringParsing.Proofs.Sweep.Forward
import SemiringParsing.Proofs.Tree.Outside

/-!
# The forward scores of a finished chart

Forward scores satisfy the recurrence of what leads to an item (`forwardRecurrence_of_parse`).
Behind a dot this is what the accounts say, as for inner scores. At a rule that was predicted the
accounts speak of chains of left corners. All that predicts comes in along all chains at once. A chain
is empty, or it has a last rule, which is an item that expects the nonterminal too. So what comes in
along all chains is what the items that expect the nonterminal have (`sum_reach_eq_sum_itemsOn`).
-/

namespace SemiringParsing

variable {π α τ : Type} [Number π]

theorem Grammar.Admits.proper {G : Grammar π} {s : State π} (h : G.Admits s) :
    G.Proper s.item where
  origin_le := s.origin_le
  dot_eq_zero_iff := h.dot_eq_zero_iff
  top htop := by
    rcases h.rule with hrule | ⟨-, horigin⟩
    · exact absurd (congrArg Production.left htop) (Grammar.left_ne_start hrule)
    · exact horigin

/-- What is expected has rules. -/
theorem Grammar.mem_nonterminals_of_active? {G : Grammar π} {i : Item} {position : Nat}
    (hi : i ∈ G.items position) {name : String} (hactive : i.active? = some (.nonterminal name)) :
    name ∈ G.nonterminals := by
  obtain ⟨⟨r, hr, hproduction⟩, -⟩ := mem_items.1 hi
  rw [Item.active?, ← hproduction] at hactive
  have hmem := List.mem_of_getElem? hactive
  rcases List.mem_cons.1 hr with rfl | hr
  · rw [right_topRule, List.mem_singleton] at hmem
    cases hmem
    exact G.start_mem_nonterminals
  · exact mem_nonterminals_of_mem_right hr hmem

namespace Parser

variable {p : Parser π α} [p.algebra.IsCommSemiring] {position : Nat} {target : String}

/-! ## Chains of left corners -/

/-- The way from an item to a nonterminal is empty, or it has a last rule. -/
theorem reach_eq {i : Item} (hi : i ∈ p.grammar.items position)
    (htarget : target ∈ p.grammar.nonterminals) : p.reach i target =
      (if i.active? = some (.nonterminal target) ∧ ¬ (i.dot = 0 ∧ i.production.left ≠ .start) then 1
        else 0) +
      ∑ name ∈ p.grammar.nonterminals.toFinset, p.reach i name *
        ∑ q ∈ p.grammar.productionsFor name, if q.right[0]? = some (.nonterminal target) then
          p.algebra.lift (p.grammar.score p.algebra q) else 0 := by
  by_cases hsource : ∃ source, i.active? = some (.nonterminal source)
  · obtain ⟨source, hactive⟩ := hsource
    have hreach : ∀ name, p.reach i name =
        if i.dot = 0 ∧ i.production.left ≠ .start then 0
        else p.algebra.lift (p.corners.weightTo p.algebra source name) := by
      intro name
      have hcategory : i.production.right[i.dot]? = some (.nonterminal source) := hactive
      rw [reach, hcategory]
    simp only [hreach, hactive, Option.some.injEq, Category.nonterminal.injEq]
    by_cases hpredicted : i.dot = 0 ∧ i.production.left ≠ .start
    · simp [hpredicted]
    · simp only [hpredicted, if_false, not_false_eq_true, and_true]
      rw [p.corners_eq]
      exact LeftCorners.lift_weightTo (Grammar.mem_nonterminals_of_active? hi hactive) htarget
  · have hreach : ∀ name, p.reach i name = 0 := by
      intro name
      unfold reach
      split
      · next source hcategory => exact absurd ⟨source, hcategory⟩ hsource
      · rfl
    have hactive : i.active? ≠ some (.nonterminal target) :=
      fun hactive => hsource ⟨target, hactive⟩
    simp [hreach, hactive]

section Chains

variable {value : Item → p.algebra.Members}

/-- The rules of which nothing has been matched are the items that were predicted. -/
theorem sum_itemsOn_predicted (himproper : ∀ i, ¬ p.grammar.Proper i → value i = 0)
    (position : Nat) (target : String) :
    ∑ name ∈ p.grammar.nonterminals.toFinset, ∑ q ∈ p.grammar.productionsFor name,
        (if q.right[0]? = some (.nonterminal target) then value ⟨q, position, position, 0⟩ else 0) =
      ∑ i ∈ (p.grammar.itemsOn position (.nonterminal target)).filter
        (fun i => i.dot = 0 ∧ i.production.left ≠ .start), value i := by
  simp only [← Finset.sum_filter]
  rw [Finset.sum_sigma']
  refine Finset.sum_of_injOn (fun x => ⟨x.2, position, position, 0⟩) ?_ ?_ ?_ fun _ _ => rfl
  · rintro ⟨name, q⟩ hx ⟨name', q'⟩ hx' heq
    obtain rfl : q = q' := congrArg Item.production heq
    have hleft : ∀ {name}, (⟨name, q⟩ : (_ : String) × Production) ∈
        p.grammar.nonterminals.toFinset.sigma (fun name =>
          (p.grammar.productionsFor name).filter fun q =>
            q.right[0]? = some (.nonterminal target)) → q.left = .nonterminal name := by
      intro name hx
      exact (Grammar.mem_productionsFor.1 (Finset.mem_filter.1 (Finset.mem_sigma.1 hx).2).1).2
    obtain rfl : name = name' :=
      Category.nonterminal.inj ((hleft (Finset.mem_coe.1 hx)).symm.trans
        (hleft (Finset.mem_coe.1 hx')))
    rfl
  · rintro ⟨name, q⟩ hx
    obtain ⟨hq, hfirst⟩ := Finset.mem_filter.1 (Finset.mem_sigma.1 (Finset.mem_coe.1 hx)).2
    obtain ⟨⟨r, hr, hproduction⟩, hleft⟩ := Grammar.mem_productionsFor.1 hq
    refine Finset.mem_coe.2 (Finset.mem_filter.2 ⟨Grammar.mem_itemsOn.2 ⟨?_, hfirst⟩, rfl, ?_⟩)
    · exact Grammar.mem_items.2
        ⟨⟨r, List.mem_cons_of_mem _ hr, hproduction⟩, rfl, Nat.le_refl _, Nat.zero_le _⟩
    · show q.left ≠ .start
      rw [show q.left = .nonterminal name from hleft]
      nofun
  · intro i hi hne
    obtain ⟨hon, hdot, hstart⟩ := Finset.mem_filter.1 hi
    obtain ⟨hitem, hactive⟩ := Grammar.mem_itemsOn.1 hon
    have hposition := (Grammar.mem_items.1 hitem).2.1
    have htop : i.production ≠ p.grammar.topRule.toProduction :=
      fun htop => hstart (congrArg Production.left htop)
    obtain ⟨name, hq⟩ := Grammar.exists_mem_productionsFor hitem htop
    refine himproper i fun hproper => hne ?_
    have horigin : i.origin = position := (hproper.dot_eq_zero_iff.1 hdot).trans hposition
    rw [Item.active?, hdot] at hactive
    refine ⟨⟨name, i.production⟩, Finset.mem_coe.2 (Finset.mem_sigma.2 ⟨?_, ?_⟩), ?_⟩
    · obtain ⟨⟨r, hr, hproduction⟩, hleft⟩ := Grammar.mem_productionsFor.1 hq
      exact List.mem_toFinset.2 (Grammar.mem_nonterminals.2 ⟨r, hr, hproduction ▸ hleft⟩)
    · exact Finset.mem_filter.2 ⟨hq, hactive⟩
    · obtain ⟨production, position', origin, dot⟩ := i
      dsimp only at hdot hposition horigin ⊢
      subst hdot hposition horigin
      rfl

/-- **What comes in along all chains** of left corners is what the items have that expect the
nonterminal, whether they were predicted or not. -/
theorem sum_reach_eq_sum_itemsOn (himproper : ∀ i, ¬ p.grammar.Proper i → value i = 0)
    (hpredicted : ∀ {name : String} {q : Production} {position : Nat},
      q ∈ p.grammar.productionsFor name → value ⟨q, position, position, 0⟩ =
        (∑ i ∈ p.grammar.items position, value i * p.reach i name) *
          p.algebra.lift (p.grammar.score p.algebra q))
    (position : Nat) (htarget : target ∈ p.grammar.nonterminals) :
    ∑ i ∈ p.grammar.items position, value i * p.reach i target =
      ∑ i ∈ p.grammar.itemsOn position (.nonterminal target), value i := by
  have hchains : ∑ i ∈ p.grammar.items position, value i *
      ∑ name ∈ p.grammar.nonterminals.toFinset, p.reach i name *
        ∑ q ∈ p.grammar.productionsFor name, (if q.right[0]? = some (.nonterminal target) then
          p.algebra.lift (p.grammar.score p.algebra q) else 0) =
      ∑ name ∈ p.grammar.nonterminals.toFinset, ∑ q ∈ p.grammar.productionsFor name,
        (if q.right[0]? = some (.nonterminal target) then value ⟨q, position, position, 0⟩
          else 0) := by
    simp only [Finset.mul_sum]
    rw [Finset.sum_comm]
    refine Finset.sum_congr rfl fun name _ => ?_
    rw [Finset.sum_comm]
    refine Finset.sum_congr rfl fun q hq => ?_
    split
    · rw [hpredicted hq, Finset.sum_mul]
      exact Finset.sum_congr rfl fun i _ => (mul_assoc ..).symm
    · simp
  have hempty : ∑ i ∈ p.grammar.items position, value i * (if i.active? =
      some (.nonterminal target) ∧ ¬ (i.dot = 0 ∧ i.production.left ≠ .start) then 1 else 0) =
      ∑ i ∈ (p.grammar.itemsOn position (.nonterminal target)).filter
        (fun i => ¬ (i.dot = 0 ∧ i.production.left ≠ .start)), value i := by
    rw [Grammar.itemsOn, Finset.filter_filter, Finset.sum_filter]
    exact Finset.sum_congr rfl fun i _ => by rw [mul_ite, mul_one, mul_zero]
  rw [Finset.sum_congr rfl fun i hi => by rw [reach_eq hi htarget, mul_add],
    Finset.sum_add_distrib, hchains, hempty, sum_itemsOn_predicted himproper, add_comm,
    Finset.sum_filter_add_sum_filter_not]

end Chains

/-! ## The recurrence -/

variable {tokens : List (Token τ)} {options : ParseOptions τ α}

/-- What no state of a grammar is has no forward score. -/
theorem Finished.forward_eq_zero {c : Chart π α} (h : p.Finished tokens c) {i : Item}
    (hi : ¬ p.grammar.Proper i) : (c.turn .forward).value p.algebra i = 0 := by
  refine Chart.value_turn_eq_zero .forward fun id r hr hitem => hi ?_
  rw [← hitem]
  exact (h.admits id r hr).proper

/-- The forward scores behind dots come from those before them. -/
theorem composed_forward_of_parse (hoptions : options.WeighsIn p.algebra) {fuel : Nat}
    {result : ParseResult π α} (h : p.parse options fuel tokens = some result) :
    p.grammar.Composed p.algebra options tokens ((result.chart.turn .forward).value p.algebra)
      (result.chart.value p.algebra) := by
  obtain ⟨-, -, haccounts⟩ := forwardAccounts_of_parse hoptions h
  refine composed_of_parse .forward h (accounts_of_parse hoptions h)
    haccounts.toCarries fun {id r} hr hdot hrule hscore => ?_
  -- Nothing comes in at a rule that scores zero.
  have hadmits := (finished_of_parse h).admits id r hr
  obtain ⟨name, hleft⟩ := Grammar.left_eq_nonterminal hrule
  have hitem : r.state.item =
      ⟨r.state.rule.toProduction, r.state.position, r.state.position, 0⟩ := by
    rw [State.item, hdot, hadmits.dot_eq_zero_iff.1 hdot]
  rw [hitem, haccounts.predicted (Grammar.mem_productionsFor.2 ⟨⟨_, hrule, rfl⟩, hleft⟩),
    Grammar.score_toProduction hrule, hscore, ScoreAlgebra.lift_zero, mul_zero]

/-- **The forward scores of a finished chart** satisfy the recurrence of what leads to an item. -/
theorem forwardRecurrence_of_parse (hacyclic : p.grammar.UnitAcyclic)
    (hoptions : options.WeighsIn p.algebra) {fuel : Nat} {result : ParseResult π α}
    (h : p.parse options fuel tokens = some result) :
    p.grammar.ForwardRecurrence p.algebra options tokens
      ((result.chart.turn .forward).value p.algebra) := by
  obtain ⟨-, -, haccounts⟩ := forwardAccounts_of_parse hoptions h
  have himproper : ∀ i, ¬ p.grammar.Proper i →
      (result.chart.turn .forward).value p.algebra i = 0 :=
    fun i hi => (finished_of_parse h).forward_eq_zero hi
  refine ⟨haccounts.top, himproper, fun {name q position origin dot} hq hdot => ?_⟩
  obtain ⟨⟨r, hr, rfl⟩, hleft⟩ := Grammar.mem_productionsFor.1 hq
  have htarget : name ∈ p.grammar.nonterminals := Grammar.mem_nonterminals.2 ⟨r, hr, hleft⟩
  have hweighs := (composed_forward_of_parse hoptions h).weighs
    (recurrence_of_parse hoptions h).toComposed hacyclic (i := origin) (j := position)
    (Grammar.start_notMem_right hr) hdot
  rw [Grammar.Composed.Weighs, haccounts.predicted hq,
    sum_reach_eq_sum_itemsOn himproper haccounts.predicted origin htarget] at hweighs
  exact hweighs

end Parser

end SemiringParsing
