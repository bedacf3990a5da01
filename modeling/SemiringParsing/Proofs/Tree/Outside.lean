import SemiringParsing.Proofs.Grammar.LeftRecursion
import SemiringParsing.Proofs.Tree.Open

/-!
# All spines that lead to an item

If a grammar does not recurse on the left, finitely many spines lead to an item
(`Grammar.finite_spines`). Their rules weigh together what `Grammar.outside` says. It is computed
from the outside in. A spine is the innermost rule with the trees before the path, and a spine that
leads to an item that expects the left side of the rule.

Forward scores satisfy the same recurrence, with the tokens weighed too. So they are what the spines
weigh (`ForwardRecurrence.value_eq`), and adding up those of the items that read a token gives what
all open trees weigh that end with it.
-/

namespace SemiringParsing

variable {π α τ : Type} [Number π]

namespace Grammar

variable {G : Grammar π} {tokens : List (Token τ)} {name : String} {q : Production}
  {i : Item} {position origin dot : Nat}

/-! ## Induction on items -/

/-- An item that is not of the top rule is of a rule of some nonterminal. -/
theorem exists_mem_productionsFor (hi : i ∈ G.items position)
    (htop : i.production ≠ G.topRule.toProduction) :
    ∃ name, i.production ∈ G.productionsFor name := by
  obtain ⟨⟨r, hr, hproduction⟩, -⟩ := mem_items.1 hi
  have hrule : r ∈ G.rules := by
    refine (List.mem_cons.1 hr).resolve_left ?_
    rintro rfl
    exact htop hproduction.symm
  obtain ⟨name, hleft⟩ := left_eq_nonterminal hrule
  exact ⟨name, mem_productionsFor.2 ⟨⟨r, hrule, hproduction⟩, hproduction ▸ hleft⟩⟩

/-- What holds of a rule matched to any extent from a position on, as soon as it holds of all items
there that expect the rule, holds of all rules. -/
theorem CornerAcyclic.item_induction (h : G.CornerAcyclic) {P : Item → Prop}
    (htop : P ⟨G.topRule.toProduction, 0, 0, 0⟩) (himproper : ∀ i, ¬ G.Proper i → P i)
    (hrule : ∀ {name q position origin dot}, q ∈ G.productionsFor name → dot ≤ q.length →
      (∀ i ∈ G.itemsOn origin (.nonterminal name), P i) → P ⟨q, position, origin, dot⟩)
    (hq : q ∈ G.productionsFor name) (hdot : dot ≤ q.length) : P ⟨q, position, origin, dot⟩ := by
  have hall : ∀ name origin, ∀ q ∈ G.productionsFor name, ∀ position dot, dot ≤ q.length →
      P ⟨q, position, origin, dot⟩ := by
    refine h.induction fun name origin ihBefore ihChain q hq position dot hdot =>
      hrule hq hdot fun i hi => ?_
    obtain ⟨hitem, hactive⟩ := mem_itemsOn.1 hi
    obtain ⟨-, rfl, -, hlast⟩ := mem_items.1 hitem
    by_cases hproper : G.Proper i
    · by_cases hproduction : i.production = G.topRule.toProduction
      · rw [hproper.eq_top hproduction hactive]
        exact htop
      · obtain ⟨name', hmem⟩ := exists_mem_productionsFor hitem hproduction
        rcases Nat.lt_or_eq_of_le hproper.origin_le with hlt | heq
        · exact ihBefore name' i.origin hlt i.production hmem i.position i.dot hlast
        · have hzero := hproper.dot_eq_zero_iff.2 heq
          have hstep : G.CornerStep name' name := by
            obtain ⟨⟨r, hr, hrule⟩, hleft⟩ := mem_productionsFor.1 hmem
            rw [Item.active?, ← hrule, hzero] at hactive
            exact ⟨r, hr, hrule ▸ hleft, hactive⟩
          have hi : i = ⟨i.production, i.position, i.position, i.dot⟩ :=
            congrArg (Item.mk i.production i.position · i.dot) heq
          rw [hi]
          exact ihChain name' hstep i.production hmem i.position i.dot hlast
    · exact himproper i hproper
  exact hall name origin q hq position dot hdot

/-! ## The spines that lead to an item -/

/-- The spines that lead to an item. -/
def spines (G : Grammar π) (tokens : List (Token τ)) (i : Item) : Set Spine :=
  {spine | Spine.LeadsTo G tokens spine i}

/-- Only the empty spine leads to the top rule. -/
theorem spines_subset (h : i.production = G.topRule.toProduction) : G.spines tokens i ⊆ {[]} := by
  intro spine hspine
  cases hspine with
  | top => rfl
  | @rule _ _ _ q _ _ _ _ _ hq =>
    have hq' : q = G.topRule.toProduction := h
    have hleft := (mem_productionsFor.1 hq).2
    rw [hq'] at hleft
    simp at hleft

theorem spines_top : G.spines tokens ⟨G.topRule.toProduction, 0, 0, 0⟩ = {[]} := by
  refine Set.Subset.antisymm (spines_subset rfl) ?_
  rintro _ rfl
  exact .top

theorem spines_eq_empty (h : ¬ G.Proper i) : G.spines tokens i = ∅ :=
  Set.eq_empty_of_forall_notMem fun _ hspine => h (Spine.LeadsTo.proper hspine)

/-- A spine that leads to a rule goes on from one that leads to an item that expects the rule. -/
theorem spines_rule (hq : q ∈ G.productionsFor name) (hdot : dot ≤ q.length) :
    G.spines tokens ⟨q, position, origin, dot⟩ =
      Set.image2 (fun before spine => (q, before) :: spine)
        (G.forests tokens (q.right.take dot) origin position)
        (⋃ i ∈ G.itemsOn origin (.nonterminal name), G.spines tokens i) := by
  have hleft := (mem_productionsFor.1 hq).2
  ext spine
  simp only [Set.mem_image2, Set.mem_iUnion, exists_prop]
  constructor
  · intro h
    cases h with
    | top => simp at hleft
    | @rule spine i name' _ before _ _ h hactive hq' _ hbefore =>
      obtain rfl : name' = name := by
        rw [(mem_productionsFor.1 hq').2] at hleft
        exact Category.nonterminal.inj hleft
      exact ⟨before, hbefore, spine, ⟨i, mem_itemsOn.2 ⟨h.mem_items, hactive⟩, h⟩, rfl⟩
  · rintro ⟨before, hbefore, spine, ⟨i, hi, h⟩, rfl⟩
    obtain ⟨hitem, hactive⟩ := mem_itemsOn.1 hi
    obtain ⟨-, rfl, -⟩ := mem_items.1 hitem
    exact .rule h hactive hq hdot hbefore

theorem pairwiseDisjoint_spines (kinds : Set Item) : kinds.PairwiseDisjoint (G.spines tokens) :=
  fun _ _ _ _ hne => Set.disjoint_left.2 fun _ h h' => hne (Spine.LeadsTo.item_unique h h')

/-- **Finitely many spines** lead to an item, if the grammar does not recurse on the left. -/
theorem finite_spines (hacyclic : G.CornerAcyclic) (hq : q ∈ G.productionsFor name)
    (hdot : dot ≤ q.length) : (G.spines tokens ⟨q, position, origin, dot⟩).Finite := by
  refine hacyclic.item_induction (P := fun i => (G.spines tokens i).Finite) ?_ ?_ ?_ hq hdot
  · rw [spines_top]
    exact Set.finite_singleton _
  · intro i hi
    rw [spines_eq_empty hi]
    exact Set.finite_empty
  · intro name q position origin dot hq hdot ih
    rw [spines_rule hq hdot]
    exact (finite_forests tokens hacyclic.unitAcyclic _ _ _).image2 _
      (Set.Finite.biUnion (Finset.finite_toSet _) ih)

theorem finite_spines_of_mem_items (hacyclic : G.CornerAcyclic) (hi : i ∈ G.items position) :
    (G.spines tokens i).Finite := by
  by_cases htop : i.production = G.topRule.toProduction
  · exact (Set.finite_singleton _).subset (spines_subset htop)
  · obtain ⟨name, hq⟩ := exists_mem_productionsFor hi htop
    exact finite_spines hacyclic hq (mem_items.1 hi).2.2.2

/-! ## What they weigh -/

section Weight

variable {S : ScoreAlgebra π α} [S.IsCommSemiring] {options : ParseOptions τ α}

variable (G S tokens) in
/-- What the rules of all spines that lead to an item weigh together. -/
noncomputable def outside (i : Item) : S.Members :=
  ∑ᶠ spine ∈ G.spines tokens i, Spine.ruleWeight S G spine

theorem outside_top : G.outside tokens S ⟨G.topRule.toProduction, 0, 0, 0⟩ = 1 := by
  rw [outside, spines_top, finsum_mem_singleton]
  rfl

theorem outside_eq_zero (h : ¬ G.Proper i) : G.outside tokens S i = 0 := by
  rw [outside, spines_eq_empty h]
  exact finsum_mem_empty

/-- What leads to a rule weighs what leads to the items that expect it, times the rule and what it
has matched. -/
theorem outside_rule (hacyclic : G.CornerAcyclic) (hq : q ∈ G.productionsFor name)
    (hdot : dot ≤ q.length) : G.outside tokens S ⟨q, position, origin, dot⟩ =
      S.lift (G.score S q) * G.inside tokens S (q.right.take dot) origin position *
        ∑ i ∈ G.itemsOn origin (.nonterminal name), G.outside tokens S i := by
  have hforests := finite_forests tokens hacyclic.unitAcyclic (q.right.take dot) origin position
  have hspines : ∀ i ∈ G.itemsOn origin (.nonterminal name), (G.spines tokens i).Finite :=
    fun i hi => finite_spines_of_mem_items hacyclic (mem_itemsOn.1 hi).1
  have hfinite : (⋃ i ∈ G.itemsOn origin (.nonterminal name), G.spines tokens i).Finite :=
    Set.Finite.biUnion (Finset.finite_toSet _) hspines
  have hweight : ∀ (before : Forest) (spine : Spine), Spine.ruleWeight S G ((q, before) :: spine) =
      S.lift (G.score S q) * before.ruleWeight S G * Spine.ruleWeight S G spine :=
    fun _ _ => rfl
  have hinj : Set.InjOn (fun x : Forest × Spine => (q, x.1) :: x.2)
      (G.forests tokens (q.right.take dot) origin position ×ˢ
        ⋃ i ∈ G.itemsOn origin (.nonterminal name), G.spines tokens i) := by
    rintro ⟨before, spine⟩ - ⟨before', spine'⟩ - heq
    cases heq
    rfl
  rw [outside, spines_rule hq hdot, finsum_mem_image2 hforests hfinite hinj hweight,
    finsum_mem_biUnion_finset (pairwiseDisjoint_spines _) hspines, ← mul_finsum_mem' _ _ hforests]
  rfl

/-- The recurrence that forward scores satisfy: the value of a rule comes from those of the items
that expect it. -/
structure ForwardRecurrence (G : Grammar π) (S : ScoreAlgebra π α) [S.IsCommSemiring]
    (options : ParseOptions τ α) (tokens : List (Token τ)) (value : Item → S.Members) : Prop where
  top : value ⟨G.topRule.toProduction, 0, 0, 0⟩ = 1
  improper : ∀ i, ¬ G.Proper i → value i = 0
  rule : ∀ {name : String} {q : Production} {position origin dot : Nat},
    q ∈ G.productionsFor name → dot ≤ q.length → value ⟨q, position, origin, dot⟩ =
      (∑ i ∈ G.itemsOn origin (.nonterminal name), value i) * S.lift (G.score S q) *
        G.inside tokens S (q.right.take dot) origin position *
        tokensWeight S options tokens origin position

/-- **The solution of the recurrence.** The value of a rule matched to some extent is what all
spines that lead there weigh, and all tokens before. -/
theorem ForwardRecurrence.value_eq {value : Item → S.Members}
    (h : G.ForwardRecurrence S options tokens value) (hacyclic : G.CornerAcyclic)
    (hq : q ∈ G.productionsFor name) (hdot : dot ≤ q.length) :
    value ⟨q, position, origin, dot⟩ = G.outside tokens S ⟨q, position, origin, dot⟩ *
      tokensWeight S options tokens 0 position := by
  refine hacyclic.item_induction (P := fun i =>
    value i = G.outside tokens S i * tokensWeight S options tokens 0 i.position) ?_ ?_ ?_ hq hdot
  · rw [h.top, outside_top, tokensWeight_self, one_mul]
  · intro i hi
    rw [h.improper i hi, outside_eq_zero hi, zero_mul]
  · intro name q position origin dot hq hdot ih
    have hsum : ∑ i ∈ G.itemsOn origin (.nonterminal name), value i =
        (∑ i ∈ G.itemsOn origin (.nonterminal name), G.outside tokens S i) *
          tokensWeight S options tokens 0 origin := by
      rw [Finset.sum_mul]
      refine Finset.sum_congr rfl fun i hi => ?_
      rw [ih i hi, (mem_items.1 (mem_itemsOn.1 hi).1).2.1]
    rw [h.rule hq hdot, hsum, outside_rule hacyclic hq hdot]
    rcases Nat.lt_or_ge position origin with hlt | hge
    · rw [inside_eq_zero hlt, mul_zero, mul_zero, zero_mul, zero_mul, zero_mul]
    · rw [← tokensWeight_mul (Nat.zero_le origin) hge]
      ring

/-- Some tokens have finitely many open trees, and what they weigh adds up to what leads to the
items that read the last token. -/
theorem exists_openTrees (hacyclic : G.CornerAcyclic) (hoptions : options.WeighsIn S)
    (hposition : position < tokens.length) : ∃ trees : List OpenTree, trees.Nodup ∧
      (∀ t, t ∈ trees ↔ t.IsOpenDerivation G tokens (.nonterminal G.start) (position + 1)) ∧
      S.member (S.sum (trees.map (OpenTree.weight S G options tokens (position + 1)))) = true ∧
      S.lift (S.sum (trees.map (OpenTree.weight S G options tokens (position + 1)))) =
        (∑ i ∈ (G.items position).filter fun i => i.reads tokens = true, G.outside tokens S i) *
          tokensWeight S options tokens 0 (position + 1) := by
  have himage : OpenTree.spine ''
      {t | t.IsOpenDerivation G tokens (.nonterminal G.start) (position + 1)} =
      ⋃ i ∈ (G.items position).filter fun i => i.reads tokens = true, G.spines tokens i := by
    rw [OpenTree.image_spine]
    ext spine
    simp only [Set.mem_ofPred_eq, Set.mem_iUnion, Finset.mem_filter, exists_prop]
    constructor
    · rintro ⟨i, hleads, rfl, hreads⟩
      exact ⟨i, ⟨hleads.mem_items, hreads⟩, hleads⟩
    · rintro ⟨i, ⟨hitem, hreads⟩, hleads⟩
      exact ⟨i, hleads, (mem_items.1 hitem).2.1, hreads⟩
  have hspines : ∀ i ∈ (G.items position).filter fun i => i.reads tokens = true,
      (G.spines tokens i).Finite :=
    fun i hi => finite_spines_of_mem_items hacyclic (Finset.mem_filter.1 hi).1
  have hfinite : {t : OpenTree | t.IsOpenDerivation G tokens (.nonterminal G.start)
      (position + 1)}.Finite := by
    refine Set.Finite.of_finite_image ?_ OpenTree.spine_injective.injOn
    rw [himage]
    exact Set.Finite.biUnion (Finset.finite_toSet _) hspines
  have houtside : ∑ i ∈ (G.items position).filter fun i => i.reads tokens = true,
      G.outside tokens S i =
      ∑ᶠ t ∈ {t | t.IsOpenDerivation G tokens (.nonterminal G.start) (position + 1)},
        OpenTree.ruleWeight S G t := by
    unfold outside
    rw [← finsum_mem_biUnion_finset (pairwiseDisjoint_spines _) hspines, ← himage,
      finsum_mem_image OpenTree.spine_injective.injOn]
    exact finsum_mem_congr rfl fun t _ => t.ruleWeight_spine
  rw [houtside]
  exact exists_list_sum hfinite fun t => t.weight_mem hoptions hposition

end Weight

end Grammar

end SemiringParsing
