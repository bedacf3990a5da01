import Mathlib
import SemiringParsing.Proofs.Grammar.Sentential
import SemiringParsing.Proofs.Grammar.UnitRank
import SemiringParsing.Proofs.Tree.Weight

/-!
# All forests over a stretch of tokens

The forests that derive a stretch of tokens from a form are finitely many if no unit productions
form a cycle (`Grammar.finite_forests`). Their rules weigh together what `Grammar.inside` says. It
is computed from left to right. The last tree of a forest begins where the trees before it end, and
a tree is a rule with a forest below.
-/

namespace SemiringParsing

variable {π α τ : Type} [Number π]

/-- The forests that derive the tokens between two positions from a form. -/
def Grammar.forests (G : Grammar π) (tokens : List (Token τ)) (form : List Category) (i j : Nat) :
    Set Forest :=
  {f | f.roots = form ∧ f.Spans G tokens i j}

namespace Forest

/-- A forest is put together of forests with given roots in one way only. -/
theorem append_inj {f f' g g' : Forest} (hroots : f.roots = f'.roots) (h : f ++ g = f' ++ g') :
    f = f' ∧ g = g' := by
  induction f generalizing f' with
  | nil =>
    obtain rfl := roots_eq_nil.1 hroots.symm
    exact ⟨rfl, h⟩
  | cons c below beside _ ih =>
    cases f' with
    | nil => simp [roots] at hroots
    | cons c' below' beside' =>
      rw [roots, roots, List.cons.injEq] at hroots
      rw [cons_append, cons_append, cons.injEq] at h
      obtain ⟨rfl, rfl, h⟩ := h
      obtain ⟨rfl, rfl⟩ := ih hroots.2 h
      exact ⟨rfl, rfl⟩

theorem Spans.end_unique {G : Grammar π} {tokens : List (Token τ)} {f : Forest} {i j k : Nat}
    (h : f.Spans G tokens i j) (h' : f.Spans G tokens i k) : j = k :=
  (spans_iff.1 h).2.2.symm.trans (spans_iff.1 h').2.2

end Forest

namespace Grammar

variable {G : Grammar π} {tokens : List (Token τ)} {form : List Category} {category : Category}
  {name : String} {i j k : Nat}

theorem forests_nil : G.forests tokens [] i j = if i = j then {.nil} else ∅ := by
  ext f
  constructor
  · rintro ⟨hroots, hspans⟩
    obtain rfl := Forest.roots_eq_nil.1 hroots
    cases hspans
    simp
  · split
    · next h =>
      rintro rfl
      exact ⟨rfl, h ▸ .nil i⟩
    · exact fun h => absurd h (Set.notMem_empty f)

/-- Forests derive no stretch of tokens backwards, and single trees no empty one. -/
theorem forests_eq_empty (h : j < i) : G.forests tokens form i j = ∅ := by
  refine Set.eq_empty_of_forall_notMem fun f hf => ?_
  have := hf.2.le
  omega

theorem lt_of_mem_forests {f : Forest} (hf : f ∈ G.forests tokens form i j) (hform : form ≠ []) :
    i < j := by
  refine hf.2.lt fun hnil => hform ?_
  rw [← hf.1, hnil, Forest.roots]

/-- The last tree of a forest begins where the trees before it end. -/
theorem forests_concat : G.forests tokens (form ++ [category]) i j =
    ⋃ k ∈ Finset.range j,
      Set.image2 (· ++ ·) (G.forests tokens form i k) (G.forests tokens [category] k j) := by
  ext f
  simp only [Set.mem_iUnion, Set.mem_image2, Finset.mem_range]
  constructor
  · rintro ⟨hroots, hspans⟩
    obtain ⟨g, t, rfl, hg, ht⟩ := Forest.exists_append_of_roots hroots
    obtain ⟨k, hgSpans, htSpans⟩ := Forest.spans_append.1 hspans
    have hlt : k < j := lt_of_mem_forests ⟨ht, htSpans⟩ (List.cons_ne_nil _ _)
    exact ⟨k, hlt, g, ⟨hg, hgSpans⟩, t, ⟨ht, htSpans⟩, rfl⟩
  · rintro ⟨k, -, g, ⟨hg, hgSpans⟩, t, ⟨ht, htSpans⟩, rfl⟩
    exact ⟨by rw [Forest.roots_append, hg, ht], hgSpans.append htSpans⟩

/-- A category that is no nonterminal derives a token that can be read as it. -/
theorem forests_terminal (h : ∀ name, category ≠ .nonterminal name) :
    G.forests tokens [category] i j =
      if j = i + 1 ∧ (tokens[i]?.any (·.isA category)) = true then {.cons category .nil .nil}
      else ∅ := by
  ext f
  constructor
  · rintro ⟨hroots, hspans⟩
    cases hspans with
    | nil => simp [Forest.roots] at hroots
    | leaf htoken hcategory hbeside =>
      obtain ⟨rfl, hnil⟩ := List.cons.inj hroots
      obtain rfl := Forest.roots_eq_nil.1 hnil
      cases hbeside
      simp [htoken, hcategory]
    | node hproduction =>
      obtain ⟨rfl, -⟩ := List.cons.inj hroots
      obtain ⟨r, hr, hproduction⟩ := hproduction
      obtain ⟨name, hname⟩ := left_eq_nonterminal hr
      exact absurd ((congrArg Production.left hproduction).symm.trans hname) (h name)
  · split
    · next hread =>
      rintro rfl
      obtain ⟨rfl, htoken⟩ := hread
      obtain ⟨token, htoken, hcategory⟩ := (Option.any_eq_true _ _).1 htoken
      exact ⟨rfl, .leaf htoken hcategory (.nil _)⟩
    · exact fun h => absurd h (Set.notMem_empty f)

/-- A nonterminal derives what the right sides of its rules derive. -/
theorem forests_nonterminal : G.forests tokens [.nonterminal name] i j =
    ⋃ q ∈ G.productionsFor name,
      (fun below => Forest.cons (.nonterminal name) below .nil) '' G.forests tokens q.right i j := by
  ext f
  simp only [Set.mem_iUnion, Set.mem_image, mem_productionsFor, exists_prop]
  constructor
  · rintro ⟨hroots, hspans⟩
    cases hspans with
    | nil => simp [Forest.roots] at hroots
    | leaf _ hcategory =>
      obtain ⟨rfl, -⟩ := List.cons.inj hroots
      simp [Token.isA_nonterminal] at hcategory
    | @node _ below _ _ _ _ hproduction hbelow hbeside =>
      obtain ⟨rfl, hnil⟩ := List.cons.inj hroots
      obtain rfl := Forest.roots_eq_nil.1 hnil
      cases hbeside
      exact ⟨_, ⟨hproduction, rfl⟩, below, ⟨rfl, hbelow⟩, rfl⟩
  · rintro ⟨q, ⟨hproduction, hleft⟩, below, ⟨hroots, hbelow⟩, rfl⟩
    have hq : q = ⟨.nonterminal name, below.roots⟩ := by rw [← hleft, hroots]
    exact ⟨rfl, .node (hq ▸ hproduction) hbelow (.nil j)⟩

/-! ## Finitely many -/

theorem finite_forests_terminal (h : ∀ name, category ≠ .nonterminal name) :
    (G.forests tokens [category] i j).Finite := by
  rw [forests_terminal h]
  split
  · exact Set.finite_singleton _
  · exact Set.finite_empty

/-- Forests are finitely many over short stretches if trees are. -/
theorem finite_forests_of_trees {n : Nat}
    (h : ∀ name i j, j - i < n → (G.forests tokens [.nonterminal name] i j).Finite) (hlt : j - i < n) :
    (G.forests tokens form i j).Finite := by
  have hcategory : ∀ category i j, j - i < n → (G.forests tokens [category] i j).Finite := by
    intro category i j hlt
    by_cases hname : ∃ name, category = .nonterminal name
    · obtain ⟨name, rfl⟩ := hname
      exact h name i j hlt
    · exact finite_forests_terminal fun name heq => hname ⟨name, heq⟩
  induction form using List.reverseRecOn generalizing j with
  | nil =>
    rw [forests_nil]
    split
    · exact Set.finite_singleton _
    · exact Set.finite_empty
  | append_singleton form category ih =>
    rw [forests_concat]
    refine Set.Finite.biUnion (Finset.finite_toSet _) fun k hk => ?_
    have hkj := Finset.mem_range.1 hk
    rcases Nat.lt_or_ge k i with hki | hik
    · rw [forests_eq_empty hki, Set.image2_empty_left]
      exact Set.finite_empty
    · exact Set.Finite.image2 _ (ih (by omega)) (hcategory category k j (by omega))

variable (tokens) in
/-- **A stretch of tokens has finitely many derivations** if unit productions form no cycle. -/
theorem finite_forests (hacyclic : G.UnitAcyclic) (form : List Category) (i j : Nat) :
    (G.forests tokens form i j).Finite := by
  have htrees : ∀ name i j, (G.forests tokens [.nonterminal name] i j).Finite := by
    refine hacyclic.induction fun name i j ihLength ihUnit => ?_
    rw [forests_nonterminal]
    refine Set.Finite.biUnion (Finset.finite_toSet _) fun q hq => Set.Finite.image _ ?_
    obtain ⟨hproduction, hleft⟩ := mem_productionsFor.1 hq
    obtain ⟨form, category, hright⟩ :=
      (List.eq_nil_or_concat' q.right).resolve_left hproduction.right_ne_nil
    by_cases hform : form = []
    · -- A unit production keeps the stretch and goes on along the chain.
      rw [hright, hform, List.nil_append]
      by_cases hname : ∃ name', category = .nonterminal name'
      · obtain ⟨name', rfl⟩ := hname
        obtain ⟨r, hr, rfl⟩ := hproduction
        exact ihUnit name' (unitStep_iff.2 ⟨r, hr, hleft, by rw [hright, hform, List.nil_append]⟩)
      · exact finite_forests_terminal fun name' heq => hname ⟨name', heq⟩
    · -- Other rules divide it.
      rw [hright, forests_concat]
      refine Set.Finite.biUnion (Finset.finite_toSet _) fun k hk => ?_
      have hkj := Finset.mem_range.1 hk
      rcases Nat.lt_or_ge i k with hik | hki
      · exact Set.Finite.image2 _ (finite_forests_of_trees ihLength (by omega))
          (finite_forests_of_trees ihLength (by omega))
      · have hempty : G.forests tokens form i k = ∅ := by
          refine Set.eq_empty_of_forall_notMem fun f hf => ?_
          have := lt_of_mem_forests hf hform
          omega
        rw [hempty, Set.image2_empty_left]
        exact Set.finite_empty
  exact finite_forests_of_trees (fun name i j _ => htrees name i j) (Nat.lt_succ_self _)

/-! ## What they weigh -/

section Weight

variable {S : ScoreAlgebra π α} [S.IsSemiring]

variable (G S tokens) in
/-- What the rules of all forests over a stretch of tokens weigh together. -/
noncomputable def inside (form : List Category) (i j : Nat) : S.Members :=
  ∑ᶠ f ∈ G.forests tokens form i j, f.ruleWeight S G

theorem inside_nil : G.inside tokens S [] i j = if i = j then 1 else 0 := by
  rw [inside, forests_nil]
  split
  · rw [finsum_mem_singleton, Forest.ruleWeight_nil]
  · exact finsum_mem_empty

theorem inside_eq_zero (h : j < i) : G.inside tokens S form i j = 0 := by
  rw [inside, forests_eq_empty h]
  exact finsum_mem_empty

theorem inside_self (hform : form ≠ []) : G.inside tokens S form i i = 0 := by
  have hempty : G.forests tokens form i i = ∅ :=
    Set.eq_empty_of_forall_notMem fun f hf => absurd (lt_of_mem_forests hf hform) (Nat.lt_irrefl i)
  rw [inside, hempty]
  exact finsum_mem_empty

theorem inside_terminal (h : ∀ name, category ≠ .nonterminal name) :
    G.inside tokens S [category] i j =
      if j = i + 1 ∧ (tokens[i]?.any (·.isA category)) = true then 1 else 0 := by
  rw [inside, forests_terminal h]
  split
  · rw [finsum_mem_singleton, Forest.ruleWeight_leaf]
  · exact finsum_mem_empty

/-- What is of several kinds weighs what that of each kind weighs. -/
theorem finsum_mem_biUnion_finset {ι β : Type} {kinds : Finset ι} {parts : ι → Set β}
    (hdisjoint : (kinds : Set ι).PairwiseDisjoint parts) (hfinite : ∀ x ∈ kinds, (parts x).Finite)
    (weight : β → S.Members) :
    ∑ᶠ f ∈ ⋃ x ∈ kinds, parts x, weight f = ∑ x ∈ kinds, ∑ᶠ f ∈ parts x, weight f := by
  have hunion := finsum_mem_biUnion (f := weight) hdisjoint (Finset.finite_toSet kinds) hfinite
  rw [finsum_mem_coe_finset] at hunion
  exact hunion

/-- What is put together of two parts in one way only weighs what the parts weigh. -/
theorem finsum_mem_image2 {β γ δ : Type} {join : β → γ → δ} {first : Set β} {second : Set γ}
    (hfirst : first.Finite) (hsecond : second.Finite)
    (hinj : Set.InjOn (fun x : β × γ => join x.1 x.2) (first ×ˢ second))
    {weight : δ → S.Members} {u : β → S.Members} {v : γ → S.Members}
    (hweight : ∀ a b, weight (join a b) = u a * v b) :
    ∑ᶠ x ∈ Set.image2 join first second, weight x =
      (∑ᶠ a ∈ first, u a) * ∑ᶠ b ∈ second, v b := by
  rw [← Set.image_prod, finsum_mem_image hinj,
    finsum_mem_eq_finite_toFinset_sum _ (hfirst.prod hsecond),
    finsum_mem_eq_finite_toFinset_sum _ hfirst, finsum_mem_eq_finite_toFinset_sum _ hsecond,
    Finset.sum_mul_sum, ← Finset.sum_product', Set.Finite.toFinset_prod]
  exact Finset.sum_congr rfl fun x _ => hweight x.1 x.2

/-- What is finitely many can be listed without repetitions. The scores of all that is listed add up
to what it weighs, with a common factor. -/
theorem exists_list_sum {β : Type} {set : Set β} (hset : set.Finite) {score : β → α}
    {weight : β → S.Members} {factor : S.Members}
    (hscore : ∀ x, S.member (score x) = true ∧ S.lift (score x) = weight x * factor) :
    ∃ listed : List β, listed.Nodup ∧ (∀ x, x ∈ listed ↔ x ∈ set) ∧
      S.member (S.sum (listed.map score)) = true ∧
      S.lift (S.sum (listed.map score)) = (∑ᶠ x ∈ set, weight x) * factor := by
  have hmem : ∀ s ∈ hset.toFinset.toList.map score, S.member s = true := by
    intro s hs
    obtain ⟨x, -, rfl⟩ := List.mem_map.1 hs
    exact (hscore x).1
  obtain ⟨hsum, hlift⟩ := ScoreAlgebra.sum_mem hmem
  refine ⟨hset.toFinset.toList, Finset.nodup_toList _, fun x => ?_, hsum, ?_⟩
  · rw [Finset.mem_toList, Set.Finite.mem_toFinset]
  · rw [hlift, finsum_mem_eq_finite_toFinset_sum _ hset, Finset.sum_mul, ← Finset.sum_map_toList,
      List.map_map]
    exact congrArg List.sum (List.map_congr_left fun x _ => (hscore x).2)

/-- What a nonterminal derives weighs what its rules and the forests below them weigh. -/
theorem inside_nonterminal (hacyclic : G.UnitAcyclic) :
    G.inside tokens S [.nonterminal name] i j =
      ∑ q ∈ G.productionsFor name, S.lift (G.score S q) * G.inside tokens S q.right i j := by
  have hinj : Function.Injective fun below => Forest.cons (.nonterminal name) below .nil :=
    fun below below' h => (Forest.cons.inj h).2.1
  rw [inside, forests_nonterminal, finsum_mem_biUnion_finset ?_ fun q _ =>
    (finite_forests tokens hacyclic q.right i j).image _]
  · refine Finset.sum_congr rfl fun q hq => ?_
    obtain ⟨hproduction, hleft⟩ := mem_productionsFor.1 hq
    have hfinite := finite_forests tokens hacyclic q.right i j
    rw [finsum_mem_image hinj.injOn, inside, mul_finsum_mem' _ _ hfinite]
    refine finsum_mem_congr rfl fun below hbelow => ?_
    have hroots : below.roots = q.right := hbelow.1
    rw [Forest.ruleWeight_node, ← hleft, hroots]
    rintro rfl
    exact hproduction.right_ne_nil hroots.symm
  · -- The roots below tell the rule.
    intro q hq q' hq' hne
    refine Set.disjoint_left.2 ?_
    rintro f ⟨below, hbelow, rfl⟩ ⟨below', hbelow', heq⟩
    obtain rfl : below' = below := hinj heq
    have hleft := (mem_productionsFor.1 (Finset.mem_coe.1 hq)).2
    have hleft' := (mem_productionsFor.1 (Finset.mem_coe.1 hq')).2
    have hright : q.right = q'.right := hbelow.1.symm.trans hbelow'.1
    cases q
    cases q'
    exact hne (by simp_all)

/-- Forests put together weigh what their parts weigh. -/
theorem finsum_mem_image2_append {before behind : Set Forest} (hbefore : before.Finite)
    (hbehind : behind.Finite) (hroots : ∀ f ∈ before, f.roots = form) :
    ∑ᶠ f ∈ Set.image2 (· ++ ·) before behind, f.ruleWeight S G =
      (∑ᶠ f ∈ before, f.ruleWeight S G) * ∑ᶠ f ∈ behind, f.ruleWeight S G := by
  refine finsum_mem_image2 hbefore hbehind ?_ Forest.ruleWeight_append
  rintro ⟨f, g⟩ ⟨hf, -⟩ ⟨f', g'⟩ ⟨hf', -⟩ heq
  obtain ⟨rfl, rfl⟩ := Forest.append_inj ((hroots f hf).trans (hroots f' hf').symm) heq
  rfl

/-- What a form derives is divided where its last category begins. -/
theorem inside_concat (hacyclic : G.UnitAcyclic) :
    G.inside tokens S (form ++ [category]) i j =
      ∑ k ∈ Finset.range j, G.inside tokens S form i k * G.inside tokens S [category] k j := by
  have hfinite : ∀ form i j, (G.forests tokens form i j).Finite := finite_forests tokens hacyclic
  rw [inside, forests_concat, finsum_mem_biUnion_finset ?_ fun k _ =>
    (hfinite form i k).image2 _ (hfinite [category] k j)]
  · exact Finset.sum_congr rfl fun k _ =>
      finsum_mem_image2_append (hfinite form i k) (hfinite [category] k j) fun f hf => hf.1
  · -- The trees before the last one tell where it begins.
    intro k hk k' hk' hne
    refine Set.disjoint_left.2 ?_
    rintro f ⟨g, hg, t, ht, rfl⟩ ⟨g', hg', t', ht', heq⟩
    obtain ⟨rfl, -⟩ := Forest.append_inj (hg'.1.trans hg.1.symm) heq
    exact hne (hg.2.end_unique hg'.2)

end Weight

end Grammar

end SemiringParsing
