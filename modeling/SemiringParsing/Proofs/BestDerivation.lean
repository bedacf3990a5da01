import SemiringParsing.Proofs.Number.Best
import SemiringParsing.Proofs.Sweep.BestValues
import SemiringParsing.Proofs.TotalWeight

/-!
# The score of the best derivation

In a selective algebra the score of a parse is that of the best derivation tree of the input, and
zero if there is none. The grammar may have cycles of unit productions, and the input infinitely
many trees.

The score is that of some tree, since every score is selected from scores of derivations
(`confines_attained`). No tree scores more, since the values of the finished chart satisfy the
recurrence, whose sums are at least what any tree contributes (`Composed.mul_le_value`).
-/

namespace SemiringParsing

open ScoreAlgebra

variable {π α τ : Type} [Number π]

/-- The first of what is there behind a dot. -/
theorem getElem?_of_cons_prefix_drop {β : Type} {x : β} {xs ys : List β} {n : Nat}
    (h : x :: xs <+: ys.drop n) : ys[n]? = some x ∧ xs <+: ys.drop (n + 1) := by
  obtain ⟨zs, h⟩ := h
  constructor
  · rw [← List.head?_drop, ← h]
    rfl
  · exact ⟨zs, by rw [← List.tail_drop, ← h]; rfl⟩

namespace Forest

variable {G : Grammar π} {S : ScoreAlgebra π α} [S.IsCommSemiring] {category : Category}
  {below beside : Forest}

theorem ruleWeight_cons_nil :
    (cons category nil beside).ruleWeight S G = beside.ruleWeight S G := by
  rw [show cons category nil beside = cons category nil nil ++ beside from rfl,
    ruleWeight_append, ruleWeight_leaf, one_mul]

theorem ruleWeight_cons (hbelow : below ≠ nil) : (cons category below beside).ruleWeight S G =
    S.lift (G.score S ⟨category, below.roots⟩) * below.ruleWeight S G * beside.ruleWeight S G := by
  rw [show cons category below beside = cons category below nil ++ beside from rfl,
    ruleWeight_append, ruleWeight_node hbelow]

end Forest

namespace Grammar

variable {G : Grammar π} {S : ScoreAlgebra π α} [S.IsSelective] {options : ParseOptions τ α}
  {tokens : List (Token τ)} {value : Item → S.Members} {production : Production}
  {i j k dot : Nat} {f : Forest}

namespace Composed

/-- Moving a dot over a token. -/
theorem mul_tokenWeight (h : G.Composed S options tokens value value) {category : Category}
    {token : Token τ} (hactive : production.right[dot]? = some category)
    (htoken : tokens[k]? = some token) (hcategory : token.isA category = true) :
    value ⟨production, k, i, dot⟩ * tokenWeight S options tokens k =
      value ⟨production, k + 1, i, dot + 1⟩ := by
  rw [h.scanned hactive (Token.ne_nonterminal_of_isA hcategory) (Token.ne_start_of_isA hcategory),
    if_pos (by simp [htoken, hcategory])]

/-- Moving a dot over one completed rule is not better than over the best. -/
theorem mul_le (h : G.Composed S options tokens value value) {name : String} {q : Production}
    (hactive : production.right[dot]? = some (.nonterminal name)) (hq : q ∈ G.productionsFor name)
    (hlt : k < j) : value ⟨production, k, i, dot⟩ * value ⟨q, j, k, q.length⟩ ≤
      value ⟨production, j, i, dot + 1⟩ := by
  rw [h.completed hactive]
  let term k q := value ⟨production, k, i, dot⟩ * value ⟨q, j, k, q.length⟩
  have hrule : term k q ≤ ∑ q ∈ G.productionsFor name, term k q :=
    Finset.single_le_sum (f := term k) (fun _ _ => zero_le) hq
  exact hrule.trans (Finset.single_le_sum (f := fun k => ∑ q ∈ G.productionsFor name, term k q)
    (fun _ _ => zero_le) (Finset.mem_range.2 hlt))

/-- What is before a dot and a forest behind it score together is at most the value of the item with
the dot behind the forest. -/
theorem mul_le_value (h : G.Composed S options tokens value value)
    (hspans : f.Spans G tokens k j) (hroots : f.roots <+: production.right.drop dot) :
    value ⟨production, k, i, dot⟩ * (f.ruleWeight S G * tokensWeight S options tokens k j) ≤
      value ⟨production, j, i, dot + f.roots.length⟩ := by
  induction hspans generalizing production i dot with
  | nil k => simp [Forest.roots]
  | @leaf category beside k j token htoken hcategory hbeside ih =>
    obtain ⟨hactive, hdrop⟩ := getElem?_of_cons_prefix_drop hroots
    have htokens : tokenWeight S options tokens k * tokensWeight S options tokens (k + 1) j =
        tokensWeight S options tokens k j := by
      rw [← tokensWeight_mul (Nat.le_succ k) hbeside.le, tokensWeight_succ le_rfl,
        tokensWeight_self, one_mul]
    calc value ⟨production, k, i, dot⟩ * ((Forest.cons category .nil beside).ruleWeight S G *
            tokensWeight S options tokens k j)
        = value ⟨production, k + 1, i, dot + 1⟩ *
            (beside.ruleWeight S G * tokensWeight S options tokens (k + 1) j) := by
          rw [Forest.ruleWeight_cons_nil, ← htokens,
            ← h.mul_tokenWeight hactive htoken hcategory]
          ring
      _ ≤ value ⟨production, j, i, dot + 1 + beside.roots.length⟩ := ih hdrop
      _ = _ := by rw [Forest.roots, List.length_cons, Nat.add_right_comm, Nat.add_assoc]
  | @node category below beside k j m hproduction hbelow hbeside ihBelow ihBeside =>
    obtain ⟨hactive, hdrop⟩ := getElem?_of_cons_prefix_drop hroots
    obtain ⟨name, rfl⟩ : ∃ name, category = .nonterminal name := by
      obtain ⟨rule, hrule, heq⟩ := hproduction
      obtain ⟨name, hname⟩ := left_eq_nonterminal hrule
      exact ⟨name, (congrArg Production.left heq).symm.trans hname⟩
    have hq : ⟨.nonterminal name, below.roots⟩ ∈ G.productionsFor name :=
      mem_productionsFor.2 ⟨hproduction, rfl⟩
    have hne : below ≠ .nil := fun hnil => hproduction.right_ne_nil (Forest.roots_eq_nil.2 hnil)
    have hbelowLe : value ⟨⟨.nonterminal name, below.roots⟩, k, k, 0⟩ *
        (below.ruleWeight S G * tokensWeight S options tokens k m) ≤
          value ⟨⟨.nonterminal name, below.roots⟩, m, k, 0 + below.roots.length⟩ :=
      ihBelow (List.prefix_refl below.roots)
    rw [Nat.zero_add] at hbelowLe
    calc value ⟨production, k, i, dot⟩ *
          ((Forest.cons (.nonterminal name) below beside).ruleWeight S G *
            tokensWeight S options tokens k j)
        = value ⟨production, k, i, dot⟩ * S.lift (G.score S ⟨.nonterminal name, below.roots⟩) *
            (below.ruleWeight S G * tokensWeight S options tokens k m) *
            (beside.ruleWeight S G * tokensWeight S options tokens m j) := by
          rw [Forest.ruleWeight_cons hne, ← tokensWeight_mul hbelow.le hbeside.le]
          ring
      _ = value ⟨production, k, i, dot⟩ * (value ⟨⟨.nonterminal name, below.roots⟩, k, k, 0⟩ *
            (below.ruleWeight S G * tokensWeight S options tokens k m)) *
            (beside.ruleWeight S G * tokensWeight S options tokens m j) := by
          rw [← h.offered hactive hq]
          ring
      _ ≤ value ⟨production, k, i, dot⟩ *
            value ⟨⟨.nonterminal name, below.roots⟩, m, k, below.roots.length⟩ *
            (beside.ruleWeight S G * tokensWeight S options tokens m j) := by gcongr
      _ ≤ value ⟨production, m, i, dot + 1⟩ *
            (beside.ruleWeight S G * tokensWeight S options tokens m j) := by
          gcongr
          exact h.mul_le hactive hq (hbelow.lt hne)
      _ ≤ value ⟨production, j, i, dot + 1 + beside.roots.length⟩ := ihBeside hdrop
      _ = _ := by rw [Forest.roots, List.length_cons, Nat.add_right_comm, Nat.add_assoc]

end Composed

/-- No derivation tree scores more than the start symbol does when it is matched by all tokens. -/
theorem Recurrence.le_value_goal (h : G.Recurrence S options tokens value)
    (hf : f ∈ G.forests tokens [.nonterminal G.start] 0 j) :
    f.ruleWeight S G * tokensWeight S options tokens 0 j ≤
      value ⟨G.topRule.toProduction, j, 0, 1⟩ := by
  have hle : value ⟨G.topRule.toProduction, 0, 0, 0⟩ *
      (f.ruleWeight S G * tokensWeight S options tokens 0 j) ≤
        value ⟨G.topRule.toProduction, j, 0, 0 + f.roots.length⟩ :=
    h.toComposed.mul_le_value hf.2 (by rw [hf.1]; exact List.prefix_refl _)
  rw [h.top, one_mul, hf.1] at hle
  exact hle

end Grammar

/-- The derivation trees of an input from the start symbol. -/
def Grammar.trees (G : Grammar π) (tokens : List (Token τ)) : Set ParseTree :=
  {t | t.IsDerivation G tokens (.nonterminal G.start) 0 tokens.length}

theorem Grammar.image_forest_trees (G : Grammar π) (tokens : List (Token τ)) :
    ParseTree.forest '' G.trees tokens = G.forests tokens [.nonterminal G.start] 0 tokens.length :=
  forests_singleton.symm

namespace Parser

variable {p : Parser π α} [p.algebra.IsSelective] {options : ParseOptions τ α}
  {tokens : List (Token τ)} {fuel : Nat} {result : ParseResult π α}

/-- No derivation tree scores more than the parse. -/
theorem lift_weight_le (hoptions : options.WeighsIn p.algebra)
    (h : p.parse options fuel tokens = some result) {t : ParseTree}
    (ht : t ∈ p.grammar.trees tokens) :
    p.algebra.lift (t.weight p.algebra p.grammar options tokens) ≤ p.algebra.lift result.score := by
  obtain ⟨passed, hb, -⟩ := (reaches_of_parse h).1.exists_accounts hoptions
  have hforest : t.forest ∈
      p.grammar.forests tokens [.nonterminal p.grammar.start] 0 tokens.length := by
    rw [← Grammar.image_forest_trees]
    exact ⟨t, ht, rfl⟩
  rw [(ParseTree.weight_mem hoptions t).2, (lift_score hb.inner h).2]
  exact (recurrence_of_parse hoptions h).le_value_goal hforest

/-- The score of a parse is that of a derivation tree, or zero. -/
theorem exists_weight_eq_or_zero (hoptions : options.WeighsIn p.algebra)
    (h : p.parse options fuel tokens = some result) :
    (∃ t ∈ p.grammar.trees tokens, t.weight p.algebra p.grammar options tokens = result.score) ∨
      result.score = p.algebra.zero := by
  have hreaches := (reaches_of_parse h).1
  obtain ⟨passed, hb, -⟩ := hreaches.exists_accounts hoptions
  obtain ⟨hmem, hvalue⟩ := lift_score hb.inner h
  rw [← lift_inj hmem IsSemiring.zero_mem, lift_zero, hvalue]
  rcases result.chart.exists_or_forall_ne (p.goal tokens.length).item with
    ⟨id, r, hr, hitem⟩ | hnone
  · have hstored :=
      (hreaches.within (confines_attained p tokens hoptions)).stored id r hr .inner rfl
    rw [Chart.value_of_record? (finished_of_parse h).indexed hr hitem] at hvalue ⊢
    rw [hitem] at hstored
    obtain ⟨-, hzero | ⟨f, hf, hscore⟩⟩ := hstored
    · exact .inr hzero
    · obtain ⟨t, ht, rfl⟩ : f ∈ ParseTree.forest '' p.grammar.trees tokens := by
        rw [Grammar.image_forest_trees]
        exact hf
      obtain ⟨htree, hweight⟩ : p.algebra.member (t.weight p.algebra p.grammar options tokens) =
          true ∧ p.algebra.lift (t.weight p.algebra p.grammar options tokens) = _ :=
        ParseTree.weight_mem hoptions t
      have htop : p.headScore (p.goal tokens.length).item.production = 1 := if_pos rfl
      rw [htop, one_mul] at hscore
      exact .inl ⟨t, ht, (lift_inj htree hmem).1 (hweight.trans (hscore.symm.trans hvalue.symm))⟩
  · exact .inr (Chart.value_eq_zero hnone)

/-- If a parse scores zero all derivation trees do. -/
theorem weight_eq_zero (hoptions : options.WeighsIn p.algebra)
    (h : p.parse options fuel tokens = some result) (hzero : result.score = p.algebra.zero)
    {t : ParseTree} (ht : t ∈ p.grammar.trees tokens) :
    t.weight p.algebra p.grammar options tokens = p.algebra.zero := by
  have hle := lift_weight_le hoptions h ht
  rwa [hzero, lift_zero, le_zero_iff, ← lift_zero,
    lift_inj (ParseTree.weight_mem hoptions t).1 IsSemiring.zero_mem] at hle

/-- **The best derivation.** The score of a parse in a selective algebra is that of a derivation
tree of the input, or zero if there is none. -/
theorem exists_weight_eq_score (hoptions : options.WeighsIn p.algebra)
    (h : p.parse options fuel tokens = some result) :
    (∃ t ∈ p.grammar.trees tokens, t.weight p.algebra p.grammar options tokens = result.score) ∨
      p.grammar.trees tokens = ∅ ∧ result.score = p.algebra.zero := by
  rcases exists_weight_eq_or_zero hoptions h with htree | hzero
  · exact .inl htree
  · rcases (p.grammar.trees tokens).eq_empty_or_nonempty with hempty | ⟨t, ht⟩
    · exact .inr ⟨hempty, hzero⟩
    · exact .inl ⟨t, ht, (weight_eq_zero hoptions h hzero ht).trans hzero.symm⟩

end Parser

/-! ## Over exact numbers -/

/-- In the algebra of best derivations, a member is at most another in the order of the algebra when
it is as a number. -/
theorem Exact.le_of_lift_le {a b : Exact}
    (ha : (viterbi : ScoreAlgebra Exact Exact).member a = true)
    (hb : (viterbi : ScoreAlgebra Exact Exact).member b = true)
    (h : (viterbi : ScoreAlgebra Exact Exact).lift a ≤
      (viterbi : ScoreAlgebra Exact Exact).lift b) :
    Number.le a b = true := by
  have hplus : (viterbi : ScoreAlgebra Exact Exact).plus a b = b := by
    rw [← lift_inj (IsSemiring.plus_mem ha hb) hb, lift_plus ha hb]
    exact h.add_eq_right
  obtain ⟨x, rfl⟩ := (represents_viterbi.member_iff a).1 ha
  obtain ⟨y, rfl⟩ := (represents_viterbi.member_iff b).1 hb
  rw [represents_viterbi.plus] at hplus
  have hsum : x + y = y := represents_viterbi.injective hplus
  rw [le_ofNonneg]
  exact max_eq_right_iff.1 (congrArg Best.score hsum)

namespace Parser

/-- **Best derivations.** With the algebra of best derivations over exact numbers a parse returns,
whatever cycles the grammar has. Its score is the largest weight of a derivation tree of the input.
If there is no derivation tree it is zero. -/
theorem score_eq_best (G : Grammar Exact) {options : ParseOptions τ Exact}
    (hoptions : options.WeighsIn (viterbi : ScoreAlgebra Exact Exact)) (tokens : List (Token τ)) :
    ∃ bound result,
      (∀ fuel, bound ≤ fuel → (Parser.new G .viterbi).parse options fuel tokens = some result) ∧
      (∀ t ∈ G.trees tokens,
        Number.le (t.weight .viterbi G options tokens) result.score = true) ∧
      ((∃ t ∈ G.trees tokens, t.weight .viterbi G options tokens = result.score) ∨
        G.trees tokens = ∅ ∧ result.score = 0) := by
  let p : Parser Exact Exact := Parser.new G .viterbi
  have : p.algebra.IsSelective := inferInstanceAs (viterbi : ScoreAlgebra Exact Exact).IsSelective
  obtain ⟨bound, result, hparse⟩ := (settles_of_selective (p := p) hoptions tokens).returns
  have hresult : p.parse options bound tokens = some result := hparse bound le_rfl
  obtain ⟨passed, hb, -⟩ := (reaches_of_parse hresult).1.exists_accounts hoptions
  have hmem := (lift_score hb.inner hresult).1
  refine ⟨bound, result, hparse, fun t ht => ?_, exists_weight_eq_score hoptions hresult⟩
  exact Exact.le_of_lift_le (ParseTree.weight_mem hoptions t).1 hmem
    (lift_weight_le hoptions hresult ht)

/-- Around a cycle of unit productions there are infinitely many derivation trees of one token. The
best goes around it not once. -/
theorem score_eq_best_unitCycle : ∃ result,
    (Parser.new Examples.unitCycleGrammar .viterbi).parse
        { weight? := some fun _ _ => .number 3 } 20 [Token.literal "x"] = some result ∧
      result.score = .number (3 / 2) ∧
      (∀ t ∈ Examples.unitCycleGrammar.trees [Token.literal "x"],
        Number.le (t.weight .viterbi Examples.unitCycleGrammar
          { weight? := some fun _ _ => .number 3 } [Token.literal "x"]) result.score = true) ∧
      ∃ t ∈ Examples.unitCycleGrammar.trees [Token.literal "x"],
        t.weight .viterbi Examples.unitCycleGrammar { weight? := some fun _ _ => .number 3 }
          [Token.literal "x"] = result.score := by
  have hoptions : ParseOptions.WeighsIn
      ({ weight? := some fun _ _ => .number 3 } : ParseOptions String Exact) viterbi :=
    .of_forall fun _ _ => .inr (by decide +kernel)
  have hparse : ((Parser.new Examples.unitCycleGrammar .viterbi).parse
      { weight? := some fun _ _ => .number 3 } 20 [Token.literal "x"]).any (fun result =>
        result.score == .number (3 / 2)) = true := by
    decide +kernel
  obtain ⟨result, hresult, hscore⟩ := (Option.any_eq_true _ _).1 hparse
  have hscore : result.score = .number (3 / 2) := beq_iff_eq.1 hscore
  obtain ⟨bound, result', hparse', hupper, hattained⟩ :=
    score_eq_best Examples.unitCycleGrammar hoptions [Token.literal "x"]
  obtain rfl : result = result' := parse_unique hresult (hparse' bound le_rfl)
  refine ⟨result, hresult, hscore, hupper, hattained.resolve_right ?_⟩
  rintro ⟨-, hzero⟩
  rw [hscore] at hzero
  exact absurd hzero (by decide +kernel)

end Parser

end SemiringParsing
