import Mathlib.Algebra.BigOperators.Fin
import Mathlib.Algebra.BigOperators.Intervals
import SemiringParsing.Proofs.Algebra.Semiring
import SemiringParsing.Proofs.Tree.Derivation
import SemiringParsing.Scan

/-!
# The weight of a derivation tree

A derivation tree weighs what its rules and the tokens score together (`ParseTree.weight`). A token
that is not weighed scores one. In an exact algebra the weight of a tree is that of its rules, which
is composed as forests are, times that of the tokens, which is the same for all trees over them.
-/

namespace SemiringParsing

variable {π α τ : Type} [Number π]

/-- The score of the rule with a production. -/
def Grammar.score (G : Grammar π) (S : ScoreAlgebra π α) (production : Production) : α :=
  match G.rules.find? fun r => r.toProduction == production with
  | some r => S.ofProbability r.probability
  | none => S.zero

/-- The score of a token: its weight, or one if it is not weighed. -/
def ParseOptions.tokenScore (options : ParseOptions τ α) (S : ScoreAlgebra π α) (position : Nat)
    (token : Token τ) : α :=
  match options.weightOf? position token with
  | none => S.one
  | some weight => if S.isNaN weight then S.one else weight

/-- The weights of tokens are members of an algebra, unless they are no numbers. -/
def ParseOptions.WeighsIn (options : ParseOptions τ α) (S : ScoreAlgebra π α) : Prop :=
  ∀ position token weight, options.weightOf? position token = some weight →
    S.isNaN weight = true ∨ S.member weight = true

omit [Number π] in
theorem ParseOptions.WeighsIn.empty {S : ScoreAlgebra π α} :
    ({} : ParseOptions τ α).WeighsIn S := by
  intro _ _ _ hweight
  cases hweight

omit [Number π] in
theorem ParseOptions.WeighsIn.of_forall {S : ScoreAlgebra π α} {weight : Nat → Token τ → α}
    (h : ∀ position token,
      S.isNaN (weight position token) = true ∨ S.member (weight position token) = true) :
    (⟨some weight⟩ : ParseOptions τ α).WeighsIn S := by
  intro position token _ hweight
  cases hweight
  exact h position token

/-- The productions of the rules of a nonterminal. -/
def Grammar.productionsFor (G : Grammar π) (name : String) : Finset Production :=
  ((G.rulesFor (.nonterminal name)).map Rule.toProduction).toFinset

/-- The scores of all rules of a tree and of all tokens, composed. -/
def ParseTree.weight (S : ScoreAlgebra π α) (G : Grammar π) (options : ParseOptions τ α)
    (tokens : List (Token τ)) (t : ParseTree) : α :=
  S.product (t.forest.productions.map (G.score S) ++ tokens.mapIdx (options.tokenScore S))

theorem Grammar.mem_productionsFor {G : Grammar π} {name : String} {q : Production} :
    q ∈ G.productionsFor name ↔ G.Has q ∧ q.left = .nonterminal name := by
  simp only [productionsFor, List.mem_toFinset, List.mem_map, mem_rulesFor_nonterminal]
  constructor
  · rintro ⟨r, ⟨hr, hleft⟩, rfl⟩
    exact ⟨⟨r, hr, rfl⟩, hleft⟩
  · rintro ⟨⟨r, hr, rfl⟩, hleft⟩
    exact ⟨r, ⟨hr, hleft⟩, rfl⟩

theorem Grammar.score_toProduction {G : Grammar π} {S : ScoreAlgebra π α} {r : Rule π}
    (hr : r ∈ G.rules) : G.score S r.toProduction = S.ofProbability r.probability := by
  unfold Grammar.score
  split
  · next r' hfind =>
    have heq : r' = r := Grammar.eq_of_toProduction_eq (List.mem_of_find?_eq_some hfind) hr
      (by simpa using List.find?_some hfind)
    rw [heq]
  · next hfind =>
    have := List.find?_eq_none.1 hfind r hr
    simp at this

variable {S : ScoreAlgebra π α} {G : Grammar π} {options : ParseOptions τ α}
  {tokens : List (Token τ)} {position : Nat} {token : Token τ}

section Members

variable [S.IsSemiring]

theorem Grammar.ofProbability_mem {r : Rule π} (hr : r ∈ G.rules) :
    S.member (S.ofProbability r.probability) = true :=
  ScoreAlgebra.IsSemiring.ofProbability_mem (isProbability_probability hr)

theorem Grammar.score_mem (G : Grammar π) (production : Production) :
    S.member (G.score S production) = true := by
  unfold Grammar.score
  split
  · next r hfind =>
    exact ofProbability_mem (List.mem_of_find?_eq_some hfind)
  · exact ScoreAlgebra.IsSemiring.zero_mem

namespace ParseOptions.WeighsIn

theorem tokenScore_mem (h : options.WeighsIn S) (position : Nat) (token : Token τ) :
    S.member (options.tokenScore S position token) = true := by
  unfold tokenScore
  split
  · exact ScoreAlgebra.IsSemiring.one_mem
  · next weight hweight =>
    split
    · exact ScoreAlgebra.IsSemiring.one_mem
    · next hnumber => exact (h position token weight hweight).resolve_left hnumber

/-- Weighing a token composes a score with that of the token. -/
theorem composes (h : options.WeighsIn S) (position : Nat) (token : Token τ) :
    S.Composes (Scan.reweigh S (options.weightOf? position token))
      (S.lift (options.tokenScore S position token)) := by
  intro a ha
  have hmem := h.tokenScore_mem position token
  have heq : Scan.reweigh S (options.weightOf? position token) a =
      S.times a (options.tokenScore S position token) := by
    cases hweight : options.weightOf? position token with
    | none =>
      simp only [Scan.reweigh, tokenScore, hweight]
      exact (ScoreAlgebra.IsSemiring.times_one ha).symm
    | some weight =>
      simp only [Scan.reweigh, tokenScore, hweight]
      split
      · exact (ScoreAlgebra.IsSemiring.times_one ha).symm
      · rfl
  rw [heq]
  exact ⟨ScoreAlgebra.IsSemiring.times_mem ha hmem, ScoreAlgebra.lift_times ha hmem⟩

end ParseOptions.WeighsIn

variable (S options tokens) in
/-- The weight of the token at a position. -/
def tokenWeight (position : Nat) : S.Members :=
  match tokens[position]? with
  | some token => S.lift (options.tokenScore S position token)
  | none => 1

theorem tokenWeight_eq (htoken : tokens[position]? = some token) :
    tokenWeight S options tokens position = S.lift (options.tokenScore S position token) := by
  rw [tokenWeight, htoken]

/-! ## Rules -/

namespace Forest

variable (G S) in
/-- The weight of the rules of a forest. -/
def ruleWeight (f : Forest) : S.Members :=
  (f.productions.map fun q => S.lift (G.score S q)).prod

@[simp] theorem productions_append (f g : Forest) :
    (f ++ g).productions = f.productions ++ g.productions := by
  induction f with
  | nil => rfl
  | cons c below beside _ ih => rw [cons_append, productions, productions, ih, List.append_assoc]

@[simp] theorem ruleWeight_append (f g : Forest) :
    (f ++ g).ruleWeight S G = f.ruleWeight S G * g.ruleWeight S G := by
  rw [ruleWeight, productions_append, List.map_append, List.prod_append]
  rfl

@[simp] theorem ruleWeight_nil : nil.ruleWeight S G = 1 := rfl

@[simp] theorem ruleWeight_leaf (category : Category) :
    (cons category nil nil).ruleWeight S G = 1 := rfl

/-- A tree weighs what its root and the forest below weigh. -/
theorem ruleWeight_node {category : Category} {below : Forest} (hbelow : below ≠ nil) :
    (cons category below nil).ruleWeight S G =
      S.lift (G.score S ⟨category, below.roots⟩) * below.ruleWeight S G := by
  have hempty : below.isEmpty = false := by
    rwa [← Bool.not_eq_true, isEmpty_eq_true]
  simp [ruleWeight, productions, hempty]

end Forest

end Members

/-! ## Tokens -/

section Tokens

variable [S.IsCommSemiring]

variable (S options tokens) in
/-- The weight of the tokens between two positions. -/
def tokensWeight (i j : Nat) : S.Members :=
  ∏ k ∈ Finset.Ico i j, tokenWeight S options tokens k

@[simp] theorem tokensWeight_self (i : Nat) : tokensWeight S options tokens i i = 1 := by
  simp [tokensWeight]

theorem tokensWeight_mul {i j k : Nat} (hij : i ≤ j) (hjk : j ≤ k) :
    tokensWeight S options tokens i j * tokensWeight S options tokens j k =
      tokensWeight S options tokens i k :=
  Finset.prod_Ico_consecutive _ hij hjk

theorem tokensWeight_succ {i j : Nat} (hij : i ≤ j) : tokensWeight S options tokens i (j + 1) =
    tokensWeight S options tokens i j * tokenWeight S options tokens j :=
  Finset.prod_Ico_succ_top hij _

/-- If each token weighs more by a factor, so do the tokens between two positions. -/
theorem tokensWeight_eq_mul {options' : ParseOptions τ α} {factor : Nat → S.Members}
    (hfactor : ∀ k, tokenWeight S options tokens k = factor k * tokenWeight S options' tokens k)
    (i j : Nat) : tokensWeight S options tokens i j =
      (∏ k ∈ Finset.Ico i j, factor k) * tokensWeight S options' tokens i j := by
  simp only [tokensWeight, hfactor, Finset.prod_mul_distrib]

/-- The weight of the tokens between two positions, from the list of their scores. -/
theorem prod_lift_tokenScore {i j : Nat} (hj : j ≤ tokens.length) :
    ((((tokens.mapIdx (options.tokenScore S)).take j).drop i).map S.lift).prod =
      tokensWeight S options tokens i j := by
  have hlist : (((tokens.mapIdx (options.tokenScore S)).take j).drop i).map S.lift =
      (List.range' i (j - i)).map (tokenWeight S options tokens) := by
    refine List.ext_getElem (by simp [hj]) fun k hk hk' => ?_
    have hlt : i + k < tokens.length := by simp at hk'; omega
    simp [tokenWeight, hlt]
  rw [hlist]
  rfl

variable (tokens) in
/-- Some rules and all tokens weigh together what the rules weigh times what the tokens weigh. -/
theorem product_mem (hoptions : options.WeighsIn S) (productions : List Production) :
    S.member (S.product (productions.map (G.score S) ++
      tokens.mapIdx (options.tokenScore S))) = true ∧
    S.lift (S.product (productions.map (G.score S) ++ tokens.mapIdx (options.tokenScore S))) =
      (productions.map fun q => S.lift (G.score S q)).prod *
        tokensWeight S options tokens 0 tokens.length := by
  have hmem : ∀ x ∈ productions.map (G.score S) ++ tokens.mapIdx (options.tokenScore S),
      S.member x = true := by
    intro x hx
    rcases List.mem_append.1 hx with hx | hx
    · obtain ⟨q, -, rfl⟩ := List.mem_map.1 hx
      exact G.score_mem q
    · obtain ⟨k, hk, rfl⟩ := List.mem_mapIdx.1 hx
      exact hoptions.tokenScore_mem k _
  have htokens : ((tokens.mapIdx (options.tokenScore S)).map S.lift).prod =
      tokensWeight S options tokens 0 tokens.length := by
    rw [← prod_lift_tokenScore (Nat.le_refl _), List.drop_zero,
      List.take_of_length_le (Nat.le_of_eq List.length_mapIdx)]
  obtain ⟨hweight, hlift⟩ := ScoreAlgebra.foldl_times_mem hmem ScoreAlgebra.IsSemiring.one_mem
  refine ⟨hweight, ?_⟩
  rw [ScoreAlgebra.product, hlift, ScoreAlgebra.lift_one, one_mul, List.map_append,
    List.prod_append, htokens, List.map_map]
  rfl

/-- A tree over all tokens weighs what its rules weigh times what the tokens weigh. -/
theorem ParseTree.weight_mem (hoptions : options.WeighsIn S) (t : ParseTree) :
    S.member (t.weight S G options tokens) = true ∧ S.lift (t.weight S G options tokens) =
      t.forest.ruleWeight S G * tokensWeight S options tokens 0 tokens.length :=
  product_mem tokens hoptions t.forest.productions

end Tokens

end SemiringParsing
