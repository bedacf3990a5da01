import SemiringParsing.Proofs.Grammar.CornerChains
import SemiringParsing.Proofs.Number.Nonneg

/-!
# Left corners are the closure of steps

In an exact commutative algebra the table of left corners is the reflexive transitive closure of
the scores of single steps. `LeftCorners.Closes` says what this means, and the main statement,
`ofGrammar_closes`, that it holds of the left corners of every accepted grammar, however its rules
recurse on the left.
-/

namespace SemiringParsing

open Relation

variable {π α : Type} [Number π]

namespace LeftCorners

/-- The score of a chain of rules: those of its rules, composed. -/
def chainScore (S : ScoreAlgebra π α) (chain : List (Rule π)) : α :=
  S.product (chain.map fun r => S.ofProbability r.probability)

/-- The left corners of a grammar are closed under its steps. -/
structure Closes (S : ScoreAlgebra π α) (G : Grammar π) (corners : LeftCorners α) : Prop where
  /-- A chain is empty, or it has a first step. -/
  first : ∀ source ∈ G.nonterminals, ∀ target ∈ G.nonterminals,
    corners.weightTo S source target = S.plus (if source = target then S.one else S.zero)
      (S.sum (G.nonterminals.map fun name =>
        S.times (stepScore S G.rules source name) (corners.weightTo S name target)))
  /-- A chain is empty, or it has a last step. -/
  last : ∀ source ∈ G.nonterminals, ∀ target ∈ G.nonterminals,
    corners.weightTo S source target = S.plus (if source = target then S.one else S.zero)
      (S.sum (G.nonterminals.map fun name =>
        S.times (corners.weightTo S source name) (stepScore S G.rules name target)))
  /-- A nonterminal lists itself, and what chains of rules lead to none of which has the score
  zero. In an algebra in which one is zero nothing scores anything, and nothing is listed. -/
  listed : ∀ source ∈ G.nonterminals, ∀ category,
    category ∈ (corners.reachableFrom (.nonterminal source)).map Prod.fst ↔
      S.one ≠ S.zero ∧ ∃ target, category = .nonterminal target ∧
        (source = target ∨ TransGen (Step S G) source target)
  /-- No category is listed twice. -/
  nodup : ∀ category, ((corners.reachableFrom category).map Prod.fst).Nodup
  /-- If the grammar does not recurse on the left, a weight adds up all chains. -/
  chains : G.CornerAcyclic → ∀ source ∈ G.nonterminals, ∀ target ∈ G.nonterminals,
    ∃ chains : List (List (Rule π)), G.ListsChains target source chains ∧
      corners.weightTo S source target = S.sum (chains.map (chainScore S))

section Exact

variable {S : ScoreAlgebra π α} [S.IsCommSemiring] {G : Grammar π} {source target : String}

/-- An entry of a sum of the identity and a product of tables. -/
theorem lift_plus_sum_times {f g : String → α} (hf : ∀ name, S.member (f name) = true)
    (hg : ∀ name, S.member (g name) = true) (P : Prop) [Decidable P] (names : List String) :
    S.member (S.plus (if P then S.one else S.zero)
      (S.sum (names.map fun name => S.times (f name) (g name)))) = true ∧
    S.lift (S.plus (if P then S.one else S.zero)
      (S.sum (names.map fun name => S.times (f name) (g name)))) =
        (if P then 1 else 0) + (names.map fun name => S.lift (f name) * S.lift (g name)).sum := by
  have hmem : ∀ x ∈ names.map fun name => S.times (f name) (g name), S.member x = true := by
    intro x hx
    obtain ⟨name, -, rfl⟩ := List.mem_map.1 hx
    exact ScoreAlgebra.IsSemiring.times_mem (hf name) (hg name)
  have hunit : S.member (if P then S.one else S.zero) = true := by
    split
    · exact ScoreAlgebra.IsSemiring.one_mem
    · exact ScoreAlgebra.IsSemiring.zero_mem
  obtain ⟨hsum, hlift⟩ := ScoreAlgebra.sum_mem hmem
  refine ⟨ScoreAlgebra.IsSemiring.plus_mem hunit hsum, ?_⟩
  rw [ScoreAlgebra.lift_plus hunit hsum, hlift, List.map_map]
  congr 1
  · split <;> simp
  · refine congrArg List.sum (List.map_congr_left fun name _ => ?_)
    exact ScoreAlgebra.lift_times (hf name) (hg name)

theorem chainScore_mem {chain : List (Rule π)} (h : ∀ r ∈ chain, r ∈ G.rules) :
    S.member (chainScore S chain) = true ∧
      S.lift (chainScore S chain) = Grammar.chainWeight S chain := by
  have hmem : ∀ x ∈ chain.map fun r => S.ofProbability r.probability, S.member x = true := by
    intro x hx
    obtain ⟨r, hr, rfl⟩ := List.mem_map.1 hx
    exact Grammar.ofProbability_mem (h r hr)
  obtain ⟨hproduct, hlift⟩ := ScoreAlgebra.foldl_times_mem hmem ScoreAlgebra.IsSemiring.one_mem
  refine ⟨hproduct, hlift.trans ?_⟩
  rw [ScoreAlgebra.lift_one, one_mul, List.map_map]
  rfl

/-- In an algebra in which one is zero no left corner has a weight. -/
theorem reachableFrom_eq_nil (hone : S.one = S.zero) (category : Category) :
    (ofGrammar S G).reachableFrom category = [] := by
  refine List.eq_nil_iff_forall_not_mem.2 fun corner hcorner => ?_
  obtain ⟨i, -, hrow⟩ := mem_reachableFrom.1 hcorner
  obtain ⟨j, hnonZero, rfl⟩ := mem_row.1 hrow
  have hmem := mem_values_of_mem_reachableFrom S.closed
    (fun r hr => Grammar.ofProbability_mem hr) hcorner
  refine (ScoreAlgebra.nonZero_iff hmem).1 hnonZero ?_
  rw [← ScoreAlgebra.IsSemiring.one_times hmem, hone, ScoreAlgebra.IsSemiring.zero_times hmem]

/-- The categories that a nonterminal lists. -/
theorem mem_map_fst_reachableFrom (hsource : source ∈ G.nonterminals) {category : Category} :
    category ∈ ((ofGrammar S G).reachableFrom (.nonterminal source)).map Prod.fst ↔
      S.one ≠ S.zero ∧ ∃ target, category = .nonterminal target ∧
        (source = target ∨ TransGen (Step S G) source target) := by
  by_cases hone : S.one = S.zero
  · simp [reachableFrom_eq_nil hone, hone]
  · have hlisted : ∀ target, (∃ w, (.nonterminal target, w) ∈
        (ofGrammar S G).reachableFrom (.nonterminal source)) ↔
          source = target ∨ TransGen (Step S G) source target := fun target => by
      rw [mem_reachableFrom_iff (ScoreAlgebra.positive hone) fun r hr =>
          Grammar.ofProbability_mem hr, reflTransGen_iff_eq_or_transGen, eq_comm (a := target)]
      exact and_iff_right hsource
    rw [List.mem_map]
    constructor
    · rintro ⟨corner, hcorner, rfl⟩
      obtain ⟨target, -, htarget⟩ := exists_name_of_mem_reachableFrom hcorner
      exact ⟨hone, target, htarget, (hlisted target).1 ⟨corner.2, htarget ▸ hcorner⟩⟩
    · rintro ⟨-, target, rfl, hchain⟩
      obtain ⟨w, hw⟩ := (hlisted target).2 hchain
      exact ⟨_, hw, rfl⟩

/-- **The left corners are the closure of steps.** The weights of left corners are those of all
chains of rules, of which one is empty, and any other has a first step and a last. Those are listed
to which there is a chain of rules none of which scores zero, and each is listed once. If the
grammar does not recurse on the left the chains are finitely many, and a weight is their sum. -/
theorem ofGrammar_closes (S : ScoreAlgebra π α) [S.IsCommSemiring] (G : Grammar π) :
    (ofGrammar S G).Closes S G where
  first source hsource target htarget := by
    obtain ⟨hmem, hlift⟩ := lift_plus_sum_times (S := S) (stepScore_mem S G source)
      (fun name => weightTo_mem S G name target) (source = target) G.nonterminals
    rw [← ScoreAlgebra.lift_inj (weightTo_mem S G source target) hmem, hlift]
    exact lift_weightTo_first hsource htarget
  last source hsource target htarget := by
    obtain ⟨hmem, hlift⟩ := lift_plus_sum_times (S := S) (weightTo_mem S G source)
      (fun name => stepScore_mem S G name target) (source = target) G.nonterminals
    rw [← ScoreAlgebra.lift_inj (weightTo_mem S G source target) hmem, hlift]
    exact lift_weightTo_last hsource htarget
  listed source hsource category := mem_map_fst_reachableFrom hsource
  nodup := nodup_reachableFrom S G
  chains hacyclic source hsource target htarget := by
    obtain ⟨chains, hchains⟩ := hacyclic.exists_listsChains target source
    have hscore : ∀ chain ∈ chains, S.member (chainScore S chain) = true ∧
        S.lift (chainScore S chain) = Grammar.chainWeight S chain := fun chain hchain =>
      chainScore_mem ((hchains.mem_iff chain).1 hchain).mem_rules
    have hmem : ∀ x ∈ chains.map (chainScore S), S.member x = true := by
      intro x hx
      obtain ⟨chain, hchain, rfl⟩ := List.mem_map.1 hx
      exact (hscore chain hchain).1
    obtain ⟨hsum, hlift⟩ := ScoreAlgebra.sum_mem hmem
    refine ⟨chains, hchains, ?_⟩
    rw [← ScoreAlgebra.lift_inj (weightTo_mem S G source target) hsum, hlift, List.map_map,
      hacyclic.lift_weightTo_eq_sum hsource htarget hchains]
    exact congrArg List.sum (List.map_congr_left fun chain hchain => (hscore chain hchain).2.symm)

end Exact

end LeftCorners

namespace Examples

/-- Two nonterminals that begin with themselves and with each other. -/
def interlockedGrammar : Grammar Exact :=
  ⟨"A", [weighted "A" 0.5 [.nonterminal "A", .terminal "a"],
    weighted "A" 0.25 [.nonterminal "B", .terminal "b"],
    weighted "A" 0.25 [.terminal "x"],
    weighted "B" 0.5 [.nonterminal "A", .terminal "c"],
    weighted "B" 0.5 [.nonterminal "B", .terminal "d"]], by decide +kernel, _, rfl⟩

/-- Two chains lead from `S` to `C`. -/
def forkedGrammar : Grammar Exact :=
  ⟨"S", [weighted "S" 0.5 [.nonterminal "A", .terminal "x"],
    weighted "S" 0.5 [.nonterminal "B", .terminal "y"],
    weighted "A" 0.5 [.nonterminal "C", .terminal "z"],
    weighted "A" 0.5 [.terminal "a"],
    weighted "B" 0.25 [.nonterminal "C"],
    weighted "B" 0.75 [.terminal "b"],
    .certain "C" [.terminal "c"]], by decide +kernel, _, rfl⟩

theorem cornerAcyclic_forked : forkedGrammar.CornerAcyclic :=
  .of_rank (fun name => if name = "S" then 2 else if name = "C" then 0 else 1) (by decide +kernel)

end Examples

namespace LeftCorners

/-- With probabilities, what begins with itself and with each other in turn has weights above one,
and two chains lead to a left corner with the sum of their scores. -/
theorem ofGrammar_closes_forked : ∃ chains : List (List (Rule Exact)),
    (ofGrammar .probability Examples.interlockedGrammar).weightTo .probability "A" "B" =
        .number 2 ∧
      (ofGrammar .probability Examples.interlockedGrammar).Closes .probability
        Examples.interlockedGrammar ∧
      Examples.forkedGrammar.ListsChains "C" "S" chains ∧
      (ofGrammar .probability Examples.forkedGrammar).weightTo .probability "S" "C" =
        ScoreAlgebra.probability.sum (chains.map (chainScore .probability)) ∧
      (ofGrammar .probability Examples.forkedGrammar).weightTo .probability "S" "C" =
        .number 0.375 := by
  obtain ⟨chains, hchains, hsum⟩ := (ofGrammar_closes .probability Examples.forkedGrammar).chains
    Examples.cornerAcyclic_forked "S" (by decide +kernel) "C" (by decide +kernel)
  exact ⟨chains, by decide +kernel, ofGrammar_closes .probability Examples.interlockedGrammar,
    hchains, hsum, by decide +kernel⟩

end LeftCorners

end SemiringParsing
