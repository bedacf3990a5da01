import SemiringParsing.Proofs.Sweep.Outline
import SemiringParsing.Proofs.Sweep.Reordered
import SemiringParsing.Proofs.TotalWeight

/-!
# Weights of tokens factor out

A parse that weighs tokens is compared with one over the same tokens that does not. Which
contributions are passed on differs between them, since a weight can make a contribution vanish
that would have changed a score. But both charts hold the same states, and their scores solve
recurrences that differ by the weights only. A state has in its inner score the weights of the tokens
it is over, and in its forward score those of all tokens before its end. The main statement is
`scores_eq_weigh`.
-/

namespace SemiringParsing

variable {π α τ : Type}

variable [Number π]

/-- A score with the scores of the tokens between two positions, composed in order. -/
def ParseOptions.weigh (options : ParseOptions τ α) (S : ScoreAlgebra π α)
    (tokens : List (Token τ)) (origin position : Nat) (score : α) : α :=
  (((tokens.mapIdx (options.tokenScore S)).take position).drop origin).foldl S.times score

section Weigh

variable {S : ScoreAlgebra π α} [S.IsCommSemiring] {options : ParseOptions τ α}
  {tokens : List (Token τ)} {score : α}

theorem ParseOptions.WeighsIn.weigh_mem (hoptions : options.WeighsIn S) {position : Nat}
    (hposition : position ≤ tokens.length) (origin : Nat) (hscore : S.member score = true) :
    S.member (options.weigh S tokens origin position score) = true ∧
      S.lift (options.weigh S tokens origin position score) =
        S.lift score * tokensWeight S options tokens origin position := by
  have hmem : ∀ x ∈ ((tokens.mapIdx (options.tokenScore S)).take position).drop origin,
      S.member x = true := by
    intro x hx
    obtain ⟨k, hk, rfl⟩ := List.mem_mapIdx.1 (List.mem_of_mem_take (List.mem_of_mem_drop hx))
    exact hoptions.tokenScore_mem k _
  obtain ⟨hweigh, hlift⟩ := ScoreAlgebra.foldl_times_mem hmem hscore
  exact ⟨hweigh, hlift.trans (congrArg _ (prod_lift_tokenScore hposition))⟩

/-- Without weights all tokens score one. -/
theorem tokenWeight_empty (k : Nat) : tokenWeight S ({} : ParseOptions τ α) tokens k = 1 := by
  unfold tokenWeight
  split
  · exact ScoreAlgebra.lift_one
  · rfl

theorem tokenWeight_eq_mul_empty (k : Nat) : tokenWeight S options tokens k =
    tokenWeight S options tokens k * tokenWeight S {} tokens k := by
  rw [tokenWeight_empty, mul_one]

end Weigh

namespace Parser

section Weights

variable {G : Grammar π} {S : ScoreAlgebra π α} [S.IsCommSemiring] {options : ParseOptions τ α}
  {tokens : List (Token τ)} {fuel fuel' : Nat} {result plain : ParseResult π α}
  (hacyclic : G.UnitAcyclic) (hoptions : options.WeighsIn S)
  (h : (new G S).parse options fuel tokens = some result)
  (h' : (new G S).parse {} fuel' tokens = some plain)

include hacyclic hoptions h h'

/-- The inner score of a record has the weights of the tokens that its state is over. -/
theorem inner_eq_weigh {id id' : StateId} {r r' : Record π α}
    (hr : result.chart.record? id = some r) (hr' : plain.chart.record? id' = some r')
    (hstate : r.state = r'.state) :
    r.inner = options.weigh S tokens r.state.origin r.state.position r'.inner := by
  have hfinished := finished_of_parse h
  have hinner := (forwardAccounts_of_parse hoptions h).1 id r hr
  have hinner' := (forwardAccounts_of_parse .empty h').1 id' r' hr'
  have hvalue := value_eq_mul_of_reorders tokenWeight_eq_mul_empty (.refl G) hacyclic hoptions
    .empty h h' (i := r.state.item) (hfinished.admits id r hr).start_notMem_right r.state.dot_le
  rw [Chart.value_of_record? hfinished.indexed hr rfl, Chart.value_of_record?
    (finished_of_parse h').indexed hr' (congrArg State.item hstate.symm)] at hvalue
  obtain ⟨hmem, hlift⟩ :=
    hoptions.weigh_mem (hfinished.position_le id r hr) r.state.origin hinner'
  exact (ScoreAlgebra.lift_inj hinner hmem).1 (hvalue.trans ((mul_comm _ _).trans hlift.symm))

/-- The forward score of a record has the weights of all tokens before the end of its state. -/
theorem forward_eq_weigh {id id' : StateId} {r r' : Record π α}
    (hr : result.chart.record? id = some r) (hr' : plain.chart.record? id' = some r')
    (hstate : r.state = r'.state) :
    r.forward = options.weigh S tokens 0 r.state.position r'.forward := by
  have hfinished := finished_of_parse h
  have hforward := (forwardAccounts_of_parse hoptions h).2.1.scoreOn hr
  have hforward' := (forwardAccounts_of_parse .empty h').2.1.scoreOn hr'
  have hvalue := forward_eq_mul_of_reorders tokenWeight_eq_mul_empty (.refl G) hacyclic hoptions
    .empty h h' (i := r.state.item) (hfinished.admits id r hr).start_notMem_right r.state.dot_le
    r.state.origin_le
  rw [Chart.value_turn .forward hfinished.indexed hr, hstate,
    Chart.value_turn .forward (finished_of_parse h').indexed hr', ← hstate] at hvalue
  obtain ⟨hmem, hlift⟩ := hoptions.weigh_mem (hfinished.position_le id r hr) 0 hforward'
  exact (ScoreAlgebra.lift_inj hforward hmem).1 (hvalue.trans ((mul_comm _ _).trans hlift.symm))

/-- The score has the weights of all tokens. -/
theorem score_eq_times_product :
    result.score = S.times plain.score (S.product (tokens.mapIdx (options.tokenScore S))) := by
  obtain ⟨hscore, hlift⟩ := lift_score (forwardAccounts_of_parse hoptions h).1 h
  obtain ⟨hplain, hplainLift⟩ : S.member plain.score = true ∧ S.lift plain.score =
      plain.chart.value S ((new G S).goal tokens.length).item :=
    lift_score (forwardAccounts_of_parse .empty h').1 h'
  obtain ⟨hproduct, hproductLift⟩ := product_mem (G := G) tokens hoptions []
  have hvalue : result.chart.value S ((new G S).goal tokens.length).item =
      tokensWeight S options tokens 0 tokens.length *
        plain.chart.value S ((new G S).goal tokens.length).item :=
    value_eq_mul_of_reorders tokenWeight_eq_mul_empty (.refl G) hacyclic hoptions .empty h h'
      (by simp [goal, new, State.item]) (Nat.le_refl 1)
  rw [List.map_nil, List.nil_append] at hproduct hproductLift
  rw [List.map_nil, List.prod_nil, one_mul] at hproductLift
  refine (ScoreAlgebra.lift_inj hscore (ScoreAlgebra.IsSemiring.times_mem hplain hproduct)).1 ?_
  calc S.lift result.score
      = result.chart.value S ((new G S).goal tokens.length).item := hlift
    _ = S.lift (S.product (tokens.mapIdx (options.tokenScore S))) * S.lift plain.score := by
      rw [hvalue, hproductLift, hplainLift]
    _ = S.lift (S.times plain.score (S.product (tokens.mapIdx (options.tokenScore S)))) := by
      rw [ScoreAlgebra.lift_times hplain hproduct, mul_comm]

end Weights

/-- **Weights of tokens factor out.** A parse that weighs tokens and one that does not return. Their
charts hold the same states, with the same numbers and links. The inner score of a state is that
without weights, times the weights of the tokens that the state is over; its forward score is that
without weights, times those of all tokens before its end. So the score of the input is that without
weights, times the weights of all tokens. Tokens that are not weighed weigh one. -/
theorem scores_eq_weigh {p : Parser π α} {options : ParseOptions τ α} [p.algebra.IsCommSemiring]
    (hacyclic : p.grammar.UnitAcyclic) (hoptions : options.WeighsIn p.algebra)
    (tokens : List (Token τ)) :
    (∃ bound result plain, ∀ fuel, bound ≤ fuel →
      p.parse options fuel tokens = some result ∧ p.parse {} fuel tokens = some plain) ∧
    ∀ fuel fuel' result plain, p.parse options fuel tokens = some result →
      p.parse {} fuel' tokens = some plain →
      result.chart.Alike plain.chart ∧
      (∀ id r r', result.chart.record? id = some r → plain.chart.record? id = some r' →
        r.state = r'.state ∧
        r.inner = options.weigh p.algebra tokens r.state.origin r.state.position r'.inner ∧
        r.forward = options.weigh p.algebra tokens 0 r.state.position r'.forward) ∧
      result.score = p.algebra.times plain.score
        (p.algebra.product (tokens.mapIdx (options.tokenScore p.algebra))) := by
  obtain ⟨G, S, _, rfl⟩ := p
  have : S.IsCommSemiring := ‹_›
  refine ⟨?_, fun fuel fuel' result plain h h' => ?_⟩
  · obtain ⟨bound, result, hresult⟩ := exists_parse hacyclic options tokens
    obtain ⟨bound', plain, hplain⟩ := exists_parse hacyclic ({} : ParseOptions τ α) tokens
    exact ⟨max bound bound', result, plain, fun fuel hfuel =>
      ⟨hresult fuel (le_of_max_le_left hfuel), hplain fuel (le_of_max_le_right hfuel)⟩⟩
  · have halike := (alike_of_parse rfl (fun _ _ => Iff.rfl) h h').1
    refine ⟨halike, fun id r r' hr hr' => ?_, score_eq_times_product hacyclic hoptions h h'⟩
    have hrecords := halike.records id
    rw [hr, hr'] at hrecords
    have hstate : r.state = r'.state := congrArg Prod.fst (Option.some.inj hrecords)
    exact ⟨hstate, inner_eq_weigh hacyclic hoptions h h' hr hr' hstate,
      forward_eq_weigh hacyclic hoptions h h' hr hr' hstate⟩

end Parser

namespace Examples

/-- The first token weighs a half, the second is not weighed, the third weighs a fourth and all that
follow weigh nothing. -/
def fewWeights : ParseOptions String Exact :=
  ⟨some fun position _ => [0.5, .nan, 0.25].getD position 0⟩

theorem weighsIn_fewWeights : fewWeights.WeighsIn .probability := by
  refine .of_forall fun position _ => ?_
  match position with
  | 0 | 1 | 2 => decide +kernel
  | _ + 3 =>
    have hzero : ScoreAlgebra.probability.member (0 : Exact) = true := by decide +kernel
    exact .inr hzero

end Examples

namespace Parser

/-- Three tokens in the ambiguous grammar, of which two are weighed. -/
theorem scores_eq_weigh_ambiguous : ∃ result plain : ParseResult Exact Exact,
    (Parser.new Examples.ambiguousGrammar .probability).parse Examples.fewWeights 40
        [Token.literal "a", Token.literal "a", Token.literal "a"] = some result ∧
      (Parser.new Examples.ambiguousGrammar .probability).parse {} 40
        [Token.literal "a", Token.literal "a", Token.literal "a"] = some plain ∧
      result.chart.Alike plain.chart ∧
      (∀ id r r', result.chart.record? id = some r → plain.chart.record? id = some r' →
        r.state = r'.state ∧
        r.inner = Examples.fewWeights.weigh .probability
          [Token.literal "a", Token.literal "a", Token.literal "a"]
          r.state.origin r.state.position r'.inner ∧
        r.forward = Examples.fewWeights.weigh .probability
          [Token.literal "a", Token.literal "a", Token.literal "a"]
          0 r.state.position r'.forward) ∧
      result.score = ScoreAlgebra.probability.times plain.score
        (ScoreAlgebra.probability.product [0.5, 1, 0.25]) ∧
      result.score = .number (2 * (0.4 ^ 2 * 0.6 ^ 3) * (0.5 * 0.25)) := by
  have hacyclic : Examples.ambiguousGrammar.UnitAcyclic :=
    Grammar.unitAcyclic_of_forall (by decide +kernel)
  have hparse : ((Parser.new Examples.ambiguousGrammar .probability).parse Examples.fewWeights 40
      [Token.literal "a", Token.literal "a", Token.literal "a"]).any (fun result =>
        result.score == .number (2 * (0.4 ^ 2 * 0.6 ^ 3) * (0.5 * 0.25))) = true := by
    decide +kernel
  have hplain : ((Parser.new Examples.ambiguousGrammar .probability).parse
      ({} : ParseOptions String Exact) 40
      [Token.literal "a", Token.literal "a", Token.literal "a"]).isSome = true := by
    decide +kernel
  obtain ⟨result, hresult, hscore⟩ := (Option.any_eq_true _ _).1 hparse
  obtain ⟨plain, hplain⟩ := Option.isSome_iff_exists.1 hplain
  have : (Parser.new Examples.ambiguousGrammar .probability).algebra.IsCommSemiring :=
    inferInstanceAs (ScoreAlgebra.probability : ScoreAlgebra Exact Exact).IsCommSemiring
  obtain ⟨halike, hrecords, htimes⟩ :=
    (scores_eq_weigh (p := Parser.new Examples.ambiguousGrammar .probability) hacyclic
      Examples.weighsIn_fewWeights [Token.literal "a", Token.literal "a", Token.literal "a"]).2
      40 40 result plain hresult hplain
  exact ⟨result, plain, hresult, hplain, halike, hrecords, htimes, beq_iff_eq.1 hscore⟩

end Parser

end SemiringParsing
