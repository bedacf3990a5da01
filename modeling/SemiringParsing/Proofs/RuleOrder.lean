import SemiringParsing.Proofs.Number.Exact
import SemiringParsing.Proofs.Number.Nonneg
import SemiringParsing.Proofs.Sweep.Reordered
import SemiringParsing.Proofs.Sweep.Termination
import SemiringParsing.Proofs.TotalWeight

/-!
# The order of rules does not matter

Two orders of the same definitions are accepted alike, and then the charts of a parse say the same,
apart from numbers and the order of lists. `Chart.Agrees` relates charts by what their records say,
with links read as the states they name. The main statement is `build_perm`.
-/

namespace SemiringParsing

variable {π α τ : Type}

/-- Two records say the same, each in its chart. Links are compared by the states they name. -/
structure Record.Agrees (c c' : Chart π α) (r r' : Record π α) : Prop where
  state_eq : r.state = r'.state
  forward_eq : r.forward = r'.forward
  inner_eq : r.inner = r'.inner
  links_iff : ∀ x, x ∈ r.links.map c.named ↔ x ∈ r'.links.map c'.named

/-- Two charts have records that say the same, perhaps under other numbers. -/
structure Chart.Agrees (c c' : Chart π α) : Prop where
  forth : ∀ id r, c.record? id = some r →
    ∃ id' r', c'.record? id' = some r' ∧ Record.Agrees c c' r r'
  back : ∀ id' r', c'.record? id' = some r' →
    ∃ id r, c.record? id = some r ∧ Record.Agrees c c' r r'

variable [Number π]

namespace Parser

variable {G G' : Grammar π} {S : ScoreAlgebra π α} {tokens : List (Token τ)}
  {options : ParseOptions τ α} {fuel fuel' : Nat} {result result' : ParseResult π α}

theorem goal_item_eq (hG : G.Reorders G') (length : Nat) :
    ((new G S).goal length).item = ((new G' S).goal length).item := by
  have htop : (new G S).grammar.topRule = (new G' S).grammar.topRule := hG.topRule_eq
  simp only [goal, State.item, htop]

theorem isSuccess_iff {p : Parser π α} (h : p.parse options fuel tokens = some result) :
    result.isSuccess = true ↔ ∃ id r, result.chart.record? id = some r ∧
      r.state.item = (p.goal tokens.length).item := by
  rw [ParseResult.isSuccess, (reaches_of_parse h).2.1, Option.isSome_iff_exists]
  simp only [(finished_of_parse h).indexed.id?_eq_some]

theorem inputLength_of_parse {p : Parser π α} (h : p.parse options fuel tokens = some result) :
    result.inputLength = tokens.length := by
  obtain ⟨w, -, rfl⟩ := Option.map_eq_some_iff.1 h
  rfl

section Agreement

variable [S.IsCommSemiring]

/-- Records of the same state say the same. -/
theorem agrees_of_state_eq (hG : G.Reorders G') (hacyclic : G.UnitAcyclic)
    (hoptions : options.WeighsIn S)
    (h : (new G S).parse options fuel tokens = some result)
    (h' : (new G' S).parse options fuel' tokens = some result') {id id' : StateId}
    {r r' : Record π α} (hr : result.chart.record? id = some r)
    (hr' : result'.chart.record? id' = some r') (hstate : r.state = r'.state) :
    Record.Agrees result.chart result'.chart r r' := by
  have hindexed := (finished_of_parse h).indexed
  have hindexed' := (finished_of_parse h').indexed
  obtain ⟨hinner, hforward, -⟩ := forwardAccounts_of_parse hoptions h
  obtain ⟨hinner', hforward', -⟩ := forwardAccounts_of_parse hoptions h'
  have hstart := ((finished_of_parse h).admits id r hr).start_notMem_right
  refine ⟨hstate, ?_, ?_, fun x => ?_⟩
  · have hvalue := forward_eq_of_reorders hG hacyclic hoptions h h' (i := r.state.item) hstart
      r.state.dot_le r.state.origin_le
    have hvalue' := Chart.value_turn (S := S) .forward hindexed' hr'
    rw [Chart.value_turn .forward hindexed hr, hstate, hvalue'] at hvalue
    exact (ScoreAlgebra.lift_inj (hforward.scoreOn hr) (hforward'.scoreOn hr')).1 hvalue
  · have hvalue := value_eq_of_reorders hG hacyclic hoptions h h' (i := r.state.item) hstart
      r.state.dot_le
    rw [Chart.value_of_record? hindexed hr rfl,
      Chart.value_of_record? hindexed' hr' (congrArg State.item hstate.symm)] at hvalue
    exact (ScoreAlgebra.lift_inj (hinner id r hr) (hinner' id' r' hr')).1 hvalue
  · simp only [List.mem_map]
    constructor
    · rintro ⟨link, hlink, rfl⟩
      obtain ⟨link', hlink', hnamed⟩ := exists_named_eq hG h h' hr hr' hstate hlink
      exact ⟨link', hlink', hnamed.symm⟩
    · rintro ⟨link', hlink', rfl⟩
      obtain ⟨link, hlink, hnamed⟩ := exists_named_eq hG.symm h' h hr' hr hstate.symm hlink'
      exact ⟨link, hlink, hnamed.symm⟩

/-- Charts do not depend on the order of the rules. -/
theorem chart_agrees (hG : G.Reorders G') (hacyclic : G.UnitAcyclic)
    (hoptions : options.WeighsIn S)
    (h : (new G S).parse options fuel tokens = some result)
    (h' : (new G' S).parse options fuel' tokens = some result') :
    result.chart.Agrees result'.chart where
  forth id r hr := by
    obtain ⟨id', r', hr', hstate⟩ := hasState_of_reorders hG h h' r.state ⟨id, r, hr, rfl⟩
    exact ⟨id', r', hr', agrees_of_state_eq hG hacyclic hoptions h h' hr hr' hstate.symm⟩
  back id' r' hr' := by
    obtain ⟨id, r, hr, hstate⟩ := hasState_of_reorders hG.symm h' h r'.state ⟨id', r', hr', rfl⟩
    exact ⟨id, r, hr, agrees_of_state_eq hG hacyclic hoptions h h' hr hr' hstate⟩

/-- The score does not depend on the order of the rules. -/
theorem score_eq_of_reorders (hG : G.Reorders G') (hacyclic : G.UnitAcyclic)
    (hoptions : options.WeighsIn S)
    (h : (new G S).parse options fuel tokens = some result)
    (h' : (new G' S).parse options fuel' tokens = some result') :
    result.score = result'.score := by
  obtain ⟨hmember, hlift⟩ := lift_score (forwardAccounts_of_parse hoptions h).1 h
  obtain ⟨hmember', hlift'⟩ := lift_score (forwardAccounts_of_parse hoptions h').1 h'
  have hvalue : result.chart.value S ((new G S).goal tokens.length).item =
      result'.chart.value S ((new G S).goal tokens.length).item :=
    value_eq_of_reorders hG hacyclic hoptions h h' (by simp [goal, new, State.item]) (Nat.le_refl 1)
  rw [← goal_item_eq (S := S) hG] at hlift'
  exact (ScoreAlgebra.lift_inj hmember hmember').1 (hlift.trans (hvalue.trans hlift'.symm))

end Agreement

/-- How many error rules were completed does not depend on the order of the rules. -/
theorem errorRules_eq_of_reorders [S.IsSemiring] (hG : G.Reorders G')
    (h : (new G S).parse options fuel tokens = some result)
    (h' : (new G' S).parse options fuel' tokens = some result') :
    result.errorRules = result'.errorRules := by
  have hfaithful := (reaches_of_parse h).1.faithful
  have hfaithful' := (reaches_of_parse h').1.faithful
  have hposition : ∀ position, result.chart.completed.errorRules position =
      result'.chart.completed.errorRules position := fun position => by
    rw [hfaithful.errorRules_eq, hfaithful'.errorRules_eq]
    exact Nat.le_antisymm
      (Chart.length_select_le hfaithful.toIndexed hfaithful'.toIndexed
        (hasState_of_reorders hG h h') _)
      (Chart.length_select_le hfaithful'.toIndexed hfaithful.toIndexed
        (hasState_of_reorders hG.symm h' h) _)
  unfold ParseResult.errorRules
  rw [inputLength_of_parse h, inputLength_of_parse h']
  simp only [hposition]

/-- Whether a parse succeeds does not depend on the order of the rules. -/
theorem isSuccess_eq_of_reorders [S.IsSemiring] (hG : G.Reorders G')
    (h : (new G S).parse options fuel tokens = some result)
    (h' : (new G' S).parse options fuel' tokens = some result') :
    result.isSuccess = result'.isSuccess := by
  rw [Bool.eq_iff_iff, isSuccess_iff h, isSuccess_iff h', ← goal_item_eq hG]
  constructor
  · rintro ⟨id, r, hr, hitem⟩
    obtain ⟨id', r', hr', hstate⟩ := hasState_of_reorders hG h h' r.state ⟨id, r, hr, rfl⟩
    exact ⟨id', r', hr', hstate ▸ hitem⟩
  · rintro ⟨id', r', hr', hitem⟩
    obtain ⟨id, r, hr, hstate⟩ := hasState_of_reorders hG.symm h' h r'.state ⟨id', r', hr', rfl⟩
    exact ⟨id, r, hr, hstate ▸ hitem⟩

/-- **The order of rules does not matter.** Definitions in any order are accepted, or in none. When
they are accepted, no unit productions form a cycle and the algebra is exact and commutative, the
parses with two orders return. Their charts have records that say the same, and the parses agree
on whether the input is derived, with what score and with how many error rules. -/
theorem build_perm {definitions definitions' : List (Definition π)}
    (hperm : definitions.Perm definitions') (start : String) :
    ((∃ G, Grammar.build start definitions = .ok G) ↔
      ∃ G, Grammar.build start definitions' = .ok G) ∧
    ∀ G G' : Grammar π, Grammar.build start definitions = .ok G →
      Grammar.build start definitions' = .ok G' → G.UnitAcyclic →
      ∀ (S : ScoreAlgebra π α) [S.IsCommSemiring] (options : ParseOptions τ α),
        options.WeighsIn S → ∀ tokens : List (Token τ),
        (∃ bound result result', ∀ fuel, bound ≤ fuel →
          (new G S).parse options fuel tokens = some result ∧
          (new G' S).parse options fuel tokens = some result') ∧
        ∀ fuel fuel' result result', (new G S).parse options fuel tokens = some result →
          (new G' S).parse options fuel' tokens = some result' →
          result.chart.Agrees result'.chart ∧ result.isSuccess = result'.isSuccess ∧
            result.score = result'.score ∧ result.errorRules = result'.errorRules := by
  refine ⟨?_, fun G G' hbuild hbuild' hacyclic S _ options hoptions tokens => ?_⟩
  · have hrules : (definitions.map Definition.rule).Perm (definitions'.map Definition.rule) :=
      hperm.map _
    rw [Grammar.exists_build_iff, Grammar.exists_build_iff]
    exact ⟨GrammarError.find?_eq_none_of_perm hrules,
      GrammarError.find?_eq_none_of_perm hrules.symm⟩
  · have hG : G.Reorders G' := .of_build hperm hbuild hbuild'
    refine ⟨?_, fun fuel fuel' result result' h h' => ?_⟩
    · obtain ⟨bound, result, hresult⟩ := exists_parse (p := new G S) hacyclic options tokens
      obtain ⟨bound', result', hresult'⟩ :=
        exists_parse (p := new G' S) (hG.unitAcyclic hacyclic) options tokens
      exact ⟨max bound bound', result, result', fun fuel hfuel =>
        ⟨hresult fuel (le_of_max_le_left hfuel), hresult' fuel (le_of_max_le_right hfuel)⟩⟩
    · exact ⟨chart_agrees hG hacyclic hoptions h h', isSuccess_eq_of_reorders hG h h',
        score_eq_of_reorders hG hacyclic hoptions h h', errorRules_eq_of_reorders hG h h'⟩

/-- Three tokens are read in two ways with the ambiguous grammar, whichever of its two rules comes
first. -/
theorem build_perm_ambiguous :
    (Examples.ambiguous : List (Definition Exact)).Perm Examples.ambiguous.reverse ∧
    Grammar.build "S" Examples.ambiguous = .ok Examples.ambiguousGrammar ∧
    Grammar.build "S" Examples.ambiguous.reverse = .ok Examples.ambiguousReversed ∧
    ∃ result result' : ParseResult Exact Exact,
      (new Examples.ambiguousGrammar .probability).parse {} 40
        [Token.literal "a", Token.literal "a", Token.literal "a"] = some result ∧
      (new Examples.ambiguousReversed .probability).parse {} 40
        [Token.literal "a", Token.literal "a", Token.literal "a"] = some result' ∧
      result.chart.Agrees result'.chart ∧ result.isSuccess = result'.isSuccess ∧
      result.score = result'.score ∧ result.errorRules = result'.errorRules := by
  have hperm := (List.reverse_perm (Examples.ambiguous : List (Definition Exact))).symm
  have hbuild := Grammar.build_eq_ok Examples.ambiguousGrammar
  have hbuild' := Grammar.build_eq_ok Examples.ambiguousReversed
  have hacyclic : Examples.ambiguousGrammar.UnitAcyclic :=
    Grammar.unitAcyclic_of_forall (by decide +kernel)
  have hparse : ((new Examples.ambiguousGrammar .probability).parse ({} : ParseOptions String Exact)
      40 [Token.literal "a", Token.literal "a", Token.literal "a"]).isSome = true := by
    decide +kernel
  have hparse' : ((new Examples.ambiguousReversed .probability).parse
      ({} : ParseOptions String Exact) 40
      [Token.literal "a", Token.literal "a", Token.literal "a"]).isSome = true := by
    decide +kernel
  obtain ⟨result, hresult⟩ := Option.isSome_iff_exists.1 hparse
  obtain ⟨result', hresult'⟩ := Option.isSome_iff_exists.1 hparse'
  obtain ⟨-, horder⟩ := build_perm hperm "S"
  obtain ⟨-, hagrees⟩ := horder _ _ hbuild hbuild' hacyclic .probability {} .empty
    [Token.literal "a", Token.literal "a", Token.literal "a"]
  exact ⟨hperm, hbuild, hbuild', result, result', hresult, hresult',
    hagrees 40 40 result result' hresult hresult'⟩

end Parser

end SemiringParsing
