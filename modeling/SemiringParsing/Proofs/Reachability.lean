import SemiringParsing.Proofs.BestDerivation
import SemiringParsing.Proofs.Recognition
import SemiringParsing.Proofs.Termination

/-!
# Reachability and success

A parse has two answers to whether the start symbol derives the input. It is a success if the chart
has a state for that, and with reachability as the algebra its score is one or zero. The two differ
where rules have the probability zero. Such a rule is no left corner to predict through, but it is
predicted itself and then matched as any other, and its score is the only trace of the probability.

So the score is one exactly when there is a derivation tree whose rules all have positive
probabilities, and then the parse is a success. A parse that is a success has a derivation tree, in
any algebra (`Parser.exists_tree_of_isSuccess`). If no tree of the input has a rule of
probability zero, the two answers agree.

Parses do not ask what the members of an algebra are (`Parser.parse_withMembers`). So what is known
of parses in the selective algebra `truth` holds with reachability, over doubles too.
-/

namespace SemiringParsing

open ExtendedNumber ScoreAlgebra

variable {π α τ : Type}

/-! ## Other members -/

section Members

variable [Number π] {S : ScoreAlgebra π α} {member : α → Bool} {G : Grammar π}

theorem Sweep.close_withMembers {corners : LeftCorners α} {position fuel : Nat} {w : Sweep π α} :
    w.close (S.withMembers member) G corners position fuel = w.close S G corners position fuel := by
  induction fuel generalizing w with
  | zero => rfl
  | succ fuel ih =>
    rw [Sweep.close, Sweep.close]
    split
    · rfl
    · exact ih

namespace Parser

theorem sweep_withMembers {options : ParseOptions τ α} {fuel position : Nat}
    {tokens : List (Token τ)} {w : Sweep π α} :
    (Parser.new G (S.withMembers member)).sweep options fuel position tokens w =
      (Parser.new G S).sweep options fuel position tokens w := by
  have hclose : ∀ position w, (Parser.new G (S.withMembers member)).close fuel position w =
      (Parser.new G S).close fuel position w :=
    fun _ _ => congrArg (Option.map _) Sweep.close_withMembers
  induction tokens generalizing position w with
  | nil => exact hclose position w
  | cons token tokens ih =>
    rw [sweep, sweep, hclose]
    split
    · rfl
    · exact ih

/-- What the members of an algebra are has no part in a parse. -/
theorem parse_withMembers (options : ParseOptions τ α) (fuel : Nat) (tokens : List (Token τ)) :
    (Parser.new G (S.withMembers member)).parse options fuel tokens =
      ((Parser.new G S).parse options fuel tokens).map fun result =>
        { result with algebra := S.withMembers member } := by
  rw [parse, parse, sweep_withMembers, Option.map_map]
  rfl

end Parser

end Members

/-! ## Trees of positive rules -/

/-- Whether a rule with a production has a positive probability. -/
def Grammar.isPositive [Number π] (G : Grammar π) (production : Production) : Bool :=
  G.rules.any fun r => r.toProduction == production && Number.lt 0 r.probability

/-- Whether all rules of a tree have positive probabilities. -/
def ParseTree.isPositive [Number π] (G : Grammar π) (t : ParseTree) : Bool :=
  t.forest.productions.all G.isPositive

section Weight

variable [ExtendedNumber α] {G : Grammar α}

theorem Grammar.isPositive_toProduction {r : Rule α} (hr : r ∈ G.rules) :
    G.isPositive r.toProduction = Number.lt 0 r.probability := by
  rw [Bool.eq_iff_iff, isPositive, List.any_eq_true]
  constructor
  · rintro ⟨r', hr', hpositive⟩
    rw [Bool.and_eq_true, beq_iff_eq] at hpositive
    rw [← Grammar.eq_of_toProduction_eq hr' hr hpositive.1]
    exact hpositive.2
  · intro hpositive
    exact ⟨r, hr, by simp [hpositive]⟩

/-- With reachability a production scores whether its rule is a positive one. -/
theorem Grammar.score_boolean (production : Production) :
    G.score (boolean : ScoreAlgebra α α) production = ofTruth (G.isPositive production) := by
  by_cases h : ∃ r ∈ G.rules, r.toProduction = production
  · obtain ⟨r, hr, rfl⟩ := h
    rw [score_toProduction hr, isPositive_toProduction hr]
    rfl
  · have hnone : G.rules.find? (fun r => r.toProduction == production) = none :=
      List.find?_eq_none.2 fun r hr heq => h ⟨r, hr, beq_iff_eq.1 heq⟩
    have hfalse : G.isPositive production = false :=
      List.any_eq_false.2 fun r hr hpositive =>
        h ⟨r, hr, beq_iff_eq.1 (Bool.and_eq_true_iff.1 hpositive).1⟩
    rw [Grammar.score, hnone, hfalse]
    rfl

/-- With reachability a tree scores whether its rules are positive ones, if tokens are not
weighed. -/
theorem ParseTree.weight_boolean [TellsZeroFromOne α] (tokens : List (Token τ)) (t : ParseTree) :
    t.weight (boolean : ScoreAlgebra α α) G {} tokens = ofTruth (t.isPositive G) := by
  have htokens : tokens.mapIdx (ParseOptions.tokenScore {} (boolean : ScoreAlgebra α α)) =
      (tokens.map fun _ => true).map ofTruth :=
    List.ext_getElem (by simp) fun k _ _ => by simp [ParseOptions.tokenScore,
      ParseOptions.weightOf?, boolean, ofTruth]
  have hrules : t.forest.productions.map (G.score (boolean : ScoreAlgebra α α)) =
      (t.forest.productions.map G.isPositive).map ofTruth := by
    rw [List.map_map]
    exact List.map_congr_left fun q _ => Grammar.score_boolean q
  rw [weight, hrules, htokens, ← List.map_append, boolean_product_ofTruth]
  simp [isPositive]

end Weight

/-! ## Success -/

/-- A parse that is a success has a derivation tree. -/
theorem Parser.exists_tree_of_isSuccess [Number π] {p : Parser π α} {options : ParseOptions τ α}
    {tokens : List (Token τ)} {fuel : Nat} {result : ParseResult π α}
    (h : p.parse options fuel tokens = some result) (hsuccess : result.isSuccess = true) :
    (p.grammar.trees tokens).Nonempty := by
  obtain ⟨hreaches, hroot, -⟩ := reaches_of_parse h
  rw [ParseResult.isSuccess, hroot, Option.isSome_iff_exists] at hsuccess
  obtain ⟨id, hid⟩ := hsuccess
  obtain ⟨r, hr, hitem⟩ := (finished_of_parse h).indexed.id?_eq_some.1 hid
  simp only [State.item, Item.mk.injEq] at hitem
  obtain ⟨hproduction, hposition, horigin, hdot⟩ := hitem
  have hright : r.state.rule.right = [.nonterminal p.grammar.start] :=
    congrArg Production.right hproduction
  have hspells := hreaches.spells id r hr
  rw [hright, hposition, horigin, hdot] at hspells
  obtain ⟨f, hf⟩ := Grammar.spells_iff.1 hspells
  obtain ⟨t, ht, -⟩ : f ∈ ParseTree.forest '' p.grammar.trees tokens := by
    rw [Grammar.image_forest_trees]
    exact hf
  exact ⟨t, ht⟩

/-- What is not a success scores zero. -/
theorem ParseResult.score_of_isSuccess_eq_false {result : ParseResult π α}
    (h : result.isSuccess = false) : result.score = result.algebra.zero := by
  rw [isSuccess, Option.isSome_eq_false_iff, Option.isNone_iff_eq_none] at h
  rw [score, h]
  rfl

section Boolean

variable [ExtendedNumber α] [TellsTruth α]

/-- With reachability the score of a parse is whether a tree of positive rules derives the input. -/
theorem Parser.score_boolean {G : Grammar α} {tokens : List (Token τ)} {fuel : Nat}
    {result : ParseResult α α} (h : (Parser.new G .boolean).parse {} fuel tokens = some result) :
    ∃ b : Bool, result.score = ofTruth b ∧
      (b = true ↔ ∃ t ∈ G.trees tokens, t.isPositive G = true) := by
  let p : Parser α α := Parser.new G .truth
  have : p.algebra.IsSelective := inferInstanceAs (truth : ScoreAlgebra α α).IsSelective
  let result' : ParseResult α α := { result with algebra := truth }
  have hresult : p.parse {} fuel tokens = some result' :=
    (parse_withMembers {} fuel tokens).trans (congrArg (Option.map _) h)
  have hscore : result'.score = result.score := by
    rw [ParseResult.score, ParseResult.score, (reaches_of_parse h).2.2]
    rfl
  have hweight : ∀ t : ParseTree, t.weight p.algebra p.grammar {} tokens =
      ofTruth (t.isPositive G) := ParseTree.weight_boolean tokens
  have hnone : result.score = ofTruth false → ¬ ∃ t ∈ G.trees tokens, t.isPositive G = true := by
    rintro hzero ⟨t, ht, hpositive⟩
    have hvalue : ofTruth (t.isPositive G) = (ofTruth false : α) :=
      (hweight t).symm.trans (weight_eq_zero .empty hresult (hscore.trans hzero) ht)
    rw [hpositive] at hvalue
    exact absurd (ofTruth_inj.1 hvalue) (by decide)
  have hvalue : (result.score = ofTruth true ∧ ∃ t ∈ G.trees tokens, t.isPositive G = true) ∨
      result.score = ofTruth false := by
    rcases exists_weight_eq_or_zero .empty hresult with ⟨t, ht, hvalue⟩ | hzero
    · rw [hweight, hscore] at hvalue
      cases hpositive : t.isPositive G with
      | true => exact .inl ⟨hpositive ▸ hvalue.symm, t, ht, hpositive⟩
      | false => exact .inr (hpositive ▸ hvalue.symm)
    · exact .inr (hscore.symm.trans hzero)
  rcases hvalue with ⟨hone, htree⟩ | hzero
  · exact ⟨true, hone, iff_of_true rfl htree⟩
  · exact ⟨false, hzero, iff_of_false (by decide) (hnone hzero)⟩

/-- **Reachability and success.** Over reachability, without weights of tokens, a parse returns. The
score is one exactly when the input has a derivation tree of rules with positive probabilities, and
zero otherwise. A parse that scores one is a success, and a success has a derivation tree. If all
derivation trees have only rules with positive probabilities, the parse is a success exactly when it
scores one. -/
theorem Parser.score_eq_one_iff (G : Grammar α) (tokens : List (Token τ)) :
    ∃ bound result,
      (∀ fuel, bound ≤ fuel → (Parser.new G .boolean).parse {} fuel tokens = some result) ∧
      (result.score = 1 ∨ result.score = 0) ∧
      (result.score = 1 ↔ ∃ t ∈ G.trees tokens, t.isPositive G = true) ∧
      (result.score = 1 → result.isSuccess = true) ∧
      (result.isSuccess = true → (G.trees tokens).Nonempty) ∧
      ((∀ t ∈ G.trees tokens, t.isPositive G = true) →
        (result.isSuccess = true ↔ result.score = 1)) := by
  obtain ⟨bound, result, hparse⟩ := (settles_boolean G {} tokens).returns
  have hresult := hparse bound le_rfl
  have htree := exists_tree_of_isSuccess hresult
  obtain ⟨b, hscore, hpositive⟩ := score_boolean hresult
  have hone : result.score = 1 ↔ b = true := by
    rw [hscore]
    exact ofTruth_inj (b := true)
  have hsuccess : result.score = 1 → result.isSuccess = true := by
    intro h
    by_contra hfailure
    have hzero := ParseResult.score_of_isSuccess_eq_false (Bool.not_eq_true _ ▸ hfailure)
    rw [(reaches_of_parse hresult).2.2] at hzero
    exact absurd (ofTruth_inj (a := true) (b := false) |>.1 (h.symm.trans hzero)) (by decide)
  refine ⟨bound, result, hparse, ?_, hone.trans hpositive, hsuccess, htree,
    fun hall => ⟨fun h => ?_, hsuccess⟩⟩
  · rw [hscore]
    cases b
    · exact .inr rfl
    · exact .inl rfl
  · obtain ⟨t, ht⟩ := htree h
    exact hone.2 (hpositive.2 ⟨t, ht, hall t ht⟩)

end Boolean

/-- A cycle of unit productions leads to a token, by rules with positive probabilities only. -/
theorem Parser.score_eq_one_unitCycle : ∃ result,
    (Parser.new Examples.unitCycleGrammar .boolean).parse {} 20 [Token.literal "x"] =
        some result ∧
      result.score = 1 ∧ result.isSuccess = true ∧
      ∃ t ∈ Examples.unitCycleGrammar.trees [Token.literal "x"],
        t.isPositive Examples.unitCycleGrammar = true := by
  have hparse : ((Parser.new Examples.unitCycleGrammar .boolean).parse {} 20
      [Token.literal "x"]).any (fun result => result.score == 1) = true := by
    decide +kernel
  obtain ⟨result, hresult, hscore⟩ := (Option.any_eq_true _ _).1 hparse
  have hscore : result.score = 1 := beq_iff_eq.1 hscore
  obtain ⟨bound, result', hparse', -, hpositive, hsuccess, -⟩ :=
    score_eq_one_iff Examples.unitCycleGrammar [Token.literal "x"]
  obtain rfl : result = result' := parse_unique hresult (hparse' bound le_rfl)
  exact ⟨result, hresult, hscore, hsuccess hscore, hpositive.1 hscore⟩

/-- A sentence of one word with a rule of probability zero. -/
def Examples.impossibleGrammar : Grammar Exact :=
  ⟨"S", [weighted "S" 0 [.terminal "a"]], by decide +kernel, _, rfl⟩

/-- A success need not score one. The only rule has the probability zero, and its state is in the
chart all the same. -/
theorem Parser.score_eq_zero_impossible : ∃ result,
    (Parser.new Examples.impossibleGrammar .boolean).parse {} 20 [Token.literal "a"] =
        some result ∧
      result.isSuccess = true ∧ result.score = 0 ∧
      ¬ (result.isSuccess = true ↔ result.score = 1) := by
  have hparse : ((Parser.new Examples.impossibleGrammar .boolean).parse {} 20
      [Token.literal "a"]).any (fun result => result.isSuccess && result.score == 0) = true := by
    decide +kernel
  obtain ⟨result, hresult, hvalues⟩ := (Option.any_eq_true _ _).1 hparse
  obtain ⟨hsuccess, hscore⟩ := Bool.and_eq_true_iff.1 hvalues
  have hscore : result.score = 0 := beq_iff_eq.1 hscore
  refine ⟨result, hresult, hsuccess, hscore, fun hiff => ?_⟩
  have hone := hiff.1 hsuccess
  rw [hscore] at hone
  exact absurd hone (by decide +kernel)

end SemiringParsing
