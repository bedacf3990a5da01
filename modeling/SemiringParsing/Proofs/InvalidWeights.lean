import SemiringParsing.Grammar.Examples
import SemiringParsing.Proofs.Number.Sign
import SemiringParsing.Proofs.Sweep.Confined

/-!
# Invalid weights show

A forward score is computed from the weights of all tokens before the position of its state, an
inner score from those of the tokens that the state has matched (`Side.Covers`). In a guarded
algebra a score is a member exactly when all weights it covers are sound (`Parser.confines_tells`).
Each step keeps that, whatever is combined and however often: a prediction brings in members and
covers nothing new, a completion covers what its two parts cover, and a scan covers one token more.

For probabilities and best derivations `member_score_iff` says this of what a parse returns.
-/

namespace SemiringParsing

variable {π α τ : Type}

/-- The token at a position has no weight, or one that is a score. -/
def ParseOptions.SoundAt (options : ParseOptions τ α) (S : ScoreAlgebra π α)
    (tokens : List (Token τ)) (k : Nat) : Prop :=
  ∀ token ∈ tokens[k]?, ∀ weight ∈ options.weightOf? k token,
    S.isNaN weight = true ∨ S.member weight = true

/-- The positions of the tokens that are weighed in a score. -/
def Side.Covers : Side → Item → Nat → Prop
  | .inner, i, k => i.origin ≤ k ∧ k < i.position
  | .forward, i, k => k < i.position

namespace Side

/-- Nothing is matched at the beginning of a rule. -/
theorem not_covers_begin (rule : Rule π) (position k : Nat) :
    ¬ inner.Covers (State.begin rule position).item k :=
  fun ⟨hle, hlt⟩ => Nat.not_lt_of_le hle hlt

variable {side : Side} {w s next : State π}

/-- A completion covers the tokens that the waiting state covers and those of the completed one. -/
theorem covers_completed (hposition : w.position = s.origin)
    (hnext : w.advance s.position = .ok (some next)) (k : Nat) :
    side.Covers next.item k ↔ side.Covers w.item k ∨ inner.Covers s.item k := by
  obtain ⟨-, hend, horigin, -⟩ := State.advance_eq_some_iff.1 hnext
  have hw := w.origin_le
  have hs := s.origin_le
  cases side <;> simp only [Covers, State.item] <;> omega

/-- A scanned state covers one token more. -/
theorem covers_scanned (hnext : s.advance (s.position + 1) = .ok (some next)) (k : Nat) :
    side.Covers next.item k ↔ side.Covers s.item k ∨ k = s.position := by
  obtain ⟨-, hend, horigin, -⟩ := State.advance_eq_some_iff.1 hnext
  have hs := s.origin_le
  cases side <;> simp only [Covers, State.item] <;> omega

end Side

variable [Number π]

/-- A score composed with the weight of a token is a member when both are. -/
theorem Scan.member_reweigh_iff {S : ScoreAlgebra π α} (h : S.Guarded)
    {options : ParseOptions τ α} {tokens : List (Token τ)} {k : Nat} {token : Token τ}
    (htoken : tokens[k]? = some token) (a : α) :
    S.member (reweigh S (options.weightOf? k token) a) = true ↔
      S.member a = true ∧ options.SoundAt S tokens k := by
  unfold ParseOptions.SoundAt
  rw [htoken]
  cases hweight : options.weightOf? k token with
  | none => simp [reweigh, hweight]
  | some weight =>
    by_cases hnan : S.isNaN weight = true
    · simp [reweigh, hweight, hnan]
    · simp [reweigh, hweight, hnan, h.times_mem_iff]

namespace Parser

variable {p : Parser π α} {options : ParseOptions τ α} {tokens : List (Token τ)}

/-- A score is a member exactly when the weights of all tokens that it covers are sound. -/
def Tells (p : Parser π α) (options : ParseOptions τ α) (tokens : List (Token τ)) (side : Side)
    (i : Item) (a : α) : Prop :=
  p.algebra.member a = true ↔ ∀ k, side.Covers i k → options.SoundAt p.algebra tokens k

theorem tells_of_forall_not_covers {side : Side} {i : Item} {a : α}
    (ha : p.algebra.member a = true) (h : ∀ k, ¬ side.Covers i k) :
    p.Tells options tokens side i a :=
  iff_of_true ha fun k hk => absurd hk (h k)

/-- What a parse computes from scores that tell is a score that tells. -/
theorem confines_tells (h : p.algebra.Guarded) (options : ParseOptions τ α)
    (tokens : List (Token τ)) : p.Confines options tokens (p.Tells options tokens) where
  top side := tells_of_forall_not_covers h.one_mem fun k => by
    cases side <;> simp [Side.Covers, State.item, State.begin]
  plus side i a b ha hb := by
    unfold Tells at *
    rw [h.plus_mem_iff, ha, hb, and_self]
  begun rule hrule position :=
    tells_of_forall_not_covers (h.ofProbability_mem (Grammar.isProbability_probability hrule))
      (Side.not_covers_begin rule position)
  again rule _ position :=
    tells_of_forall_not_covers h.zero_mem (Side.not_covers_begin rule position)
  predicted {s name corner rule a} _ _ hcorner hrule ha := by
    have hprobability : ∀ r ∈ p.grammar.rules,
        p.algebra.member (p.algebra.ofProbability r.probability) = true := fun r hr =>
      h.ofProbability_mem (Grammar.isProbability_probability hr)
    have hmem := hprobability rule (mem_rules_of_mem_reachableFrom hcorner hrule)
    rw [p.corners_eq] at hcorner
    have hweight := LeftCorners.mem_values_of_mem_reachableFrom h.closed hprobability hcorner
    rw [Tells, h.times_mem_iff, h.times_mem_iff, and_iff_left hmem, and_iff_left hweight]
    exact ha
  completed {side w s next a b} _ _ _ hposition _ hnext ha hb := by
    unfold Tells at *
    rw [h.times_mem_iff, ha, hb]
    simp only [Side.covers_completed hposition hnext, or_imp, forall_and]
  scanned {side s next token category a} _ htoken _ _ hnext ha := by
    unfold Tells at *
    rw [Scan.member_reweigh_iff h htoken, ha]
    simp only [Side.covers_scanned hnext, or_imp, forall_and, forall_eq]

variable {fuel : Nat} {result : ParseResult π α}

/-- The scores that a parse returns tell. -/
theorem tells_of_parse (h : p.algebra.Guarded) (hparse : p.parse options fuel tokens = some result)
    {id : StateId} {r : Record π α} (hr : result.chart.record? id = some r) (side : Side) :
    p.Tells options tokens side r.state.item (r.scoreOn side) :=
  ((reaches_of_parse hparse).1.within (confines_tells h options tokens)).stored id r hr side

/-- The score of a successful parse covers all tokens. -/
theorem tells_score (h : p.algebra.Guarded) (hparse : p.parse options fuel tokens = some result)
    (hsuccess : result.isSuccess = true) :
    p.Tells options tokens .inner (p.goal tokens.length).item result.score := by
  obtain ⟨hreaches, hroot, -⟩ := reaches_of_parse hparse
  obtain ⟨id, hid⟩ := Option.isSome_iff_exists.1 hsuccess
  obtain ⟨r, hr, hitem⟩ := hreaches.consistent.indexed.id?_eq_some.1 (hroot ▸ hid)
  have hscore : result.score = r.inner := by
    simp only [ParseResult.score, hid, Option.bind_some, hr]
  rw [hscore, ← hitem]
  exact tells_of_parse h hparse hr .inner

end Parser

/-- **Invalid weights show**, and nothing else is invalid. A forward score of probabilities or of
best derivations is a member exactly when the weights of all tokens before the position of its state
are sound, an inner score exactly when those of the tokens that its state has matched are. The score
of a successful parse is a member exactly when all weights are sound. -/
theorem Parser.member_score_iff {α τ : Type} [ExtendedNumber α] [KeepsSign α] (p : Parser α α)
    (hp : p.algebra = .probability ∨ p.algebra = .viterbi) (options : ParseOptions τ α)
    (tokens : List (Token τ)) {fuel : Nat} {result : ParseResult α α}
    (h : p.parse options fuel tokens = some result) :
    (∀ id r, result.chart.record? id = some r →
      (p.algebra.member r.forward = true ↔
        ∀ k < r.state.position, options.SoundAt p.algebra tokens k) ∧
      (p.algebra.member r.inner = true ↔
        ∀ k, r.state.origin ≤ k → k < r.state.position →
          options.SoundAt p.algebra tokens k)) ∧
    (result.isSuccess = true →
      (p.algebra.member result.score = true ↔
        ∀ k < tokens.length, options.SoundAt p.algebra tokens k)) := by
  have hguarded : p.algebra.Guarded := by
    rcases hp with hp | hp
    · rw [hp]
      exact ScoreAlgebra.guarded_probability
    · rw [hp]
      exact ScoreAlgebra.guarded_viterbi
  refine ⟨fun id r hr => ⟨tells_of_parse hguarded h hr .forward, ?_⟩, fun hsuccess => ?_⟩
  · have hinner : p.Tells options tokens .inner r.state.item r.inner :=
      tells_of_parse hguarded h hr .inner
    exact hinner.trans (forall_congr' fun _ => and_imp)
  · have hscore := tells_score hguarded h hsuccess
    exact hscore.trans (forall_congr' fun k => by simp [Side.Covers, goal, State.item])

/-- The ambiguous grammar over doubles. -/
def Examples.ambiguousDoubles : Grammar Float :=
  ⟨"S", ambiguous, by decide +kernel, _, rfl⟩

/-- Tokens of which the one at position one has a negative weight, and no other has a weight. -/
def Examples.negativeWeight : ParseOptions String Float :=
  ⟨some fun position _ => if position = 1 then -1.0 else Double.nan⟩

/-- A parse of doubles. The negative weight shows behind the token it belongs to, and in what was
matched with that token. -/
theorem Parser.member_score_iff_negativeWeight : ∃ result : ParseResult Float Float,
    (Parser.new Examples.ambiguousDoubles .viterbi).parse Examples.negativeWeight 40
      [Token.literal "a", Token.literal "a", Token.literal "a"] = some result ∧
    (∀ id r, result.chart.record? id = some r →
      (ExtendedNumber.isNonneg r.forward = true ↔ r.state.position ≤ 1) ∧
      (ExtendedNumber.isNonneg r.inner = true ↔ r.state.position ≤ 1 ∨ 1 < r.state.origin)) ∧
    result.isSuccess = true ∧ ExtendedNumber.isNonneg result.score = false := by
  have hsound : ∀ k, Examples.negativeWeight.SoundAt
      (Parser.new Examples.ambiguousDoubles .viterbi).algebra
      [Token.literal "a", Token.literal "a", Token.literal "a"] k ↔ k ≠ 1 := by
    intro k
    constructor
    · rintro h rfl
      exact absurd (h _ rfl _ rfl) (by decide)
    · rintro hk token - weight hweight
      obtain rfl : Double.nan = weight := (if_neg hk).symm.trans (Option.some.inj hweight)
      exact .inl (by decide)
  have hparse : ((Parser.new Examples.ambiguousDoubles .viterbi).parse Examples.negativeWeight 40
      [Token.literal "a", Token.literal "a", Token.literal "a"]).any
        ParseResult.isSuccess = true := by
    decide +kernel
  obtain ⟨result, hresult, hsuccess⟩ := (Option.any_eq_true _ _).1 hparse
  obtain ⟨hrecords, hscore⟩ := member_score_iff (Parser.new Examples.ambiguousDoubles .viterbi)
    (.inr rfl) _ _ hresult
  refine ⟨result, hresult, fun id r hr => ?_, hsuccess, ?_⟩
  · obtain ⟨hforward, hinner⟩ := hrecords id r hr
    simp only [hsound] at hforward hinner
    refine ⟨hforward.trans ⟨fun h => ?_, fun h k hk => ?_⟩,
      hinner.trans ⟨fun h => ?_, fun h k hle hk => ?_⟩⟩
    · exact Nat.le_of_not_lt fun hlt => h 1 hlt rfl
    · omega
    · by_contra hcovered
      exact h 1 (by omega) (by omega) rfl
    · omega
  · exact Bool.eq_false_iff.2 fun hmember =>
      (hsound 1).1 ((hscore hsuccess).1 hmember 1 (by decide)) rfl

end SemiringParsing
