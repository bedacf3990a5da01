import SemiringParsing.Proofs.Algebra.Selective
import SemiringParsing.Proofs.Sweep.Moves
import SemiringParsing.Proofs.Sweep.Room
import SemiringParsing.Proofs.Tree.Inside

/-!
# The scores of best derivations

In a selective algebra a parse settles whatever the grammar is (`Parser.settles_of_selective`), and
an inner score is zero or the score of a derivation (`Parser.confines_attained`).

* Every score is what some rules score together, times the weight of the tokens it is about
  (`Parser.confines_composites`). At one position these are the tokens from one of finitely many
  positions on, so scores do not ascend forever.
* What is added up is selected from, so that a score that is composed of two parts that are scores
  of derivations is the score of the derivation composed of the two.
-/

namespace SemiringParsing

open ScoreAlgebra

variable {π α τ : Type}

/-- Where the tokens begin that a score of an item is about. A forward score is about all. -/
def Side.start : Side → Item → Nat
  | .inner, i => i.origin
  | .forward, _ => 0

theorem Side.start_advance (side : Side) {s next : State π} {position : Nat}
    (h : s.advance position = .ok (some next)) : side.start next.item = side.start s.item := by
  cases side
  · exact (State.advance_eq_some_iff.1 h).2.2.1
  · rfl

variable [Number π]

namespace Parser

variable {p : Parser π α} [p.algebra.IsSelective] {options : ParseOptions τ α}
  {tokens : List (Token τ)} {position : Nat}

/-! ## Scores do not ascend forever -/

/-- What some rules score together, times the weight of the tokens between two positions. -/
structure Composite (p : Parser π α) [p.algebra.IsSelective] (options : ParseOptions τ α)
    (tokens : List (Token τ)) (i j : Nat) (a : α) : Prop where
  le : i ≤ j
  member : p.algebra.member a = true
  lift_eq : ∃ m ∈ p.algebra.composites p.grammar,
    p.algebra.lift a = m * tokensWeight p.algebra options tokens i j

namespace Composite

variable {i j k : Nat} {a b : α}

theorem of_lift_mem (ha : p.algebra.member a = true)
    (hmem : p.algebra.lift a ∈ p.algebra.composites p.grammar) (i : Nat) :
    p.Composite options tokens i i a :=
  ⟨le_rfl, ha, _, hmem, by rw [tokensWeight_self, mul_one]⟩

theorem plus (ha : p.Composite options tokens i j a) (hb : p.Composite options tokens i j b) :
    p.Composite options tokens i j (p.algebra.plus a b) := by
  obtain ⟨hle, ha, m, hm, hma⟩ := ha
  obtain ⟨-, hb, n, hn, hnb⟩ := hb
  refine ⟨hle, IsSemiring.plus_mem ha hb, m + n, add_mem_composites hm hn, ?_⟩
  rw [lift_plus ha hb, hma, hnb, add_mul]

theorem times (ha : p.Composite options tokens i j a) (hb : p.Composite options tokens j k b) :
    p.Composite options tokens i k (p.algebra.times a b) := by
  obtain ⟨hij, ha, m, hm, hma⟩ := ha
  obtain ⟨hjk, hb, n, hn, hnb⟩ := hb
  refine ⟨hij.trans hjk, IsSemiring.times_mem ha hb, m * n, mul_mem hm hn, ?_⟩
  rw [lift_times ha hb, hma, hnb, ← tokensWeight_mul hij hjk, mul_mul_mul_comm]

theorem reweigh (hoptions : options.WeighsIn p.algebra) {token : Token τ}
    (htoken : tokens[j]? = some token) (ha : p.Composite options tokens i j a) :
    p.Composite options tokens i (j + 1)
      (Scan.reweigh p.algebra (options.weightOf? j token) a) := by
  obtain ⟨hle, ha, m, hm, hma⟩ := ha
  obtain ⟨hmem, hlift⟩ := hoptions.composes j token a ha
  refine ⟨hle.trans (Nat.le_succ j), hmem, m, hm, ?_⟩
  rw [hlift, hma, tokensWeight_succ hle, tokenWeight_eq htoken, mul_assoc]

end Composite

variable (p tokens) in
/-- Every score is what some rules score together, times the weight of the tokens it is about. -/
theorem confines_composites (hoptions : options.WeighsIn p.algebra) :
    p.Confines options tokens fun side i =>
      p.Composite options tokens (side.start i) i.position where
  top side := by
    have hone : p.Composite options tokens 0 0 p.algebra.one :=
      .of_lift_mem IsSemiring.one_mem (by rw [lift_one]; exact one_mem _) 0
    cases side <;> exact hone
  plus _ _ _ _ ha hb := ha.plus hb
  begun rule hrule position :=
    .of_lift_mem (Grammar.ofProbability_mem hrule) (lift_mem_composites hrule) position
  again _ _ position :=
    .of_lift_mem IsSemiring.zero_mem (by rw [lift_zero]; exact zero_mem_composites) position
  predicted {s name corner rule a} _ _ hcorner hrule ha := by
    have hmem := mem_rules_of_mem_reachableFrom hcorner hrule
    have hrules : ∀ r ∈ p.grammar.rules, p.algebra.member (p.algebra.ofProbability r.probability) =
        true ∧ p.algebra.lift (p.algebra.ofProbability r.probability) ∈
          p.algebra.composites p.grammar := fun r hr =>
      ⟨Grammar.ofProbability_mem hr, lift_mem_composites hr⟩
    rw [p.corners_eq] at hcorner
    obtain ⟨hmember, hcorner⟩ :=
      LeftCorners.mem_values_of_mem_reachableFrom (closed_composites _ _) hrules hcorner
    exact (ha.times (.of_lift_mem hmember hcorner s.position)).times
      (.of_lift_mem (hrules rule hmem).1 (hrules rule hmem).2 s.position)
  completed {side w s next a b} _ _ _ hposition _ hnext ha hb := by
    rw [side.start_advance hnext, State.item_of_advance hnext]
    rw [show w.item.position = s.origin from hposition] at ha
    exact ha.times hb
  scanned {side s next token category a} _ htoken _ _ hnext ha := by
    rw [side.start_advance hnext, State.item_of_advance hnext]
    exact ha.reweigh hoptions htoken

variable (p options tokens position) in
/-- All that scores at a position can be. -/
def compositesAt : Set p.algebra.Members :=
  {x | ∃ i ≤ position, ∃ m ∈ p.algebra.composites p.grammar,
    m * tokensWeight p.algebra options tokens i position = x}

/-- At a position nothing ascends forever. -/
theorem wellFoundedGT_compositesAt : WellFoundedGT (p.compositesAt options tokens position) := by
  have himage : p.compositesAt options tokens position =
      (fun x : ℕ × p.algebra.Members => x.2 * tokensWeight p.algebra options tokens x.1 position) ''
        (Set.Iic position ×ˢ (p.algebra.composites p.grammar : Set p.algebra.Members)) := by
    ext x
    simp [compositesAt, and_assoc]
  have hordered : (p.compositesAt options tokens position).PartiallyWellOrderedOn (· ≥ ·) := by
    rw [himage]
    refine Set.PartiallyWellOrderedOn.image_of_monotone_on (((Set.finite_Iic position)
      |>.partiallyWellOrderedOn (r := Eq)).prod (partiallyWellOrderedOn_composites _ _)) ?_
    rintro ⟨i, m⟩ - ⟨_, n⟩ - ⟨rfl, hle⟩
    exact mul_le_mul_left hle _
  exact ⟨Subrelation.wf (fun h => lt_iff_le_not_ge.1 h) hordered.wellFoundedOn⟩

open Classical in
variable (p options tokens position) in
/-- The room of a score at a position: what is above it. -/
noncomputable def roomAbove (a : α) : (p.compositesAt options tokens position)ᵒᵈ :=
  if h : p.algebra.lift a ∈ p.compositesAt options tokens position then .toDual ⟨_, h⟩
  else .toDual ⟨0, 0, Nat.zero_le _, 0, zero_mem_composites, zero_mul _⟩

theorem Composite.mem_compositesAt {i : Nat} {a : α}
    (ha : p.Composite options tokens i position a) :
    p.algebra.lift a ∈ p.compositesAt options tokens position := by
  obtain ⟨hle, -, m, hm, hma⟩ := ha
  exact ⟨i, hle, m, hm, hma.symm⟩

theorem roomAbove_eq {i : Nat} {a : α} (ha : p.Composite options tokens i position a) :
    p.roomAbove options tokens position a = .toDual ⟨p.algebra.lift a, ha.mem_compositesAt⟩ := by
  rw [roomAbove, dif_pos ha.mem_compositesAt]

theorem narrows_composites : p.algebra.Narrows
    (fun side i => p.Composite options tokens (side.start i) i.position) position
    (p.roomAbove options tokens position) where
  plus_le := by
    rintro side i a b rfl ha hb
    rw [roomAbove_eq ha, roomAbove_eq (ha.plus hb)]
    show p.algebra.lift a ≤ p.algebra.lift (p.algebra.plus a b)
    rw [lift_plus ha.member hb.member]
    exact le_self_add
  same_of_eq := by
    rintro side i a b rfl ha hb heq
    have hplus := (ha.plus hb).member
    rw [roomAbove_eq ha, roomAbove_eq (ha.plus hb)] at heq
    have hlift : p.algebra.lift (p.algebra.plus a b) = p.algebra.lift a :=
      congrArg Subtype.val (OrderDual.toDual_inj.1 heq)
    exact (same_iff ha.member hplus).2 ((lift_inj hplus ha.member).1 hlift).symm

/-- **Parses settle** in a selective algebra, whatever the grammar. -/
theorem settles_of_selective (hoptions : options.WeighsIn p.algebra) (tokens : List (Token τ)) :
    p.Settles options tokens := by
  refine settles_of_narrows (confines_composites p tokens hoptions) fun position => ?_
  have : WellFoundedGT (p.compositesAt options tokens position) := wellFoundedGT_compositesAt
  exact ⟨_, inferInstance, inferInstance, _, narrows_composites⟩

/-! ## Scores are those of derivations -/

/-- The score of the rule with a production. The top rule has none and composes nothing. -/
def headScore (p : Parser π α) [p.algebra.IsSelective] (production : Production) :
    p.algebra.Members :=
  if production = p.grammar.topRule.toProduction then 1
  else p.algebra.lift (p.grammar.score p.algebra production)

theorem headScore_rule {r : Rule π} (hr : r ∈ p.grammar.rules) :
    p.headScore r.toProduction = p.algebra.lift (p.grammar.score p.algebra r.toProduction) := by
  rw [headScore, if_neg]
  intro htop
  exact Grammar.left_ne_start hr ((congrArg Production.left htop).trans Grammar.left_topRule)

/-- The score of a derivation of what is before the dot of an item, its rule included. -/
def Derived (p : Parser π α) [p.algebra.IsSelective] (options : ParseOptions τ α)
    (tokens : List (Token τ)) (i : Item) (x : p.algebra.Members) : Prop :=
  ∃ f ∈ p.grammar.forests tokens (i.production.right.take i.dot) i.origin i.position,
    x = p.headScore i.production * f.ruleWeight p.algebra p.grammar *
      tokensWeight p.algebra options tokens i.origin i.position

/-- The score of a derivation, or zero. -/
def Attained (p : Parser π α) [p.algebra.IsSelective] (options : ParseOptions τ α)
    (tokens : List (Token τ)) (i : Item) (a : α) : Prop :=
  p.algebra.member a = true ∧ (p.algebra.lift a = 0 ∨ p.Derived options tokens i (p.algebra.lift a))

theorem derived_begin (production : Production) (position : Nat) :
    p.Derived options tokens ⟨production, position, position, 0⟩ (p.headScore production) :=
  ⟨.nil, ⟨rfl, .nil position⟩, by simp⟩

/-- What a completed state is a derivation of is put behind what a waiting one is. -/
theorem Derived.completed {w s next : State π} {x y : p.algebra.Members}
    (hs : p.grammar.Admits s) (hw : p.grammar.Admits w) (hcompleted : s.isCompleted = true)
    (hposition : w.position = s.origin) (hactive : w.active? = some s.rule.left)
    (hnext : w.advance s.position = .ok (some next)) (hx : p.Derived options tokens w.item x)
    (hy : p.Derived options tokens s.item y) : p.Derived options tokens next.item (x * y) := by
  obtain ⟨f, ⟨hroots, hspans⟩, rfl⟩ := hx
  obtain ⟨g, ⟨hroots', hspans'⟩, rfl⟩ := hy
  have hmem : s.rule ∈ p.grammar.rules := hs.mem_rules_of_active? hw hactive
  rw [State.item, beq_iff_eq.1 hcompleted] at hroots'
  have hright : g.roots = s.rule.right := hroots'.trans List.take_length
  have hproduction : (⟨s.rule.left, g.roots⟩ : Production) = s.rule.toProduction := by rw [hright]
  have hgne : g ≠ .nil := by
    rintro rfl
    exact Grammar.right_ne_nil hmem hright.symm
  rw [State.item_of_advance hnext]
  refine ⟨f ++ .cons s.rule.left g .nil, ⟨?_, ?_⟩, ?_⟩
  · rw [Forest.roots_append, hroots]
    exact (Production.take_add_one hactive).symm
  · refine hspans.append (.node ⟨s.rule, hmem, hproduction.symm⟩ ?_ (.nil _))
    rw [show w.item.position = s.origin from hposition]
    exact hspans'
  · have htokens : tokensWeight p.algebra options tokens w.origin s.origin *
        tokensWeight p.algebra options tokens s.origin s.position =
          tokensWeight p.algebra options tokens w.origin s.position :=
      tokensWeight_mul (hposition ▸ w.origin_le) s.origin_le
    rw [Forest.ruleWeight_append, Forest.ruleWeight_node hgne, hproduction,
      show p.headScore s.item.production = _ from headScore_rule hmem, ← htokens]
    simp only [State.item, hposition]
    ring

/-- A token is put behind what a state is a derivation of. -/
theorem Derived.scanned {s next : State π} {token : Token τ} {category : Category}
    {x : p.algebra.Members} (htoken : tokens[s.position]? = some token)
    (hactive : s.active? = some category) (hcategory : token.isA category = true)
    (hnext : s.advance (s.position + 1) = .ok (some next))
    (hx : p.Derived options tokens s.item x) : p.Derived options tokens next.item
      (x * tokenWeight p.algebra options tokens s.position) := by
  obtain ⟨f, ⟨hroots, hspans⟩, rfl⟩ := hx
  rw [State.item_of_advance hnext]
  refine ⟨f ++ .cons category .nil .nil, ⟨?_, ?_⟩, ?_⟩
  · rw [Forest.roots_append, hroots]
    exact (Production.take_add_one hactive).symm
  · exact hspans.append (.leaf htoken hcategory (.nil _))
  · rw [Forest.ruleWeight_append, Forest.ruleWeight_leaf, mul_one, tokensWeight_succ s.origin_le,
      mul_assoc]
    rfl

variable (p tokens) in
/-- Every inner score is that of a derivation, or zero. -/
theorem confines_attained (hoptions : options.WeighsIn p.algebra) :
    p.Confines options tokens fun side i a => side = .inner → p.Attained options tokens i a where
  top side _ := by
    refine ⟨IsSemiring.one_mem, .inr ?_⟩
    have htop : p.headScore p.grammar.topRule.toProduction = 1 := if_pos rfl
    rw [lift_one, ← htop]
    exact derived_begin _ 0
  plus side i a b ha hb hside := by
    obtain ⟨hmem, ha⟩ := ha hside
    obtain ⟨hmem', hb⟩ := hb hside
    refine ⟨IsSemiring.plus_mem hmem hmem', ?_⟩
    rw [lift_plus hmem hmem']
    rcases Members.add_eq_or (p.algebra.lift a) (p.algebra.lift b) with heq | heq
    · rwa [heq]
    · rwa [heq]
  begun rule hrule position _ := by
    refine ⟨Grammar.ofProbability_mem hrule, .inr ?_⟩
    rw [← Grammar.score_toProduction hrule, ← headScore_rule hrule]
    exact derived_begin _ position
  again _ _ _ _ := ⟨IsSemiring.zero_mem, .inl lift_zero⟩
  predicted _ _ _ _ _ hside := by cases hside
  completed {side w s next a b} hw hs hcompleted hposition hactive hnext ha hb hside := by
    obtain ⟨hmem, ha⟩ := ha hside
    obtain ⟨hmem', hb⟩ := hb rfl
    refine ⟨IsSemiring.times_mem hmem hmem', ?_⟩
    rw [lift_times hmem hmem']
    rcases ha with hzero | ha
    · exact .inl (by rw [hzero, zero_mul])
    · rcases hb with hzero | hb
      · exact .inl (by rw [hzero, mul_zero])
      · exact .inr (.completed hs hw hcompleted hposition hactive hnext ha hb)
  scanned {side s next token category a} _ htoken hactive hcategory hnext ha hside := by
    obtain ⟨hmem, ha⟩ := ha hside
    obtain ⟨hmem', hlift⟩ := hoptions.composes s.position token a hmem
    refine ⟨hmem', ?_⟩
    rw [hlift, ← tokenWeight_eq htoken]
    rcases ha with hzero | ha
    · exact .inl (by rw [hzero, zero_mul])
    · exact .inr (.scanned htoken hactive hcategory hnext ha)

end Parser

end SemiringParsing
