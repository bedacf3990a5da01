import SemiringParsing.Proofs.Sweep.Run
import SemiringParsing.Proofs.Sweep.Side

/-!
# Which scores can arise

An invariant of the scores of a parse is a set of values for each item and each side, such that
what is computed from such values is one again (`Parser.Confines`). Then all scores that are stored,
still to be passed on or contributed in a step are among these values (`Reaches.within`,
`Reaches.within_consequences`).

The sets may differ from item to item. They can say that a score is that of a derivation of just
this item, or that it has a certain weight of tokens as a factor.
-/

namespace SemiringParsing

variable {π α τ : Type}

/-- The score of a contribution that is looked at. -/
def Contribution.scoreOn (side : Side) (x : Contribution π α) : α :=
  (side.turn x.forward x.inner).2

/-- The score to be passed on that is looked at. -/
def Delta.scoreOn (side : Side) (d : Delta α) : α :=
  (side.turn d.forward d.inner).2

/-- The scores of a contribution are among some values. -/
def Contribution.Within (V : Side → Item → α → Prop) (x : Contribution π α) : Prop :=
  ∀ side, V side x.state.item (x.scoreOn side)

/-- The scores of a record are among some values. -/
def Record.Within (V : Side → Item → α → Prop) (r : Record π α) : Prop :=
  ∀ side, V side r.state.item (r.scoreOn side)

/-- The scores of a ledger, stored or still to be passed on, are among some values. -/
structure Ledger.Within (V : Side → Item → α → Prop) (l : Ledger π α) : Prop where
  stored : ∀ id r, l.chart.record? id = some r → r.Within V
  pending : ∀ d ∈ l.pending, ∃ r, l.chart.record? d.id = some r ∧
    ∀ side, V side r.state.item (d.scoreOn side)

section Scores

variable {V : Side → Item → α → Prop} {S : ScoreAlgebra π α} {c : Chart π α} {id : StateId}
  {x : Contribution π α} {r : Record π α} {l : Ledger π α} {xs : List (Contribution π α)}

@[simp] theorem Contribution.scoreOn_combined (side : Side) (x : Contribution π α)
    (r : Record π α) :
    (x.combined S r).scoreOn side = S.plus (r.scoreOn side) (x.scoreOn side) := by
  cases side <;> rfl

/-- What a moved dot contributes is composed of the scores of the state that was moved. -/
theorem Contribution.scoreOn_moved (side : Side) (s : State π) (compose : α → α) (r : Record π α)
    (link? : Option Link) :
    (⟨s, compose r.forward, compose r.inner, link?⟩ : Contribution π α).scoreOn side =
      compose (r.scoreOn side) := by
  cases side <;> rfl

namespace Ledger

theorem within_empty : (empty : Ledger π α).Within V where
  stored id r hr := by simp at hr
  pending d hd := by simp at hd

theorem Within.add (h : l.Within V) (hindexed : l.chart.Indexed)
    (hplus : ∀ side i a b, V side i a → V side i b → V side i (S.plus a b)) (hx : x.Within V) :
    (l.add S x).Within V where
  stored id r hr := by
    rcases record?_add hindexed hr with ⟨hr, -⟩ | ⟨r', hr', hitem, rfl⟩ | ⟨-, -, rfl⟩
    · exact h.stored id r hr
    · intro side
      rw [Contribution.scoreOn_combined]
      exact hplus side _ _ _ (h.stored id r' hr' side) (hitem ▸ hx side)
    · exact hx
  pending d hd := by
    rcases mem_pending_add hindexed hd with hd | ⟨id, r, rfl, hr, hitem⟩
    · obtain ⟨r, hr, hV⟩ := h.pending d hd
      obtain ⟨r', hr', hstate, -⟩ := extends_add (S := S) (x := x) hindexed d.id r hr
      exact ⟨r', hr', hstate ▸ hV⟩
    · exact ⟨r, hr, fun side => hitem ▸ hx side⟩

theorem Within.addAll (h : l.Within V) (hindexed : l.chart.Indexed)
    (hplus : ∀ side i a b, V side i a → V side i b → V side i (S.plus a b))
    (hxs : ∀ x ∈ xs, x.Within V) : (l.addAll S xs).Within V :=
  (addAll_induction (motive := fun l => l.chart.Indexed ∧ l.Within V) ⟨hindexed, h⟩
    fun _ x hx h => ⟨indexed_add h.1, h.2.add h.1 hplus (hxs x hx)⟩).2

end Ledger

end Scores

/-! ## What is computed from the values -/

variable [Number π]

/-- What a parse computes from values of `V` are values of `V`. -/
structure Parser.Confines (p : Parser π α) (options : ParseOptions τ α) (tokens : List (Token τ))
    (V : Side → Item → α → Prop) : Prop where
  top : ∀ side, V side (State.begin p.grammar.topRule 0).item p.algebra.one
  plus : ∀ side i a b, V side i a → V side i b → V side i (p.algebra.plus a b)
  /-- The first prediction of a rule has its probability as the inner score. -/
  begun : ∀ rule ∈ p.grammar.rules, ∀ position,
    V .inner (State.begin rule position).item (p.algebra.ofProbability rule.probability)
  /-- Further ones have no inner score. -/
  again : ∀ rule ∈ p.grammar.rules, ∀ position,
    V .inner (State.begin rule position).item p.algebra.zero
  predicted : ∀ {s : State π} {name : String} {corner : Category × α} {rule : Rule π} {a : α},
    p.grammar.Admits s → s.active? = some (.nonterminal name) →
    corner ∈ p.corners.reachableFrom (.nonterminal name) → rule ∈ p.grammar.rulesFor corner.1 →
    V .forward s.item a → V .forward (State.begin rule s.position).item
      (p.algebra.times (p.algebra.times a corner.2) (p.algebra.ofProbability rule.probability))
  completed : ∀ {side : Side} {w s next : State π} {a b : α},
    p.grammar.Admits w → p.grammar.Admits s → s.isCompleted = true → w.position = s.origin →
    w.active? = some s.rule.left → w.advance s.position = .ok (some next) →
    V side w.item a → V .inner s.item b → V side next.item (p.algebra.times a b)
  scanned : ∀ {side : Side} {s next : State π} {token : Token τ} {category : Category} {a : α},
    p.grammar.Admits s → tokens[s.position]? = some token → s.active? = some category →
    token.isA category = true → s.advance (s.position + 1) = .ok (some next) → V side s.item a →
    V side next.item (Scan.reweigh p.algebra (options.weightOf? s.position token) a)

namespace Parser

variable {p : Parser π α} {options : ParseOptions τ α} {tokens : List (Token τ)}
  {V : Side → Item → α → Prop} {position : Nat} {c : Chart π α} {d : Delta α}
  {ds : List (Delta α)} {l : Ledger π α}

/-- What the operations and the weights of tokens do not leave is not left by a parse. -/
theorem Confines.of_closed {V : α → Prop} (h : p.algebra.Closed V)
    (hrules : ∀ r ∈ p.grammar.rules, V (p.algebra.ofProbability r.probability))
    (hscan : ∀ position token a, V a →
      V (Scan.reweigh p.algebra (options.weightOf? position token) a)) :
    p.Confines options tokens fun _ _ => V where
  top _ := h.one
  plus _ _ _ _ := h.plus
  begun rule hrule _ := hrules rule hrule
  again _ _ _ := h.zero
  predicted _ _ hcorner hrule ha := by
    have hmem := mem_rules_of_mem_reachableFrom hcorner hrule
    rw [p.corners_eq] at hcorner
    exact h.times (h.times ha (LeftCorners.mem_values_of_mem_reachableFrom h hrules hcorner))
      (hrules _ hmem)
  completed _ _ _ _ _ _ := h.times
  scanned _ _ _ _ _ ha := hscan _ _ _ ha

theorem Confines.within_consequences (hV : p.Confines options tokens V)
    (hc : p.Consistent position ⟨c, d :: ds⟩) (h : Ledger.Within V ⟨c, d :: ds⟩) :
    ∀ x ∈ p.consequences position c d, x.Within V := by
  intro x hx
  obtain ⟨r, hr, hd⟩ := h.pending d List.mem_cons_self
  obtain rfl := hc.position_eq hr
  have hadmits := hc.admits d.id r hr
  rcases p.consequences_cases r.state.position hr with
    ⟨hcompleted, heq⟩ | ⟨name, hactive, -, heq⟩ | ⟨-, heq⟩
  · rw [heq, Chart.completions] at hx
    obtain ⟨waiting, hwaiting, hx⟩ := List.mem_filterMap.1 hx
    obtain ⟨w, next, hw, hnext, rfl⟩ := Chart.completion_eq_some.1 hx
    obtain ⟨w', hw', hposition, hactive⟩ :=
      hc.indexed.mem_activeOn.1 (Array.mem_toList_iff.1 hwaiting)
    obtain rfl := Option.some.inj (hw.symm.trans hw')
    intro side
    rw [Contribution.scoreOn_moved side next (p.algebra.times · d.inner) w]
    exact hV.completed (hc.admits waiting w hw) hadmits hcompleted hposition hactive hnext
      (h.stored waiting w hw side) (hd .inner)
  · rw [heq] at hx
    obtain ⟨⟨reach, rule⟩, hopening, rfl⟩ := List.mem_map.1 hx
    obtain ⟨corner, hcorner, hrule, rfl⟩ := LeftCorners.mem_openings.1 hopening
    have hmem : rule ∈ p.grammar.rules := mem_rules_of_mem_reachableFrom hcorner hrule
    intro side
    cases side with
    | forward => exact hV.predicted hadmits hactive hcorner hrule (hd .forward)
    | inner =>
      show V .inner _ (if _ then _ else _)
      split
      · exact hV.again rule hmem _
      · exact hV.begun rule hmem _
  · simp [heq] at hx

theorem Confines.within_readings (hV : p.Confines options tokens V) (hindexed : c.Indexed)
    (hadmits : ∀ id r, c.record? id = some r → p.grammar.Admits r.state) {token : Token τ}
    (htoken : tokens[position]? = some token)
    (h : ∀ id r, c.record? id = some r → r.Within V) :
    ∀ x ∈ c.readings p.algebra options position token, x.Within V := by
  intro x hx
  simp only [Chart.readings, List.mem_filterMap, List.mem_filter] at hx
  obtain ⟨id, ⟨hid, hexpects⟩, hx⟩ := hx
  obtain ⟨r, next, hr, hnext, rfl⟩ := Chart.reading_eq_some.1 hx
  obtain ⟨r', category, hr', hactive, hcategory⟩ := Chart.expects_eq_true.1 hexpects
  obtain rfl := Option.some.inj (hr.symm.trans hr')
  obtain ⟨r', hr', rfl⟩ := hindexed.mem_statesAt.1 (Array.mem_toList_iff.1 hid)
  obtain rfl := Option.some.inj (hr.symm.trans hr')
  intro side
  rw [Contribution.scoreOn_moved]
  exact hV.scanned (hadmits id r hr) htoken hactive hcategory hnext (h id r hr side)

/-- **All scores of a parse are among the values** that what it computes stays in. -/
theorem Reaches.within (hV : p.Confines options tokens V)
    (h : p.Reaches options tokens position l) : l.Within V := by
  induction h with
  | begin =>
    refine Ledger.within_empty.add Ledger.indexed_empty hV.plus fun side => ?_
    cases side <;> exact hV.top _
  | @pass position c d ds h ih =>
    have hc := h.consistent
    refine Ledger.Within.addAll ⟨ih.stored, fun e he => ?_⟩ hc.indexed hV.plus
      (hV.within_consequences hc ih)
    exact ih.pending e (List.mem_cons_of_mem _ he)
  | scan h htoken ih =>
    have hc := h.consistent
    exact ih.addAll hc.indexed hV.plus (hV.within_readings hc.indexed hc.admits htoken ih.stored)

/-- So are the contributions of a step. -/
theorem Reaches.within_consequences (hV : p.Confines options tokens V)
    (h : p.Reaches options tokens position ⟨c, d :: ds⟩) :
    ∀ x ∈ p.consequences position c d, x.Within V :=
  hV.within_consequences h.consistent (h.within hV)

end Parser

end SemiringParsing
