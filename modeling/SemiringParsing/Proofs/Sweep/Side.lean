import SemiringParsing.Proofs.Chart.Rescored
import SemiringParsing.Proofs.Sweep.Value

/-!
# Inner and forward scores alike

The two scores of a state are added up in the same way. What is proved of the inner scores of all
charts can be used for forward scores, by turning a chart so that the two change places. `Side` says
which of them is looked at. Turning a ledger commutes with adding contributions to it
(`Ledger.turn_addAll`), since what is put on the agenda depends on both scores alike.
-/

namespace SemiringParsing

variable {π α : Type}

/-- The one of the two scores of a state that is looked at. -/
inductive Side
  | inner
  | forward

namespace Side

/-- The scores with the one that is looked at in the place of the inner score. -/
def turn : Side → α → α → α × α
  | .inner, a, b => (a, b)
  | .forward, a, b => (b, a)

theorem agrees_turn (S : ScoreAlgebra π α) (side : Side) : S.Agrees S (side.turn (α := α)) := by
  cases side <;> exact fun _ _ _ _ => rfl

/-- What is done to both scores can be done before turning or after. -/
theorem turn_map (side : Side) (g : α → α) (a b : α) :
    side.turn (g a) (g b) = (g (side.turn a b).1, g (side.turn a b).2) := by
  cases side <;> rfl

end Side

/-- The score of a record that is looked at. -/
def Record.scoreOn (side : Side) (r : Record π α) : α :=
  (side.turn r.forward r.inner).2

/-- The chart with the scores that are looked at in the place of the inner scores. -/
abbrev Chart.turn (side : Side) (c : Chart π α) : Chart π α :=
  c.rescore side.turn

/-- The contribution with the score that is looked at in the place of the inner score. -/
abbrev Contribution.turn (side : Side) (x : Contribution π α) : Contribution π α :=
  x.rescore side.turn

/-- Dots can be moved before turning or after. -/
theorem Chart.map_turn_moved (side : Side) (c : Chart π α) (next : Nat) (compose : α → α)
    (link : StateId → Link) (ids : List StateId) :
    (ids.filterMap (c.moved next compose link)).map (Contribution.turn side) =
      ids.filterMap ((c.turn side).moved next compose link) := by
  rw [List.map_filterMap]
  congr 1
  funext id
  exact (moved_rescore (side.turn_map compose) next link id).symm

theorem Chart.turn_inner (c : Chart π α) : c.turn .inner = c := by
  have hrecord : (Record.rescore Side.inner.turn : Record π α → Record π α) = id := rfl
  unfold turn rescore
  rw [hrecord, Array.map_id]

/-! ## Forward scores -/

namespace Chart

variable {S : ScoreAlgebra π α} {c : Chart π α} {id : StateId} {r : Record π α}

theorem record?_turn (side : Side) (hr : c.record? id = some r) :
    (c.turn side).record? id = some (r.rescore side.turn) := by
  rw [record?_rescore, hr, Option.map_some]

theorem InnerMembers.scoreOn {side : Side} (h : (c.turn side).InnerMembers S)
    (hr : c.record? id = some r) : S.member (r.scoreOn side) = true :=
  h id _ (record?_turn side hr)

variable [Number π]

/-- The value of an item in a turned chart is its score on that side. -/
theorem value_turn [S.IsSemiring] (side : Side) (h : c.Indexed) (hr : c.record? id = some r) :
    (c.turn side).value S r.state.item = S.lift (r.scoreOn side) :=
  value_of_record? h.rescore (record?_turn side hr) rfl

theorem value_turn_eq_zero [S.IsSemiring] {i : Item} (side : Side)
    (h : ∀ id r, c.record? id = some r → r.state.item ≠ i) : (c.turn side).value S i = 0 := by
  refine value_eq_zero fun id r hr => ?_
  rw [record?_rescore] at hr
  obtain ⟨r', hr', rfl⟩ := Option.map_eq_some_iff.1 hr
  exact h id r' hr'

end Chart

/-! ## Ledgers -/

/-- The score to be passed on that is looked at, in the place of the inner score. -/
def Delta.turn (side : Side) (d : Delta α) : Delta α :=
  ⟨d.id, (side.turn d.forward d.inner).1, (side.turn d.forward d.inner).2⟩

namespace Ledger

/-- The ledger with the scores that are looked at in the place of the inner scores. -/
def turn (side : Side) (l : Ledger π α) : Ledger π α :=
  ⟨l.chart.turn side, l.pending.map (Delta.turn side)⟩

theorem turn_empty (side : Side) : (empty : Ledger π α).turn side = empty := by
  simp [turn, empty, Chart.rescore, Chart.empty]

theorem sameScores_turn (S : ScoreAlgebra π α) (side : Side) (r r' : Record π α) :
    (r.rescore side.turn).sameScores S (r'.rescore side.turn) = r.sameScores S r' := by
  cases side with
  | inner => rfl
  | forward => exact Bool.and_comm ..

theorem turn_add {S : ScoreAlgebra π α} (side : Side) {l : Ledger π α} (h : l.chart.Indexed)
    (x : Contribution π α) : (l.add S x).turn side = (l.turn side).add S (x.turn side) := by
  have hchart : (l.add S x).chart.turn side = ((l.turn side).add S (x.turn side)).chart :=
    rescore_add (side.agrees_turn S) l x _
  have hpending : (l.add S x).pending.map (Delta.turn side) =
      ((l.turn side).add S (x.turn side)).pending := by
    rcases known_or_new h x with ⟨id, r, hr, hitem⟩ | hnew
    · have hr' : (l.turn side).chart.record? id = some (r.rescore side.turn) := by
        rw [turn, Chart.record?_rescore, hr, Option.map_some]
      have hitem' : (r.rescore side.turn).state.item = (x.turn side).state.item := hitem
      have hcombined : (x.turn side).combined S (r.rescore side.turn) =
          (x.combined S r).rescore side.turn := by
        cases side <;> rfl
      rw [add_eq_combine h hr hitem, add_eq_combine h.rescore hr' hitem', hcombined,
        sameScores_turn]
      dsimp only
      split
      · simp [turn]
      · rw [List.map_append]
        rfl
    · have hnew' : (l.turn side).chart.id? (x.turn side).state = none := hnew
      rw [add_eq_insert hnew, add_eq_insert hnew', List.map_append, turn, Chart.size_rescore]
      rfl
  rw [turn, hchart, hpending]

theorem turn_addAll {S : ScoreAlgebra π α} (side : Side) {l : Ledger π α} (h : l.chart.Indexed)
    (xs : List (Contribution π α)) :
    (l.addAll S xs).turn side = (l.turn side).addAll S (xs.map (Contribution.turn side)) := by
  induction xs generalizing l with
  | nil => rfl
  | cons x xs ih =>
    rw [addAll_cons, ih (indexed_add h), turn_add side h]
    rfl

end Ledger

end SemiringParsing
