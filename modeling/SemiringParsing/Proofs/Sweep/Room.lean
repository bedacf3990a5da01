import Mathlib.Data.DFinsupp.WellFounded
import SemiringParsing.Proofs.Sweep.Confined
import SemiringParsing.Proofs.Sweep.Forward
import SemiringParsing.Proofs.Sweep.Settling

/-!
# Room for scores to change

Cycles of unit productions come back to states with ever new contributions. A parse settles
nevertheless if no score can change forever. `ScoreAlgebra.Narrows` says this by the room that a
score leaves for further changes: adding to a score takes room away, or the score stays the same.

Whenever a contribution is put on the agenda, its state was new or one of its two scores has
changed. So the items of the position have less room together than before (`Ledger.room_addAll`).
They are finitely many, so this cannot go on (`Parser.settles_of_narrows`). When nothing is put on
the agenda the agenda gets shorter.
-/

namespace SemiringParsing

variable {π α τ R : Type}

/-- The room that the scores of an item leave. An item that is not in the chart leaves more than any
that is. -/
def Chart.room (c : Chart π α) (room : α → R) (i : Item) : WithTop (R × R) :=
  match c.records.find? fun r => r.state.item == i with
  | some r => ((room r.forward, room r.inner) : R × R)
  | none => ⊤

namespace Chart

variable {c : Chart π α} {room : α → R} {id : StateId} {r : Record π α} {i : Item}

theorem room_of_record? (h : c.Indexed) (hr : c.record? id = some r) (hitem : r.state.item = i) :
    c.room room i = ((room r.forward, room r.inner) : R × R) := by
  rw [Chart.room, h.find?_eq_some hr hitem]

theorem room_eq_top (h : ∀ id r, c.record? id = some r → r.state.item ≠ i) :
    c.room room i = ⊤ := by
  rw [Chart.room, find?_eq_none h]

end Chart

open Chart in
theorem Ledger.room_add_of_ne {S : ScoreAlgebra π α} {l : Ledger π α} {x : Contribution π α}
    {room : α → R} {i : Item} (h : l.chart.Indexed) (hne : x.state.item ≠ i) :
    (l.add S x).chart.room room i = l.chart.room room i := by
  rcases exists_or_forall_ne l.chart i with ⟨id, r, hr, rfl⟩ | hnone
  · rw [room_of_record? h hr rfl,
      room_of_record? (indexed_add h) (record?_add_of_ne h hr (Ne.symm hne)) rfl]
  · rw [room_eq_top hnone, room_eq_top (forall_ne_add h hne hnone)]

/-! ## Contributions take room away -/

variable [PartialOrder R]

/-- Sums of values of `V` for the items at a position leave less room than their first terms, or are
the same. -/
structure ScoreAlgebra.Narrows (S : ScoreAlgebra π α) (V : Side → Item → α → Prop)
    (position : Nat) (room : α → R) : Prop where
  plus_le : ∀ side i a b, i.position = position → V side i a → V side i b →
    room (S.plus a b) ≤ room a
  same_of_eq : ∀ side i a b, i.position = position → V side i a → V side i b →
    room (S.plus a b) = room a → S.same a (S.plus a b) = true

namespace Ledger

open Chart

variable {S : ScoreAlgebra π α} {V : Side → Item → α → Prop} {position : Nat} {room : α → R}
  {l : Ledger π α} {x : Contribution π α} {xs : List (Contribution π α)}

/-- A contribution to an item takes room away, or it is not passed on. -/
theorem room_add_self (hroom : S.Narrows V position room) (h : l.chart.Indexed)
    (hl : l.Within V) (hx : x.Within V) (hposition : x.state.position = position) :
    (l.add S x).chart.room room x.state.item < l.chart.room room x.state.item ∨
      (l.add S x).chart.room room x.state.item = l.chart.room room x.state.item ∧
        (l.add S x).pending = l.pending := by
  rcases known_or_new h x with ⟨id, r, hr, hitem⟩ | hnew
  · have hplus : ∀ side, room (S.plus (r.scoreOn side) (x.scoreOn side)) ≤ room (r.scoreOn side) :=
      fun side => hroom.plus_le side _ _ _ hposition (hitem ▸ hl.stored id r hr side) (hx side)
    have hsame : ∀ side, room (S.plus (r.scoreOn side) (x.scoreOn side)) = room (r.scoreOn side) →
        S.same (r.scoreOn side) (S.plus (r.scoreOn side) (x.scoreOn side)) = true :=
      fun side => hroom.same_of_eq side _ _ _ hposition (hitem ▸ hl.stored id r hr side) (hx side)
    rw [room_of_record? h hr hitem,
      room_of_record? (indexed_add h) (record?_add_of_eq h hr hitem) hitem, WithTop.coe_lt_coe,
      WithTop.coe_inj, add_eq_combine h hr hitem]
    have hle : (room (x.combined S r).forward, room (x.combined S r).inner) ≤
        (room r.forward, room r.inner) := ⟨hplus .forward, hplus .inner⟩
    refine hle.lt_or_eq.imp_right fun heq => ⟨heq, ?_⟩
    obtain ⟨hforward, hinner⟩ := Prod.mk.inj heq
    have hscores : r.sameScores S (x.combined S r) = true :=
      Bool.and_eq_true_iff.2 ⟨hsame .forward hforward, hsame .inner hinner⟩
    rw [if_pos hscores, List.append_nil]
  · rw [room_eq_top (h.id?_eq_none.1 hnew),
      room_of_record? (i := x.state.item) (indexed_add h) (record?_add_of_new hnew) rfl]
    exact .inl (WithTop.coe_lt_top _)

/-- The room of all items at a position. -/
def roomAt (items : Finset Item) (room : α → R) (l : Ledger π α) : items → WithTop (R × R) :=
  fun i => l.chart.room room i

theorem roomAt_add {items : Finset Item} (hroom : S.Narrows V position room)
    (h : l.chart.Indexed) (hl : l.Within V) (hx : x.Within V)
    (hposition : x.state.position = position) (hitem : x.state.item ∈ items) :
    (l.add S x).roomAt items room < l.roomAt items room ∨
      (l.add S x).roomAt items room = l.roomAt items room ∧ (l.add S x).pending = l.pending := by
  have hother : ∀ i : items, i.1 ≠ x.state.item →
      (l.add S x).roomAt items room i = l.roomAt items room i :=
    fun i hne => room_add_of_ne h hne.symm
  rcases room_add_self hroom h hl hx hposition with hlt | ⟨heq, hpending⟩
  · refine .inl (Pi.lt_def.2 ⟨fun i => ?_, ⟨x.state.item, hitem⟩, hlt⟩)
    by_cases hi : i.1 = x.state.item
    · rw [roomAt, roomAt, hi]
      exact hlt.le
    · exact (hother i hi).le
  · refine .inr ⟨funext fun i => ?_, hpending⟩
    by_cases hi : i.1 = x.state.item
    · rw [roomAt, roomAt, hi]
      exact heq
    · exact hother i hi

/-- **Contributions take room away**, or none of them is passed on. -/
theorem roomAt_addAll {items : Finset Item} (hroom : S.Narrows V position room)
    (hplus : ∀ side i a b, V side i a → V side i b → V side i (S.plus a b))
    (h : l.chart.Indexed) (hl : l.Within V) (hxs : ∀ x ∈ xs, x.Within V)
    (hitems : ∀ x ∈ xs, x.state.position = position ∧ x.state.item ∈ items) :
    (l.addAll S xs).roomAt items room < l.roomAt items room ∨
      (l.addAll S xs).roomAt items room = l.roomAt items room ∧
        (l.addAll S xs).pending = l.pending := by
  refine (addAll_induction (motive := fun l' => l'.chart.Indexed ∧ l'.Within V ∧
    (l'.roomAt items room < l.roomAt items room ∨
      l'.roomAt items room = l.roomAt items room ∧ l'.pending = l.pending))
    ⟨h, hl, .inr ⟨rfl, rfl⟩⟩ ?_).2.2
  rintro l' x hx ⟨h', hl', hless⟩
  obtain ⟨hposition, hitem⟩ := hitems x hx
  refine ⟨indexed_add h', hl'.add h' hplus (hxs x hx), ?_⟩
  rcases roomAt_add hroom h' hl' (hxs x hx) hposition hitem with
    hlt | ⟨heq, hpending⟩
  · exact .inl (hlt.trans_le (hless.elim le_of_lt fun heq => heq.1.le))
  · rw [heq, hpending]
    exact hless

end Ledger

/-! ## Parses settle -/

namespace Parser

variable [Number π] {p : Parser π α} {options : ParseOptions τ α} {tokens : List (Token τ)}
  {V : Side → Item → α → Prop} {position : Nat}

/-- A position is closed if its scores cannot change forever. -/
theorem exists_close_of_narrows [WellFoundedLT R] {room : α → R}
    (hV : p.Confines options tokens V) (hroom : p.algebra.Narrows V position room)
    {w : Sweep π α} (h : p.Reaches options tokens position w.ledger) :
    ∃ fuel w', w.close p.algebra p.grammar p.corners position fuel = some w' := by
  have hwf : WellFounded (Prod.Lex
      ((· < ·) : (p.grammar.items position → WithTop (R × R)) → _ → Prop)
      ((· < ·) : Nat → Nat → Prop)) := WellFounded.prod_lex wellFounded_lt Nat.lt_wfRel.wf
  refine exists_close_of_wellFounded hwf
    (fun l => (l.roomAt (p.grammar.items position) room, l.pending.length)) ?_ h
  intro c d ds h
  have hc := h.consistent
  have hl : Ledger.Within V (⟨c, ds⟩ : Ledger π α) :=
    ⟨(h.within hV).stored, fun e he => (h.within hV).pending e (List.mem_cons_of_mem _ he)⟩
  have hitems : ∀ x ∈ p.consequences position c d,
      x.state.position = position ∧ x.state.item ∈ p.grammar.items position := by
    intro x hx
    obtain ⟨id, hleads, hposition⟩ := hc.consequences tokens x hx
    exact ⟨hposition, (hleads.admits hc.admits).item_mem_items_iff.2 hposition.symm⟩
  rcases Ledger.roomAt_addAll (l := ⟨c, ds⟩) hroom hV.plus hc.indexed hl
    (h.within_consequences hV) hitems with hlt | ⟨heq, hpending⟩
  · exact .left _ _ hlt
  · rw [heq, hpending]
    exact .right _ (Nat.lt_succ_self _)

/-- **Parses settle** if at every position scores cannot change forever. -/
theorem settles_of_narrows (hV : p.Confines options tokens V)
    (hroom : ∀ position, ∃ (R : Type) (_ : PartialOrder R) (_ : WellFoundedLT R) (room : α → R),
      p.algebra.Narrows V position room) : p.Settles options tokens := by
  refine .of_exists_close fun position w h => ?_
  obtain ⟨R, _, _, room, hnarrows⟩ := hroom position
  exact exists_close_of_narrows hV hnarrows h

end Parser

end SemiringParsing
