import SemiringParsing.Proofs.Chart.CompletedIndex
import SemiringParsing.Proofs.Sweep.Ledger

/-!
# One addition to a chart

What adding a contribution does to the records of states: that of its own state takes it up, or is
made of it (`recordOf?_addTo_of_beq`), and those of other states stay (`recordOf?_addTo_of_not_beq`).
The answer of an addition is read off the record that was there before (`changed_addTo_iff`).
-/

namespace SemiringParsing

variable {π α : Type}

/-- What adding a contribution to a chart comes to. -/
def Contribution.addTo (S : ScoreAlgebra π α) (c : Chart π α) (x : Contribution π α) :
    Chart.Addition π α :=
  c.add S x.state x.forward x.inner x.link?

namespace Chart

/-- The record of a state. -/
def recordOf? (c : Chart π α) (s : State π) : Option (Record π α) :=
  (c.id? s).bind c.record?

section Add

variable {S : ScoreAlgebra π α} {c : Chart π α} {x : Contribution π α} {s : State π}
  {id : StateId} {r : Record π α}

theorem Indexed.recordOf?_eq_none (h : c.Indexed) : c.recordOf? s = none ↔ c.id? s = none := by
  rw [recordOf?, Option.bind_eq_none_iff]
  constructor
  · intro hnone
    refine Option.eq_none_iff_forall_ne_some.2 fun id hid => ?_
    obtain ⟨r, hr, -⟩ := h.id?_eq_some.1 hid
    exact absurd (hnone id hid) (by simp [hr])
  · intro hid id hid'
    rw [hid] at hid'
    cases hid'

theorem Indexed.recordOf?_eq_some (h : c.Indexed) :
    c.recordOf? s = some r ↔ ∃ id, c.record? id = some r ∧ r.state.item = s.item := by
  rw [recordOf?, Option.bind_eq_some_iff]
  constructor
  · rintro ⟨id, hid, hr⟩
    obtain ⟨r', hr', hitem⟩ := h.id?_eq_some.1 hid
    obtain rfl : r' = r := Option.some.inj (hr'.symm.trans hr)
    exact ⟨id, hr', hitem⟩
  · rintro ⟨id, hr, hitem⟩
    exact ⟨id, h.id?_eq_some.2 ⟨r, hr, hitem⟩, hr⟩

theorem addTo_eq_insert (hid : c.id? x.state = none) :
    x.addTo S c = ⟨c.insert x.state x.forward x.inner x.link?, c.size, true⟩ := by
  rw [Contribution.addTo, add, hid]

theorem addTo_eq_combine (hid : c.id? x.state = some id) (hr : c.record? id = some r) :
    x.addTo S c = ⟨c.combine S id x.forward x.inner x.link?, id,
      !r.sameScores S (x.combined S r)⟩ := by
  rw [Contribution.addTo, add, hid]
  simp [hr, Contribution.combined]

theorem indexed_addTo (h : c.Indexed) : (x.addTo S c).chart.Indexed :=
  Ledger.indexed_add (l := ⟨c, []⟩) h

/-- The record of a state takes up a contribution to it. -/
theorem recordOf?_addTo_of_beq (h : c.Indexed) (hbeq : (x.state == s) = true) :
    (x.addTo S c).chart.recordOf? s = some ((c.recordOf? s).elim x.record (x.combined S)) := by
  have hitem : x.state.item = s.item := State.beq_iff.1 hbeq
  refine (indexed_addTo h).recordOf?_eq_some.2 ?_
  rcases Ledger.known_or_new (l := ⟨c, []⟩) h x with ⟨id, r, hr, hstate⟩ | hnew
  · rw [h.recordOf?_eq_some.2 ⟨id, hr, hstate.trans hitem⟩]
    exact ⟨id, Ledger.record?_add_of_eq (l := ⟨c, []⟩) h hr hstate, hstate.trans hitem⟩
  · have hnone : c.id? s = none := by rw [id?, ← hitem, ← id?, hnew]
    rw [h.recordOf?_eq_none.2 hnone]
    exact ⟨c.size, Ledger.record?_add_of_new (l := ⟨c, []⟩) hnew, hitem⟩

/-- The records of other states stay. -/
theorem recordOf?_addTo_of_not_beq (h : c.Indexed) (hbeq : (x.state == s) = false) :
    (x.addTo S c).chart.recordOf? s = c.recordOf? s := by
  have hne : x.state.item ≠ s.item := State.beq_eq_false_iff.1 hbeq
  ext r
  rw [(indexed_addTo h).recordOf?_eq_some, h.recordOf?_eq_some]
  constructor
  · rintro ⟨id, hr, hitem⟩
    rcases Ledger.record?_add (l := ⟨c, []⟩) h hr with ⟨hr, -⟩ | ⟨r, -, hstate, rfl⟩ | ⟨-, -, rfl⟩
    · exact ⟨id, hr, hitem⟩
    · exact absurd (hstate.symm.trans hitem) hne
    · exact absurd hitem hne
  · rintro ⟨id, hr, hitem⟩
    exact ⟨id, Ledger.record?_add_of_ne (l := ⟨c, []⟩) h hr fun heq => hne (heq.symm.trans hitem),
      hitem⟩

/-- An addition answers with the number of the record that it touched. -/
theorem record?_addTo_of_ne (h : c.Indexed) {other : StateId} (hne : other ≠ (x.addTo S c).id) :
    (x.addTo S c).chart.record? other = c.record? other := by
  cases hid : c.id? x.state with
  | none =>
    rw [addTo_eq_insert hid] at hne ⊢
    exact (record?_insert ..).trans (if_neg hne)
  | some id =>
    obtain ⟨r, hr, -⟩ := h.id?_eq_some.1 hid
    rw [addTo_eq_combine hid hr] at hne ⊢
    exact (record?_combine ..).trans (if_neg (Ne.symm hne))

theorem id?_addTo (h : c.Indexed) :
    (x.addTo S c).chart.id? x.state = some (x.addTo S c).id := by
  cases hid : c.id? x.state with
  | none =>
    rw [addTo_eq_insert hid]
    exact (id?_insert ..).trans (if_pos rfl)
  | some id =>
    obtain ⟨r, hr, -⟩ := h.id?_eq_some.1 hid
    rw [addTo_eq_combine hid hr]
    exact hid

/-- A state that has a number keeps it. -/
theorem id_addTo_of_id?_eq_some (h : c.Indexed) (hid : c.id? x.state = some id) :
    (x.addTo S c).id = id := by
  obtain ⟨r, hr, -⟩ := h.id?_eq_some.1 hid
  rw [addTo_eq_combine hid hr]

/-- An addition answers that something changed if the state has no record yet, or the scores of the
record are not the same as when they are combined with those that come. -/
theorem changed_addTo_iff (h : c.Indexed) : (x.addTo S c).changed = true ↔
    c.recordOf? x.state = none ∨ ∃ r, c.recordOf? x.state = some r ∧
      r.sameScores S (x.combined S r) = false := by
  cases hid : c.id? x.state with
  | none =>
    rw [addTo_eq_insert hid]
    exact iff_of_true rfl (.inl (h.recordOf?_eq_none.2 hid))
  | some id =>
    obtain ⟨r, hr, hitem⟩ := h.id?_eq_some.1 hid
    rw [addTo_eq_combine hid hr, h.recordOf?_eq_some.2 ⟨id, hr, hitem⟩]
    simp

end Add

end Chart

end SemiringParsing
