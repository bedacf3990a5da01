import SemiringParsing.Proofs.Algebra.Semiring
import SemiringParsing.Proofs.Sweep.Ledger

/-!
# The values of items

In an exact algebra the inner score that a chart keeps for a state is a member. As the `value` of an
item it is there for all items, zero for those that are not in the chart. A contribution adds its
inner score to the value of its item and changes no other (`Ledger.value_add`), whether the state
was there or is new.
-/

namespace SemiringParsing

variable {π α : Type} {S : ScoreAlgebra π α}

namespace Chart

/-- All inner scores are members. -/
def InnerMembers (S : ScoreAlgebra π α) (c : Chart π α) : Prop :=
  ∀ id r, c.record? id = some r → S.member r.inner = true

variable {c : Chart π α} {id : StateId} {r : Record π α} {i : Item}

variable (c i) in
/-- An item is that of a record or of none. -/
theorem exists_or_forall_ne : (∃ id r, c.record? id = some r ∧ r.state.item = i) ∨
    ∀ id r, c.record? id = some r → r.state.item ≠ i := by
  by_cases h : ∃ id r, c.record? id = some r ∧ r.state.item = i
  · exact .inl h
  · exact .inr fun id r hr hitem => h ⟨id, r, hr, hitem⟩

/-- An indexed chart has one record for an item. -/
theorem Indexed.find?_eq_some (h : c.Indexed) (hr : c.record? id = some r)
    (hitem : r.state.item = i) : (c.records.find? fun r => r.state.item == i) = some r := by
  cases hfind : c.records.find? fun r => r.state.item == i with
  | none =>
    have hmem : r ∈ c.records := Array.mem_of_getElem? hr
    have := Array.find?_eq_none.1 hfind r hmem
    simp [hitem] at this
  | some r' =>
    obtain ⟨id', hlt, hget⟩ := Array.mem_iff_getElem.1 (Array.mem_of_find?_eq_some hfind)
    have hr' : c.record? id' = some r' := Array.getElem?_eq_some_iff.2 ⟨hlt, hget⟩
    have hitem' : r'.state.item = i := by simpa using Array.find?_some hfind
    obtain rfl : id' = id := h.id_unique hr' hr (hitem'.trans hitem.symm)
    exact hr'.symm.trans hr

theorem find?_eq_none (h : ∀ id r, c.record? id = some r → r.state.item ≠ i) :
    (c.records.find? fun r => r.state.item == i) = none := by
  refine Array.find?_eq_none.2 fun r hr => ?_
  obtain ⟨id, hlt, hget⟩ := Array.mem_iff_getElem.1 hr
  simpa using h id r (Array.getElem?_eq_some_iff.2 ⟨hlt, hget⟩)

variable [Number π] [S.IsSemiring]

variable (S) in
/-- The inner score of the state with an item, and zero if there is none. -/
def value (c : Chart π α) (i : Item) : S.Members :=
  match c.records.find? fun r => r.state.item == i with
  | some r => S.lift r.inner
  | none => 0

theorem value_of_record? (h : c.Indexed) (hr : c.record? id = some r)
    (hitem : r.state.item = i) : c.value S i = S.lift r.inner := by
  rw [value, h.find?_eq_some hr hitem]

theorem value_eq_zero (h : ∀ id r, c.record? id = some r → r.state.item ≠ i) :
    c.value S i = 0 := by
  rw [value, find?_eq_none h]

end Chart

namespace Ledger

open Chart

variable {l : Ledger π α} {x : Contribution π α} {xs : List (Contribution π α)} {i : Item}

theorem forall_ne_add (h : l.chart.Indexed) (hne : x.state.item ≠ i)
    (hl : ∀ id r, l.chart.record? id = some r → r.state.item ≠ i) :
    ∀ id r, (l.add S x).chart.record? id = some r → r.state.item ≠ i := by
  intro id r hr
  rcases record?_add h hr with ⟨hr', -⟩ | ⟨r', hr', -, rfl⟩ | ⟨-, -, rfl⟩
  · exact hl id r hr'
  · exact hl id r' hr'
  · exact hne

variable [Number π] [S.IsSemiring]

theorem innerMembers_add (h : l.chart.Indexed) (hl : l.chart.InnerMembers S)
    (hx : S.member x.inner = true) : (l.add S x).chart.InnerMembers S := by
  intro id r hr
  rcases record?_add h hr with ⟨hr', -⟩ | ⟨r', hr', -, rfl⟩ | ⟨-, -, rfl⟩
  · exact hl id r hr'
  · exact ScoreAlgebra.IsSemiring.plus_mem (hl id r' hr') hx
  · exact hx

/-- A contribution leaves the values of other items as they are. -/
theorem value_add_of_ne (h : l.chart.Indexed) (hne : x.state.item ≠ i) :
    (l.add S x).chart.value S i = l.chart.value S i := by
  rcases exists_or_forall_ne l.chart i with ⟨id, r, hr, rfl⟩ | hnone
  · rw [value_of_record? h hr rfl,
      value_of_record? (indexed_add h) (record?_add_of_ne h hr (Ne.symm hne)) rfl]
  · rw [value_eq_zero hnone, value_eq_zero (forall_ne_add h hne hnone)]

/-- A contribution adds its inner score to the value of its item. -/
theorem value_add (h : l.chart.Indexed) (hl : l.chart.InnerMembers S)
    (hx : S.member x.inner = true) :
    (l.add S x).chart.value S x.state.item = l.chart.value S x.state.item + S.lift x.inner := by
  rcases known_or_new h x with ⟨id, r, hr, hitem⟩ | hnew
  · rw [value_of_record? h hr hitem,
      value_of_record? (indexed_add h) (record?_add_of_eq h hr hitem) hitem]
    exact ScoreAlgebra.lift_plus (hl id r hr) hx
  · rw [value_eq_zero (h.id?_eq_none.1 hnew), zero_add,
      value_of_record? (i := x.state.item) (indexed_add h) (record?_add_of_new hnew) rfl]
    rfl

theorem value_addAll_of_forall_ne (h : l.chart.Indexed) (hne : ∀ x ∈ xs, x.state.item ≠ i) :
    (l.addAll S xs).chart.value S i = l.chart.value S i :=
  (addAll_induction (motive := fun l' => l'.chart.Indexed ∧
    l'.chart.value S i = l.chart.value S i) ⟨h, rfl⟩ fun _ x hx hl =>
      ⟨indexed_add hl.1, (value_add_of_ne hl.1 (hne x hx)).trans hl.2⟩).2

/-- Of contributions to different items each adds its inner score to the value of its item. -/
theorem value_addAll (h : l.chart.Indexed) (hl : l.chart.InnerMembers S)
    (hxs : ∀ x ∈ xs, S.member x.inner = true) (hdistinct : (xs.map fun x => x.state.item).Nodup)
    (hx : x ∈ xs) : (l.addAll S xs).chart.value S x.state.item =
      l.chart.value S x.state.item + S.lift x.inner := by
  induction xs generalizing l with
  | nil => simp at hx
  | cons y ys ih =>
    rw [List.map_cons, List.nodup_cons] at hdistinct
    have hy := hxs y List.mem_cons_self
    rw [addAll_cons]
    rcases List.mem_cons.1 hx with rfl | hx
    · rw [value_addAll_of_forall_ne (indexed_add h) fun z hz hitem => hdistinct.1 ?_,
        value_add h hl hy]
      exact List.mem_map.2 ⟨z, hz, hitem⟩
    · rw [ih (indexed_add h) (innerMembers_add h hl hy)
        (fun z hz => hxs z (List.mem_cons_of_mem _ hz)) hdistinct.2 hx,
        value_add_of_ne h fun hitem => hdistinct.1 ?_]
      exact List.mem_map.2 ⟨x, hx, hitem.symm⟩

end Ledger

end SemiringParsing
