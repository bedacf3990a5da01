import SemiringParsing.Proofs.Sweep.Consequence
import SemiringParsing.Proofs.Sweep.Value

/-!
# What a step does to the values

Completing and scanning both move the dots of the states that end somewhere and expect one of some
categories, and compose their scores with a weight. What this does to the values of items is said
once (`Ledger.value_moved`). The value of an item behind the dot grows by the value of the item
before it, times the weight, if the category between the two is one of those that are moved over.
-/

namespace SemiringParsing

variable {π α τ : Type}

theorem State.item_of_advance {s t : State π} {next : Nat}
    (h : s.advance next = .ok (some t)) :
    t.item = ⟨s.rule.toProduction, next, s.origin, s.dot + 1⟩ := by
  obtain ⟨hrule, hposition, horigin, hdot⟩ := State.advance_eq_some_iff.1 h
  rw [State.item, hrule, hposition, horigin, hdot]

namespace Chart

/-- The numbers of the states that end at a position and expect one of some categories. -/
def Lists (c : Chart π α) (position : Nat) (accepts : Category → Bool) (ids : List StateId) :
    Prop :=
  ids.Nodup ∧ ∀ id, id ∈ ids ↔ ∃ r category, c.record? id = some r ∧
    r.state.position = position ∧ r.state.active? = some category ∧ accepts category = true

theorem Indexed.lists_activeOn {c : Chart π α} (h : c.Indexed) (position : Nat)
    (category : Category) :
    c.Lists position (· == category) (c.activeOn position category).toList := by
  refine ⟨h.nodup_activeOn position category, fun id => ?_⟩
  rw [Array.mem_toList_iff, h.mem_activeOn]
  constructor
  · rintro ⟨r, hr, hposition, hactive⟩
    exact ⟨r, category, hr, hposition, hactive, beq_self_eq_true category⟩
  · rintro ⟨r, category', hr, hposition, hactive, hcategory⟩
    obtain rfl : category' = category := beq_iff_eq.1 hcategory
    exact ⟨r, hr, hposition, hactive⟩

theorem Indexed.lists_expects {c : Chart π α} (h : c.Indexed) (position : Nat) (token : Token τ) :
    c.Lists position token.isA ((c.statesAt position).toList.filter (Sweep.expects c token)) := by
  refine ⟨(h.nodup_statesAt position).filter _, fun id => ?_⟩
  rw [List.mem_filter, Array.mem_toList_iff, h.mem_statesAt, expects_eq_true]
  constructor
  · rintro ⟨⟨r, hr, hposition⟩, r', category, hr', hactive, hcategory⟩
    obtain rfl : r = r' := Option.some.inj (hr.symm.trans hr')
    exact ⟨r, category, hr, hposition, hactive, hcategory⟩
  · rintro ⟨r, category, hr, hposition, hactive, hcategory⟩
    exact ⟨⟨r, hr, hposition⟩, r, category, hr, hactive, hcategory⟩

variable {c : Chart π α} {next : Nat} {compose : α → α} {link : StateId → Link}
  {ids : List StateId} {x : Contribution π α}

theorem exists_of_mem_moved (hx : x ∈ ids.filterMap (c.moved next compose link)) :
    ∃ id ∈ ids, ∃ r, c.record? id = some r ∧ x.inner = compose r.inner ∧
      x.state.item = ⟨r.state.rule.toProduction, next, r.state.origin, r.state.dot + 1⟩ := by
  obtain ⟨id, hid, hx⟩ := List.mem_filterMap.1 hx
  obtain ⟨r, s, hr, hs, rfl⟩ := moved_eq_some.1 hx
  exact ⟨id, hid, r, hr, rfl, State.item_of_advance hs⟩

/-- What is moved to the item behind a dot was listed before it, and accepted. -/
theorem Lists.of_mem_moved {position origin dot : Nat} {accepts : Category → Bool}
    (hids : c.Lists position accepts ids) {production : Production} {category : Category}
    (hcategory : production.right[dot]? = some category)
    (hx : x ∈ ids.filterMap (c.moved next compose link))
    (hitem : x.state.item = ⟨production, next, origin, dot + 1⟩) :
    accepts category = true ∧
      ∃ id r, c.record? id = some r ∧ r.state.item = ⟨production, position, origin, dot⟩ := by
  obtain ⟨id, hid, r, hr, -, hitem'⟩ := exists_of_mem_moved hx
  obtain ⟨r', category', hr', hposition, hactive, haccepts⟩ := (hids.2 id).1 hid
  obtain rfl := Option.some.inj (hr.symm.trans hr')
  obtain ⟨hproduction, -, horigin, hdot⟩ := Item.mk.inj (hitem'.symm.trans hitem)
  have hdot : r.state.dot = dot := Nat.add_right_cancel hdot
  have hactive' : production.right[dot]? = some category' := by
    rw [← hproduction, ← hdot]
    exact hactive
  obtain rfl : category = category' := Option.some.inj (hcategory.symm.trans hactive')
  exact ⟨haccepts, id, r, hr, by rw [State.item, hproduction, hposition, horigin, hdot]⟩

/-- No two states have their dots moved to the same item. -/
theorem Lists.nodup_moved {position : Nat} {accepts : Category → Bool} (h : c.Indexed)
    (hids : c.Lists position accepts ids) :
    ((ids.filterMap (c.moved next compose link)).map fun x => x.state.item).Nodup := by
  rw [List.Nodup, List.pairwise_map, List.pairwise_filterMap]
  refine List.Pairwise.imp_of_mem (fun {id id'} hid hid' hne x hx x' hx' hitem => hne ?_) hids.1
  obtain ⟨r, s, hr, hs, rfl⟩ := moved_eq_some.1 hx
  obtain ⟨r', s', hr', hs', rfl⟩ := moved_eq_some.1 hx'
  obtain ⟨_, category, hr₁, hposition, -⟩ := (hids.2 id).1 hid
  obtain ⟨_, category', hr₁', hposition', -⟩ := (hids.2 id').1 hid'
  obtain rfl := Option.some.inj (hr.symm.trans hr₁)
  obtain rfl := Option.some.inj (hr'.symm.trans hr₁')
  dsimp only at hitem
  rw [State.item_of_advance hs, State.item_of_advance hs', Item.mk.injEq] at hitem
  obtain ⟨hproduction, -, horigin, hdot⟩ := hitem
  refine h.id_unique hr hr' ?_
  rw [State.item, State.item, hproduction, horigin, Nat.add_right_cancel hdot, hposition, hposition']

end Chart

namespace Ledger

open Chart

variable [Number π] {S : ScoreAlgebra π α} [S.IsSemiring] {c : Chart π α} {ds : List (Delta α)}
  {next position : Nat} {compose : α → α} {link : StateId → Link} {ids : List StateId}
  {accepts : Category → Bool} {weight : S.Members} {i : Item}

/-- Moving dots changes nothing elsewhere. -/
theorem value_moved_of_ne (h : c.Indexed) (hne : i.position ≠ next ∨ i.dot = 0) :
    (addAll S ⟨c, ds⟩ (ids.filterMap (c.moved next compose link))).chart.value S i =
      c.value S i := by
  refine value_addAll_of_forall_ne (l := ⟨c, ds⟩) h fun x hx hitem => ?_
  obtain ⟨id, -, r, -, -, hitem'⟩ := exists_of_mem_moved hx
  rw [← hitem, hitem'] at hne
  rcases hne with hne | hne
  · exact hne rfl
  · exact Nat.succ_ne_zero _ hne

theorem member_of_mem_moved (hinner : c.InnerMembers S) (hcompose : S.Composes compose weight)
    {x : Contribution π α} (hx : x ∈ ids.filterMap (c.moved next compose link)) :
    S.member x.inner = true := by
  obtain ⟨id, -, r, hr, hx, -⟩ := exists_of_mem_moved hx
  rw [hx]
  exact (hcompose _ (hinner id r hr)).1

/-- The state before the dot that is listed adds its weighed value to the item behind. -/
theorem value_moved_of_mem (h : c.Indexed) (hinner : c.InnerMembers S)
    (hids : c.Lists position accepts ids) (hcompose : S.Composes compose weight) {id : StateId}
    {r : Record π α} {s : State π} (hid : id ∈ ids) (hr : c.record? id = some r)
    (hs : r.state.advance next = .ok (some s)) :
    (addAll S ⟨c, ds⟩ (ids.filterMap (c.moved next compose link))).chart.value S s.item =
      c.value S s.item + c.value S r.state.item * weight := by
  have hx : ⟨s, compose r.forward, compose r.inner, some (link id)⟩ ∈
      ids.filterMap (c.moved next compose link) :=
    List.mem_filterMap.2 ⟨id, hid, moved_eq_some.2 ⟨r, s, hr, hs, rfl⟩⟩
  have hvalue := value_addAll (l := ⟨c, ds⟩) h hinner
    (fun x hx => member_of_mem_moved hinner hcompose hx) (hids.nodup_moved h) hx
  dsimp only at hvalue
  rw [hvalue, (hcompose _ (hinner id r hr)).2, value_of_record? h hr rfl]

variable (ds link) in
/-- **Moving the dots** of the states that end at a position and expect one of some categories. -/
theorem value_moved (h : c.Indexed) (hinner : c.InnerMembers S)
    (hids : c.Lists position accepts ids) (hle : position ≤ next)
    (hcompose : S.Composes compose weight) {production : Production} (origin : Nat) {dot : Nat}
    {category : Category}
    (hcategory : production.right[dot]? = some category) :
    (addAll S ⟨c, ds⟩ (ids.filterMap (c.moved next compose link))).chart.value S
        ⟨production, next, origin, dot + 1⟩ =
      c.value S ⟨production, next, origin, dot + 1⟩ +
        if accepts category then c.value S ⟨production, position, origin, dot⟩ * weight else 0 := by
  have hunmoved : (∀ x ∈ ids.filterMap (c.moved next compose link),
      x.state.item ≠ ⟨production, next, origin, dot + 1⟩) →
      (addAll S ⟨c, ds⟩ (ids.filterMap (c.moved next compose link))).chart.value S
        ⟨production, next, origin, dot + 1⟩ = c.value S ⟨production, next, origin, dot + 1⟩ :=
    fun hne => value_addAll_of_forall_ne (l := ⟨c, ds⟩) h hne
  cases haccepts : accepts category with
  | false =>
    rw [hunmoved fun x hx hitem => ?_]
    · simp
    · rw [(hids.of_mem_moved hcategory hx hitem).1] at haccepts
      cases haccepts
  | true =>
    rw [if_pos rfl]
    rcases c.exists_or_forall_ne ⟨production, position, origin, dot⟩ with
      ⟨id, r, hr, hitem⟩ | hnone
    · obtain ⟨hproduction, hposition, horigin, hdot⟩ := Item.mk.inj hitem
      have hactive : r.state.active? = some category := by
        rw [State.active?, Production.categoryAt?, hproduction, hdot]
        exact hcategory
      have hid : id ∈ ids := (hids.2 id).2 ⟨r, category, hr, hposition, hactive, haccepts⟩
      obtain ⟨s, hs⟩ := State.exists_advance hactive (hposition ▸ hle)
      have hsitem : s.item = ⟨production, next, origin, dot + 1⟩ := by
        rw [State.item_of_advance hs, hproduction, horigin, hdot]
      rw [← hsitem, ← hitem]
      exact value_moved_of_mem h hinner hids hcompose hid hr hs
    · rw [hunmoved fun x hx hitem => ?_, value_eq_zero hnone, zero_mul, add_zero]
      obtain ⟨-, id, r, hr, hitem⟩ := hids.of_mem_moved hcategory hx hitem
      exact hnone id r hr hitem

end Ledger

end SemiringParsing
