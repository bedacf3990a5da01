import Mathlib.Data.List.Basic
import Mathlib.Data.List.Nodup
import SemiringParsing.Chart.Basic

/-!
# The indexes of a chart

A chart looks up the number of a state and lists states by where they end and what they expect.
All of these are functions of its records: `Indexed` says so, and every chart that is grown from
the empty one by adding states is `Indexed`.

Adding only ever extends a chart. Records keep their numbers and states, and links are put behind
the links that were there (`Extends`).
-/

namespace SemiringParsing.Chart

variable {π α : Type}

/-! ## Selecting states -/

/-- The numbers of the states with some property, in increasing order. -/
def select (c : Chart π α) (p : State π → Bool) : List StateId :=
  (List.range c.size).filter fun id => (c.record? id).any fun r => p r.state

theorem lt_size_of_record? {c : Chart π α} {id : StateId} {r : Record π α}
    (h : c.record? id = some r) : id < c.size := by
  simp only [record?, Array.getElem?_eq_some_iff] at h
  exact h.1

theorem exists_record?_of_lt_size {c : Chart π α} {id : StateId} (h : id < c.size) :
    ∃ r, c.record? id = some r :=
  ⟨_, Array.getElem?_eq_getElem h⟩

/-- A new record leaves the others where they are. -/
theorem record?_insert_of_eq_some {c : Chart π α} {s : State π} {forward inner : α}
    {link? : Option Link} {id : StateId} {r : Record π α} (hr : c.record? id = some r) :
    (c.insert s forward inner link?).record? id = some r := by
  rw [record?_insert, if_neg (Nat.ne_of_lt (lt_size_of_record? hr)), hr]

theorem mem_select {c : Chart π α} {p : State π → Bool} {id : StateId} :
    id ∈ c.select p ↔ ∃ r, c.record? id = some r ∧ p r.state = true := by
  simp only [select, List.mem_filter, List.mem_range, Option.any_eq_true]
  constructor
  · rintro ⟨-, r, hr, hp⟩
    exact ⟨r, hr, hp⟩
  · rintro ⟨r, hr, hp⟩
    exact ⟨lt_size_of_record? hr, r, hr, hp⟩

theorem nodup_select (c : Chart π α) (p : State π → Bool) : (c.select p).Nodup :=
  List.nodup_range.filter _

theorem sorted_select (c : Chart π α) (p : State π → Bool) : (c.select p).Pairwise (· < ·) :=
  List.pairwise_lt_range.filter _

section Operations

variable (S : ScoreAlgebra π α) (c : Chart π α) (s : State π) (forward inner : α)
  (link? : Option Link)

theorem select_insert (p : State π → Bool) :
    (c.insert s forward inner link?).select p = c.select p ++ if p s then [c.size] else [] := by
  simp only [select, size_insert, List.range_succ, List.filter_append, record?_insert]
  congr 1
  · refine List.filter_congr fun id hid => ?_
    rw [if_neg (Nat.ne_of_lt (List.mem_range.1 hid))]
  · cases hp : p s <;> simp [hp]

theorem select_combine (p : State π → Bool) (id : StateId) :
    (c.combine S id forward inner link?).select p = c.select p := by
  simp only [select, size_combine, record?_combine]
  refine List.filter_congr fun other _ => ?_
  split
  · cases c.record? other <;> rfl
  · rfl

end Operations

/-! ## Indexes -/

/-- The indexes of a chart agree with its records. -/
structure Indexed (c : Chart π α) : Prop where
  id?_eq_some : ∀ {s : State π} {id : StateId},
    c.id? s = some id ↔ ∃ r, c.record? id = some r ∧ r.state.item = s.item
  toList_statesAt : ∀ position : Nat,
    (c.statesAt position).toList = c.select fun s => decide (s.position = position)
  toList_activeOn : ∀ (position : Nat) (category : Category), (c.activeOn position category).toList =
    c.select fun s => decide (s.position = position ∧ s.active? = some category)

namespace Indexed

theorem empty : (empty : Chart π α).Indexed where
  id?_eq_some := by simp [Chart.empty, id?, record?]
  toList_statesAt := by simp [Chart.empty, statesAt, select, size]
  toList_activeOn := by simp [Chart.empty, activeOn, select, size]

variable {c : Chart π α}

theorem id?_eq_none (h : c.Indexed) {s : State π} :
    c.id? s = none ↔ ∀ id r, c.record? id = some r → r.state.item ≠ s.item := by
  rw [Option.eq_none_iff_forall_ne_some]
  constructor
  · intro hne id r hr hitem
    exact hne id (h.id?_eq_some.2 ⟨r, hr, hitem⟩)
  · intro hne id hid
    obtain ⟨r, hr, hitem⟩ := h.id?_eq_some.1 hid
    exact hne id r hr hitem

/-- No two records hold the same state. -/
theorem id_unique (h : c.Indexed) {id id' : StateId} {r r' : Record π α}
    (hr : c.record? id = some r) (hr' : c.record? id' = some r')
    (hitem : r.state.item = r'.state.item) : id = id' := by
  have hid := h.id?_eq_some.2 ⟨r, hr, hitem⟩
  have hid' := h.id?_eq_some.2 ⟨r', hr', rfl⟩
  exact Option.some.inj (hid.symm.trans hid')

theorem mem_statesAt (h : c.Indexed) {position : Nat} {id : StateId} :
    id ∈ c.statesAt position ↔ ∃ r, c.record? id = some r ∧ r.state.position = position := by
  rw [← Array.mem_toList_iff, h.toList_statesAt, mem_select]
  simp

theorem mem_activeOn (h : c.Indexed) {position : Nat} {category : Category} {id : StateId} :
    id ∈ c.activeOn position category ↔
      ∃ r, c.record? id = some r ∧ r.state.position = position ∧
        r.state.active? = some category := by
  rw [← Array.mem_toList_iff, h.toList_activeOn, mem_select]
  simp

theorem nodup_statesAt (h : c.Indexed) (position : Nat) : (c.statesAt position).toList.Nodup := by
  rw [h.toList_statesAt]
  exact c.nodup_select _

theorem nodup_activeOn (h : c.Indexed) (position : Nat) (category : Category) :
    (c.activeOn position category).toList.Nodup := by
  rw [h.toList_activeOn]
  exact c.nodup_select _

variable (S : ScoreAlgebra π α) {s : State π} (forward inner : α) (link? : Option Link)

theorem insert (h : c.Indexed) (hs : c.id? s = none) :
    (c.insert s forward inner link?).Indexed where
  id?_eq_some {t id} := by
    rw [id?_insert]
    have hnone := h.id?_eq_none.1 hs
    split
    · next hitem =>
      constructor
      · rintro ⟨⟩
        exact ⟨_, by rw [record?_insert, if_pos rfl], hitem⟩
      · rintro ⟨r, hr, hrt⟩
        rw [record?_insert] at hr
        split at hr
        · next hid => rw [hid]
        · exact absurd (hrt.trans hitem.symm) (hnone id r hr)
    · next hitem =>
      rw [h.id?_eq_some]
      constructor
      · rintro ⟨r, hr, hrt⟩
        exact ⟨r, record?_insert_of_eq_some hr, hrt⟩
      · rintro ⟨r, hr, hrt⟩
        rw [record?_insert] at hr
        split at hr
        · cases hr
          exact absurd hrt hitem
        · exact ⟨r, hr, hrt⟩
  toList_statesAt position := by
    rw [statesAt_insert, select_insert, ← h.toList_statesAt]
    by_cases hp : s.position = position <;> simp [hp]
  toList_activeOn position category := by
    rw [activeOn_insert, select_insert, ← h.toList_activeOn]
    by_cases hp : s.position = position ∧ s.active? = some category <;> simp [hp]

theorem combine (h : c.Indexed) (id : StateId) : (c.combine S id forward inner link?).Indexed where
  id?_eq_some {t other} := by
    rw [id?_combine, h.id?_eq_some, record?_combine]
    split
    · cases c.record? other <;> simp [Record.combine]
    · rfl
  toList_statesAt position := by
    rw [statesAt_combine, select_combine, h.toList_statesAt]
  toList_activeOn position category := by
    rw [activeOn_combine, select_combine, h.toList_activeOn]

theorem add (h : c.Indexed) (s : State π) : (c.add S s forward inner link?).chart.Indexed := by
  unfold Chart.add
  split
  · exact h.combine S forward inner link? _
  · next hs => exact h.insert forward inner link? hs

end Indexed

/-! ## Extension -/

/-- One chart goes on from another: it has all its records, with further links put behind. -/
def Extends (c c' : Chart π α) : Prop :=
  ∀ id r, c.record? id = some r →
    ∃ r', c'.record? id = some r' ∧ r'.state = r.state ∧ r.links <+: r'.links

namespace Extends

theorem refl (c : Chart π α) : c.Extends c :=
  fun _ r hr => ⟨r, hr, rfl, List.prefix_refl _⟩

theorem trans {c c' c'' : Chart π α} (h : c.Extends c') (h' : c'.Extends c'') : c.Extends c'' := by
  intro id r hr
  obtain ⟨r', hr', hstate, hlinks⟩ := h id r hr
  obtain ⟨r'', hr'', hstate', hlinks'⟩ := h' id r' hr'
  exact ⟨r'', hr'', hstate'.trans hstate, hlinks.trans hlinks'⟩

end Extends

theorem prefix_addLink (link? : Option Link) (links : List Link) :
    links <+: Record.addLink link? links := by
  unfold Record.addLink
  split
  · exact List.prefix_refl _
  · split
    · exact List.prefix_refl _
    · exact List.prefix_append ..

theorem mem_addLink {link? : Option Link} {links : List Link} {link : Link} :
    link ∈ Record.addLink link? links ↔ link ∈ links ∨ link? = some link := by
  unfold Record.addLink
  split
  · simp
  · next l =>
    split
    · next h =>
      constructor
      · exact .inl
      · rintro (h' | h')
        · exact h'
        · cases h'
          exact h
    · simp [eq_comm]

theorem nodup_addLink {link? : Option Link} {links : List Link} (h : links.Nodup) :
    (Record.addLink link? links).Nodup := by
  unfold Record.addLink
  split
  · exact h
  · split
    · exact h
    · next hl =>
      refine List.nodup_append.2 ⟨h, List.nodup_singleton _, ?_⟩
      rintro a ha b hb rfl
      exact hl (List.mem_singleton.1 hb ▸ ha)

end SemiringParsing.Chart
