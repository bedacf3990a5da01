import Mathlib.Data.List.Induction
import SemiringParsing.Proofs.Chart.Addition

/-!
# What a chart answers

A chart keeps its states in several places: in the records, under what identifies them, by where
they end, by what they expect, and once more if they are completed. `Faithful` says that all of
these agree with the records. The empty chart is faithful and adding keeps it so (`Faithful.add`),
in whatever order the states and their positions come.

The main statement, `grow_represented`, reads off what a chart that was built by additions answers:
each question about its states is answered from its records, and a record keeps the state of the
first addition that had an equal one. Equal states can differ in the probability of their rule.
-/

namespace SemiringParsing

variable {π α : Type}

namespace Chart

variable {c : Chart π α} {S : ScoreAlgebra π α} {s t : State π} {forward inner : α}
  {link? : Option Link}

/-- A record of the chart holds the state. -/
def HasState (c : Chart π α) (s : State π) : Prop :=
  ∃ id r, c.record? id = some r ∧ r.state = s

theorem forall_record?_iff (p : State π → Prop) :
    (∀ id r, c.record? id = some r → p r.state) ↔ ∀ s, c.HasState s → p s := by
  constructor
  · rintro h _ ⟨id, r, hr, rfl⟩
    exact h id r hr
  · intro h id r hr
    exact h _ ⟨id, r, hr, rfl⟩

theorem hasState_insert :
    (c.insert s forward inner link?).HasState t ↔ c.HasState t ∨ t = s := by
  constructor
  · rintro ⟨id, r, hr, rfl⟩
    rw [record?_insert] at hr
    split at hr
    · cases hr
      exact .inr rfl
    · exact .inl ⟨id, r, hr, rfl⟩
  · rintro (⟨id, r, hr, rfl⟩ | rfl)
    · exact ⟨id, r, record?_insert_of_eq_some hr, rfl⟩
    · exact ⟨c.size, _, by rw [record?_insert, if_pos rfl], rfl⟩

theorem hasState_combine {id : StateId} :
    (c.combine S id forward inner link?).HasState t ↔ c.HasState t := by
  simp only [HasState, record?_combine]
  constructor
  · rintro ⟨other, r, hr, rfl⟩
    split at hr
    · obtain ⟨r', hr', rfl⟩ := Option.map_eq_some_iff.1 hr
      exact ⟨other, r', hr', rfl⟩
    · exact ⟨other, r, hr, rfl⟩
  · rintro ⟨other, r, hr, rfl⟩
    by_cases hid : id = other
    · exact ⟨other, r.combine S forward inner link?, by simp [hid, hr], rfl⟩
    · exact ⟨other, r, by simp [hid, hr], rfl⟩

/-! ## Agreement with the records -/

/-- All that a chart keeps besides its records agrees with them. -/
structure Faithful (c : Chart π α) : Prop extends c.Indexed where
  completed : ∀ position : Nat, (c.completed.endingAt position).Lists fun s =>
    c.HasState s ∧ s.isCompleted = true ∧ s.position = position
  errorRules_eq : ∀ position : Nat, c.completed.errorRules position = (c.select fun s =>
    s.isCompleted && decide (s.position = position) && s.rule.isErrorRule).length
  positions_le_iff : ∀ n : Nat,
    c.positions ≤ n ↔ ∀ id r, c.record? id = some r → r.state.position < n

namespace Faithful

theorem empty : (empty : Chart π α).Faithful where
  toIndexed := .empty
  completed position := by
    have hendingAt : (Chart.empty : Chart π α).completed.endingAt position = {} := by
      simp [Chart.empty, CompletedStates.empty, CompletedStates.endingAt]
    rw [hendingAt]
    exact CompletedAt.Lists.empty.congr fun s => by simp [HasState, Chart.empty, record?]
  errorRules_eq position := by
    simp [Chart.empty, CompletedStates.empty, CompletedStates.errorRules,
      CompletedStates.endingAt, select, size]
  positions_le_iff n := by simp [Chart.empty, record?]

/-- The index of completed states does not have a state that is new to the chart. -/
theorem item_ne (h : c.Faithful) (hs : c.id? s = none) (ht : c.HasState t) : t.item ≠ s.item := by
  obtain ⟨id, r, hr, rfl⟩ := ht
  exact h.id?_eq_none.1 hs id r hr

theorem endingAt_insert (h : c.Faithful) (hs : c.id? s = none) (position : Nat) :
    (c.insert s forward inner link?).completed.endingAt position =
      if s.isCompleted = true ∧ s.position = position then
        (c.completed.endingAt position).insert s
      else c.completed.endingAt position := by
  have hcompleted : (c.insert s forward inner link?).completed = (c.completed.add s).1 := rfl
  rw [hcompleted]
  by_cases hposition : s.position = position
  · subst hposition
    cases hs' : s.isCompleted with
    | false => rw [CompletedStates.add_of_not_isCompleted hs', if_neg (by simp)]
    | true =>
      rw [if_pos ⟨rfl, rfl⟩]
      exact CompletedStates.endingAt_add hs'
        ((h.completed s.position).all.not_mem fun t ht => h.item_ne hs ht.1)
  · rw [CompletedStates.endingAt_add_of_ne hposition, if_neg fun h => hposition h.2]

theorem insert (h : c.Faithful) (hs : c.id? s = none) :
    (c.insert s forward inner link?).Faithful where
  toIndexed := h.toIndexed.insert forward inner link? hs
  completed position := by
    have hold := h.completed position
    rw [h.endingAt_insert hs]
    split
    · next hposition =>
      refine (hold.insert fun t ht => h.item_ne hs ht.1).congr fun t => ?_
      rw [hasState_insert]
      constructor
      · rintro (ht | rfl)
        · exact ⟨.inl ht.1, ht.2⟩
        · exact ⟨.inr rfl, hposition⟩
      · rintro ⟨ht | rfl, hrest⟩
        · exact .inl ⟨ht, hrest⟩
        · exact .inr rfl
    · next hposition =>
      refine hold.congr fun t => ?_
      rw [hasState_insert]
      constructor
      · rintro ⟨ht, hrest⟩
        exact ⟨.inl ht, hrest⟩
      · rintro ⟨ht | rfl, hrest⟩
        · exact ⟨ht, hrest⟩
        · exact absurd hrest hposition
  errorRules_eq position := by
    have hold := h.errorRules_eq position
    rw [CompletedStates.errorRules] at hold ⊢
    rw [h.endingAt_insert hs, select_insert, List.length_append, ← hold]
    by_cases hposition : s.isCompleted = true ∧ s.position = position
    · cases herror : s.rule.isErrorRule <;> simp [hposition, herror, CompletedAt.insert]
    · rw [if_neg hposition, if_neg fun hs' => hposition (by simp_all)]
      rfl
  positions_le_iff n := by
    have hpositions : (c.insert s forward inner link?).positions =
        max c.positions (s.position + 1) := rfl
    rw [hpositions, Nat.max_le, h.positions_le_iff, Nat.succ_le_iff,
      forall_record?_iff fun t => t.position < n, forall_record?_iff fun t => t.position < n]
    simp only [hasState_insert, or_imp, forall_and, forall_eq]

theorem combine (h : c.Faithful) (id : StateId) :
    (c.combine S id forward inner link?).Faithful where
  toIndexed := h.toIndexed.combine S forward inner link? id
  completed position := (h.completed position).congr fun t => by rw [hasState_combine]
  errorRules_eq position := by
    rw [select_combine]
    exact h.errorRules_eq position
  positions_le_iff n := by
    have hpositions : (c.combine S id forward inner link?).positions = c.positions := rfl
    rw [hpositions, h.positions_le_iff, forall_record?_iff fun t => t.position < n,
      forall_record?_iff fun t => t.position < n]
    simp only [hasState_combine]

theorem add (h : c.Faithful) (s : State π) : (c.add S s forward inner link?).chart.Faithful := by
  unfold Chart.add
  split
  · exact h.combine _
  · next hs => exact h.insert hs

/-- The completed states of a chart with a left side have numbers, each its own. -/
theorem nodup_completedIds (h : c.Faithful) (position : Nat) (left : Category) :
    (c.completedIds position left).Nodup := by
  have hitems := ((h.completed position).forLeft left).nodup_items
  refine (List.pairwise_map.1 hitems).filterMap _ fun s t hne id hid id' hid' heq => hne ?_
  subst heq
  obtain ⟨r, hr, hitem⟩ := h.id?_eq_some.1 hid
  obtain ⟨r', hr', hitem'⟩ := h.id?_eq_some.1 hid'
  rw [← hitem, ← hitem', Option.some.inj (hr.symm.trans hr')]

theorem mem_completedIds (h : c.Faithful) {position : Nat} {left : Category} {id : StateId} :
    id ∈ c.completedIds position left ↔ ∃ r, c.record? id = some r ∧
      r.state.isCompleted = true ∧ r.state.position = position ∧ r.state.rule.left = left := by
  have hmem : ∀ s, s ∈ (c.completed.forLeft position left).states ↔
      (c.HasState s ∧ s.isCompleted = true ∧ s.position = position) ∧ s.rule.left = left :=
    fun s => ((h.completed position).forLeft left).mem_states
  simp only [completedIds, List.mem_filterMap, hmem]
  constructor
  · rintro ⟨s, ⟨⟨⟨other, r, hr, rfl⟩, hcompleted, hposition⟩, hleft⟩, hid⟩
    obtain rfl : other = id := Option.some.inj ((h.id?_eq_some.2 ⟨r, hr, rfl⟩).symm.trans hid)
    exact ⟨r, hr, hcompleted, hposition, hleft⟩
  · rintro ⟨r, hr, hcompleted, hposition, hleft⟩
    exact ⟨r.state, ⟨⟨⟨id, r, hr, rfl⟩, hcompleted, hposition⟩, hleft⟩,
      h.id?_eq_some.2 ⟨r, hr, rfl⟩⟩

end Faithful

/-! ## What questions are answered -/

/-- What a chart answers about its states is what its records say. -/
structure Represented (c : Chart π α) : Prop where
  /-- A state is found under a number when the record with that number holds an equal state. -/
  id?_eq_some_iff : ∀ (s : State π) (id : StateId),
    c.id? s = some id ↔ id < c.size ∧ ∃ r, c.record? id = some r ∧ (r.state == s) = true
  /-- The numbers are those below the size. -/
  lt_size_iff : ∀ id : StateId, id < c.size ↔ ∃ r, c.record? id = some r
  /-- No two records hold equal states. -/
  eq_of_beq : ∀ id id' r r', c.record? id = some r → c.record? id' = some r' →
    (r.state == r'.state) = true → id = id'
  sorted_statesAt : ∀ position : Nat, (c.statesAt position).toList.Pairwise (· < ·)
  /-- The states at a position are those that end there. -/
  mem_statesAt_iff : ∀ (position : Nat) (id : StateId), id ∈ c.statesAt position ↔
    ∃ r, c.record? id = some r ∧ r.state.position = position
  sorted_activeOn : ∀ (position : Nat) (category : Category),
    (c.activeOn position category).toList.Pairwise (· < ·)
  /-- The states that wait for a category at a position end there and expect it. -/
  mem_activeOn_iff : ∀ (position : Nat) (category : Category) (id : StateId),
    id ∈ c.activeOn position category ↔ ∃ r, c.record? id = some r ∧
      r.state.position = position ∧ r.state.active? = some category
  /-- The index of completed states lists those of the records, without repetition. -/
  mem_all_iff : ∀ (position : Nat) (s : State π), s ∈ (c.completed.all position).states ↔
    c.HasState s ∧ s.isCompleted = true ∧ s.position = position
  mem_nonUnit_iff : ∀ (position : Nat) (s : State π), s ∈ (c.completed.nonUnit position).states ↔
    (c.HasState s ∧ s.isCompleted = true ∧ s.position = position) ∧ s.rule.isUnit = false
  mem_forLeft_iff : ∀ (position : Nat) (left : Category) (s : State π),
    s ∈ (c.completed.forLeft position left).states ↔
      (c.HasState s ∧ s.isCompleted = true ∧ s.position = position) ∧ s.rule.left = left
  nodup_all : ∀ position : Nat, ((c.completed.all position).states.map State.item).Nodup
  /-- The error rules are counted once for each completed state that uses one. -/
  errorRules_eq : ∀ position : Nat, c.completed.errorRules position = (c.select fun s =>
    s.isCompleted && decide (s.position = position) && s.rule.isErrorRule).length
  nodup_completedIds : ∀ (position : Nat) (left : Category), (c.completedIds position left).Nodup
  /-- Completed states are found by where they end and by their left side. -/
  mem_completedIds_iff : ∀ (position : Nat) (left : Category) (id : StateId),
    id ∈ c.completedIds position left ↔ ∃ r, c.record? id = some r ∧
      r.state.isCompleted = true ∧ r.state.position = position ∧ r.state.rule.left = left
  /-- The positions go up to the last that holds a state. -/
  positions_le_iff : ∀ n : Nat,
    c.positions ≤ n ↔ ∀ id r, c.record? id = some r → r.state.position < n

theorem Faithful.represented (h : c.Faithful) : c.Represented where
  id?_eq_some_iff s id := by
    rw [h.id?_eq_some]
    constructor
    · rintro ⟨r, hr, hitem⟩
      exact ⟨lt_size_of_record? hr, r, hr, State.beq_iff.2 hitem⟩
    · rintro ⟨-, r, hr, hbeq⟩
      exact ⟨r, hr, State.beq_iff.1 hbeq⟩
  lt_size_iff id := ⟨exists_record?_of_lt_size, fun ⟨_, hr⟩ => lt_size_of_record? hr⟩
  eq_of_beq id id' r r' hr hr' hbeq := h.id_unique hr hr' (State.beq_iff.1 hbeq)
  sorted_statesAt position := by
    rw [h.toList_statesAt]
    exact c.sorted_select _
  mem_statesAt_iff position id := h.mem_statesAt
  sorted_activeOn position category := by
    rw [h.toList_activeOn]
    exact c.sorted_select _
  mem_activeOn_iff position category id := h.mem_activeOn
  mem_all_iff position s := (h.completed position).all.mem_states
  mem_nonUnit_iff position s := (h.completed position).nonUnit.mem_states
  mem_forLeft_iff position left s := ((h.completed position).forLeft left).mem_states
  nodup_all position := (h.completed position).all.nodup_items
  errorRules_eq := h.errorRules_eq
  nodup_completedIds := h.nodup_completedIds
  mem_completedIds_iff position left id := h.mem_completedIds
  positions_le_iff := h.positions_le_iff

/-- The state that the chart keeps for those that equal it. -/
def kept? (c : Chart π α) (s : State π) : Option (State π) :=
  (c.id? s).bind fun id => (c.record? id).map Record.state

theorem kept?_eq_map_recordOf? (c : Chart π α) (s : State π) :
    c.kept? s = (c.recordOf? s).map Record.state := by
  rw [kept?, recordOf?, Option.map_bind]
  rfl

/-- A chart keeps what it has, and of an addition the state if it has no equal one. -/
theorem kept?_addTo {x : Contribution π α} (h : c.Indexed) :
    (x.addTo S c).chart.kept? t =
      (c.kept? t).or (if x.state == t then some x.state else none) := by
  rw [kept?_eq_map_recordOf?, kept?_eq_map_recordOf?]
  cases hbeq : x.state == t with
  | false => simp [recordOf?_addTo_of_not_beq h hbeq]
  | true =>
    rw [recordOf?_addTo_of_beq h hbeq]
    cases c.recordOf? t <;> simp

/-! ## Charts that are built by additions -/

/-- The chart that additions to the empty one make. -/
def grow (S : ScoreAlgebra π α) (xs : List (Contribution π α)) : Chart π α :=
  xs.foldl (fun c x => (c.add S x.state x.forward x.inner x.link?).chart) .empty

theorem faithful_grow (S : ScoreAlgebra π α) (xs : List (Contribution π α)) :
    (grow S xs).Faithful :=
  List.foldlRecOn xs _ .empty fun _ h _ _ => h.add _

theorem grow_append (S : ScoreAlgebra π α) (xs : List (Contribution π α))
    (x : Contribution π α) :
    grow S (xs ++ [x]) = (x.addTo S (grow S xs)).chart := by
  simp [grow, Contribution.addTo]

/-- Additions keep the records that are there. -/
theorem extends_grow (S : ScoreAlgebra π α) (xs more : List (Contribution π α)) :
    (grow S xs).Extends (grow S (xs ++ more)) := by
  induction more using List.reverseRecOn with
  | nil =>
    rw [List.append_nil]
    exact .refl _
  | append_singleton more x ih =>
    rw [← List.append_assoc, grow_append]
    exact ih.trans (Ledger.extends_add (l := ⟨grow S (xs ++ more), []⟩)
      (faithful_grow S (xs ++ more)).toIndexed)

/-- A chart keeps the state of the first addition that had an equal one. -/
theorem kept?_grow (S : ScoreAlgebra π α) (xs : List (Contribution π α)) (s : State π) :
    (grow S xs).kept? s = (xs.find? fun x => x.state == s).map Contribution.state := by
  induction xs using List.reverseRecOn with
  | nil => rfl
  | append_singleton xs x ih =>
    rw [grow_append, kept?_addTo (faithful_grow S xs).toIndexed, ih, List.find?_append,
      Option.map_or]
    by_cases hx : x.state == s <;> simp [hx]

/-- **A chart is what its records say.** Whatever is added to the empty chart, in any order and
with any scores and links, each question about its states is answered from its records
(`Represented`). It keeps for each state the first of the added ones that equals it, with the
probability of its rule, under a number that stays. -/
theorem grow_represented (S : ScoreAlgebra π α) (xs more : List (Contribution π α)) :
    (grow S xs).Represented ∧
    (∀ s : State π,
      (grow S xs).kept? s = (xs.find? fun x => x.state == s).map Contribution.state) ∧
    ∀ id r, (grow S xs).record? id = some r →
      ∃ r', (grow S (xs ++ more)).record? id = some r' ∧ r'.state = r.state := by
  refine ⟨(faithful_grow S xs).represented, kept?_grow S xs, fun id r hr => ?_⟩
  obtain ⟨r', hr', hstate, -⟩ := extends_grow S xs more id r hr
  exact ⟨r', hr', hstate⟩

end Chart

theorem Ledger.faithful_addAll {S : ScoreAlgebra π α} {l : Ledger π α}
    {xs : List (Contribution π α)} (h : l.chart.Faithful) : (l.addAll S xs).chart.Faithful :=
  Ledger.addAll_induction (motive := fun l => l.chart.Faithful) h fun _ _ _ h => h.add _

end SemiringParsing
