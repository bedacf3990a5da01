import SemiringParsing.Proofs.Chart.Indexed

/-!
# The index of completed states

A chart files its completed states a second time: by the position where they end, and there all
together, without the unit productions and by their left sides. Each of these is a set of states,
kept under what identifies them. `StateSet.Lists` says which states a set consists of, and
`CompletedAt.Lists` says it of all the sets of a position at once.
-/

namespace SemiringParsing

variable {π : Type}

/-! ## Equal states -/

namespace State

variable {s t : State π}

theorem beq_iff : (s == t) = true ↔ s.item = t.item := by
  show (s.item == t.item) = true ↔ s.item = t.item
  exact beq_iff_eq

theorem beq_eq_false_iff : (s == t) = false ↔ s.item ≠ t.item := by
  rw [← Bool.not_eq_true, beq_iff]

theorem isCompleted_eq_of_item_eq (h : s.item = t.item) : s.isCompleted = t.isCompleted :=
  congrArg (fun i : Item => i.dot == i.production.length) h

end State

/-! ## Sets of states -/

namespace StateSet

variable {set : StateSet π} {s t : State π} {p q : State π → Prop}

theorem states_eq_map_toList (set : StateSet π) : set.states = set.toList.map Prod.snd := by
  have hvalues : set.states = set.foldr (fun _ s states => s :: states) [] := rfl
  rw [hvalues, Std.TreeMap.foldr_eq_foldr_toList, ← List.map_eq_foldr]

theorem mem_states : t ∈ set.states ↔ ∃ i : Item, set[i]? = some t := by
  simp [states_eq_map_toList, Std.TreeMap.mem_toList_iff_getElem?_eq_some]

/-- The set consists of the states with some property, each under what identifies it. -/
def Lists (set : StateSet π) (p : State π → Prop) : Prop :=
  ∀ (i : Item) (s : State π), set[i]? = some s ↔ s.item = i ∧ p s

namespace Lists

theorem empty : Lists (∅ : StateSet π) fun _ => False := by
  intro i s
  simp

theorem congr (h : set.Lists p) (hpq : ∀ s, p s ↔ q s) : set.Lists q := by
  intro i s
  rw [h i s, hpq s]

theorem mem_states (h : set.Lists p) : s ∈ set.states ↔ p s := by
  rw [StateSet.mem_states]
  constructor
  · rintro ⟨i, hi⟩
    exact ((h i s).1 hi).2
  · intro hs
    exact ⟨s.item, (h _ s).2 ⟨rfl, hs⟩⟩

/-- No two states of a set are equal. -/
theorem nodup_items (h : set.Lists p) : (set.states.map State.item).Nodup := by
  have hkeys : set.states.map State.item = set.keys := by
    rw [states_eq_map_toList, List.map_map, ← Std.TreeMap.map_fst_toList_eq_keys]
    refine List.map_congr_left fun entry hentry => ?_
    exact ((h _ _).1 (Std.TreeMap.mem_toList_iff_getElem?_eq_some.1 hentry)).1
  rw [hkeys]
  exact Std.TreeMap.nodup_keys

theorem not_mem (h : set.Lists p) (hnew : ∀ t, p t → t.item ≠ s.item) : s.item ∉ set := by
  rw [Std.TreeMap.mem_iff_isSome_getElem?, Option.isSome_iff_exists]
  rintro ⟨t, ht⟩
  obtain ⟨hitem, hp⟩ := (h _ _).1 ht
  exact hnew t hp hitem

/-- A state that equals none of the set comes in. -/
theorem add (h : set.Lists p) (hnew : ∀ t, p t → t.item ≠ s.item) :
    (set.add s).Lists fun t => p t ∨ t = s := by
  intro i t
  rw [StateSet.add, Std.TreeMap.getElem?_insertIfNew]
  by_cases hi : s.item = i
  · subst hi
    rw [if_pos ⟨Std.ReflCmp.compare_self, h.not_mem hnew⟩, Option.some_inj]
    constructor
    · rintro rfl
      exact ⟨rfl, .inr rfl⟩
    · rintro ⟨hitem, ht | rfl⟩
      · exact absurd hitem (hnew t ht)
      · rfl
  · rw [if_neg fun hcmp => hi (Std.LawfulEqCmp.eq_of_compare hcmp.1), h i t]
    constructor
    · rintro ⟨hitem, ht⟩
      exact ⟨hitem, .inl ht⟩
    · rintro ⟨hitem, ht | rfl⟩
      · exact ⟨hitem, ht⟩
      · exact absurd hitem hi

/-- A state that equals none of the set is listed with the others. -/
theorem states_add_perm (h : set.Lists p) (hnew : ∀ t, p t → t.item ≠ s.item) :
    (set.add s).states.Perm (s :: set.states) := by
  have hnodup : (s :: set.states).Nodup := by
    refine List.nodup_cons.2 ⟨fun hs => ?_, h.nodup_items.of_map _⟩
    exact hnew s (h.mem_states.1 hs) rfl
  refine (List.perm_ext_iff_of_nodup ((h.add hnew).nodup_items.of_map _) hnodup).2 fun t => ?_
  rw [(h.add hnew).mem_states, List.mem_cons, h.mem_states, or_comm]

/-- A state that equals none of the set comes in if it has a further property. -/
theorem addIf {P : Prop} [Decidable P] (h : set.Lists fun t => p t ∧ q t)
    (hnew : ∀ t, p t → t.item ≠ s.item) (hP : P ↔ q s) :
    (if P then set.add s else set).Lists fun t => (p t ∨ t = s) ∧ q t := by
  split
  · next hs =>
    refine (h.add fun t ht => hnew t ht.1).congr fun t => ?_
    constructor
    · rintro (ht | rfl)
      · exact ⟨.inl ht.1, ht.2⟩
      · exact ⟨.inr rfl, hP.1 hs⟩
    · rintro ⟨ht | rfl, hq⟩
      · exact .inl ⟨ht, hq⟩
      · exact .inr rfl
  · next hs =>
    refine h.congr fun t => ⟨fun ht => ⟨.inl ht.1, ht.2⟩, ?_⟩
    rintro ⟨ht | rfl, hq⟩
    · exact ⟨ht, hq⟩
    · exact absurd (hP.2 hq) hs

end Lists

end StateSet

/-! ## The completed states at a position -/

namespace CompletedAt

variable {c : CompletedAt π} {s : State π} {p q : State π → Prop}

/-- The sets are made up of the states with some property. -/
structure Lists (c : CompletedAt π) (p : State π → Prop) : Prop where
  all : c.all.Lists p
  nonUnit : c.nonUnit.Lists fun s => p s ∧ s.rule.isUnit = false
  forLeft : ∀ left : Category, (c.forLeft left).Lists fun s => p s ∧ s.rule.left = left

namespace Lists

theorem empty : Lists ({} : CompletedAt π) fun _ => False where
  all := .empty
  nonUnit := StateSet.Lists.empty.congr fun _ => by simp
  forLeft left := by
    have : CompletedAt.forLeft ({} : CompletedAt π) left = ∅ := by simp [CompletedAt.forLeft]
    rw [this]
    exact StateSet.Lists.empty.congr fun _ => by simp

theorem congr (h : c.Lists p) (hpq : ∀ s, p s ↔ q s) : c.Lists q where
  all := h.all.congr hpq
  nonUnit := h.nonUnit.congr fun s => and_congr_left' (hpq s)
  forLeft left := (h.forLeft left).congr fun s => and_congr_left' (hpq s)

theorem insert (h : c.Lists p) (hnew : ∀ t, p t → t.item ≠ s.item) :
    (c.insert s).Lists fun t => p t ∨ t = s where
  all := h.all.add hnew
  nonUnit := by
    have hnonUnit : (c.insert s).nonUnit =
        if s.rule.isUnit = false then c.nonUnit.add s else c.nonUnit := by
      cases h : s.rule.isUnit <;> simp [CompletedAt.insert, h]
    rw [hnonUnit]
    exact h.nonUnit.addIf hnew Iff.rfl
  forLeft left := by
    have hforLeft : (c.insert s).forLeft left =
        if s.rule.left = left then (c.forLeft left).add s else c.forLeft left := by
      rw [CompletedAt.insert, CompletedAt.forLeft, Std.TreeMap.getD_insert]
      by_cases hleft : s.rule.left = left
      · subst hleft
        simp
      · simp [hleft, CompletedAt.forLeft]
    rw [hforLeft]
    exact (h.forLeft left).addIf hnew Iff.rfl

end Lists

end CompletedAt

namespace CompletedStates

variable {c : CompletedStates π} {s : State π} {position : Nat}

theorem endingAt_add_of_ne (hne : s.position ≠ position) :
    (c.add s).1.endingAt position = c.endingAt position := by
  unfold add
  dsimp only
  split
  · simp only [endingAt, Std.TreeMap.getD_insert]
    rw [if_neg (by simpa using hne)]
  · rfl

theorem add_of_not_isCompleted (h : s.isCompleted = false) : (c.add s).1 = c := by
  simp [add, h]

theorem endingAt_add (h : s.isCompleted = true) (hnew : s.item ∉ c.all s.position) :
    (c.add s).1.endingAt s.position = (c.endingAt s.position).insert s := by
  have hcontains : (c.endingAt s.position).all.contains s.item = false :=
    Bool.eq_false_iff.2 fun hcontains => hnew (Std.TreeMap.mem_iff_contains.2 hcontains)
  rw [add, h, hcontains, Bool.not_false, Bool.and_self, if_pos rfl, endingAt]
  exact Std.TreeMap.getD_insert_self

end CompletedStates

end SemiringParsing
