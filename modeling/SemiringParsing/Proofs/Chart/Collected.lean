import Mathlib.Data.List.Induction
import SemiringParsing.Proofs.Chart.CompletedIndex

/-!
# Collecting completed states

States are added one after another to an empty index. Each position then holds the completed states
that end there, of equal ones the first, and counts those that use an error rule
(`CompletedStates.Indexes`). An addition tells by its answer whether the state is completed and new,
and if it is not, or at another position, nothing changes. The main statement is `collect_indexes`.

The counter is never computed from the states. That it is their number holds since each new state
changes both.
-/

namespace SemiringParsing

variable {π : Type}

/-! ## The first of equal states -/

section First

variable {xs : List (State π)} {s t : State π}

/-- Another state at the end is the first of those that equal it if there was none before. -/
theorem State.find?_append_eq_some :
    (xs ++ [s]).find? (· == t) = some t ↔
      xs.find? (· == t) = some t ∨ (∀ u ∈ xs, (u == s) = false) ∧ t = s := by
  rw [List.find?_append, Option.or_eq_some_iff, List.find?_eq_none, List.find?_singleton]
  refine or_congr_right ?_
  constructor
  · rintro ⟨hnone, hlast⟩
    obtain rfl : s = t := by
      split at hlast
      · exact Option.some.inj hlast
      · cases hlast
    exact ⟨fun u hu => Bool.eq_false_iff.2 (hnone u hu), rfl⟩
  · rintro ⟨hnew, rfl⟩
    exact ⟨fun u hu => Bool.eq_false_iff.1 (hnew u hu), if_pos (State.beq_iff.2 rfl)⟩

/-- Among states with one that equals a state, there is a first one. -/
theorem State.exists_first (h : t ∈ xs) (hbeq : (t == s) = true) :
    ∃ u, u.item = s.item ∧ xs.find? (· == u) = some u := by
  obtain ⟨u, hu⟩ := Option.isSome_iff_exists.1 ((List.find?_isSome (p := (· == s))).2 ⟨t, h, hbeq⟩)
  have hitem : u.item = s.item := State.beq_iff.1 (List.find?_some (p := (· == s)) hu)
  refine ⟨u, hitem, ?_⟩
  have hsame : (fun v : State π => v == u) = fun v => v == s := by
    funext v
    show (v.item == u.item) = (v.item == s.item)
    rw [hitem]
  rw [hsame, hu]

end First

namespace CompletedAt

/-- The counter counts the states that use an error rule. -/
def Counts (c : CompletedAt π) : Prop :=
  c.errorRules = c.all.states.countP (·.rule.isErrorRule)

theorem Counts.insert {c : CompletedAt π} {s : State π} {p : State π → Prop} (h : c.Counts)
    (hlists : c.all.Lists p) (hnew : ∀ t, p t → t.item ≠ s.item) : (c.insert s).Counts := by
  show (if s.rule.isErrorRule then c.errorRules + 1 else c.errorRules) =
    (c.all.add s).states.countP (·.rule.isErrorRule)
  rw [(hlists.states_add_perm hnew).countP_eq, List.countP_cons, ← h]
  split <;> rfl

end CompletedAt

namespace CompletedStates

variable {c : CompletedStates π} {s : State π}

theorem add_eq_self (h : (c.add s).2 = false) : (c.add s).1 = c := by
  unfold add at h ⊢
  dsimp only at h ⊢
  split
  · next hnew =>
    rw [if_pos hnew] at h
    cases h
  · rfl

theorem add_snd_eq_true :
    (c.add s).2 = true ↔ s.isCompleted = true ∧ s.item ∉ c.all s.position := by
  have hsnd : (c.add s).2 = (s.isCompleted && !(c.all s.position).contains s.item) := by
    unfold add
    dsimp only
    split
    · next hnew => exact hnew.symm
    · next hold => exact (Bool.eq_false_iff.2 hold).symm
  rw [hsnd, Bool.and_eq_true, Bool.not_eq_true', ← Bool.not_eq_true, Std.TreeMap.mem_iff_contains]

/-! ## Sequences of additions -/

/-- The index that states leave when they are added one after another to the empty one. -/
def collect (xs : List (State π)) : CompletedStates π :=
  xs.foldl (fun c s => (c.add s).1) .empty

theorem collect_append (xs : List (State π)) (s : State π) :
    collect (xs ++ [s]) = ((collect xs).add s).1 := by
  simp [collect]

/-- A completed state that ends at a position, the first of the states that equal it. -/
def FirstAt (xs : List (State π)) (position : Nat) (s : State π) : Prop :=
  s.isCompleted = true ∧ s.position = position ∧ xs.find? (· == s) = some s

section Tracks

variable {xs : List (State π)} {t : State π} {position : Nat}

theorem FirstAt.item_ne (ht : FirstAt xs position t) (hnew : ∀ u ∈ xs, (u == s) = false) :
    t.item ≠ s.item :=
  State.beq_eq_false_iff.1 (hnew t (List.mem_of_find?_eq_some ht.2.2))

/-- What comes in with a further state is that state, at its position, if it is completed and new. -/
theorem firstAt_append : FirstAt (xs ++ [s]) position t ↔ FirstAt xs position t ∨
    (s.isCompleted = true ∧ ∀ u ∈ xs, (u == s) = false) ∧ s.position = position ∧ t = s := by
  unfold FirstAt
  rw [State.find?_append_eq_some]
  constructor
  · rintro ⟨hcompleted, hposition, hfirst | ⟨hnew, rfl⟩⟩
    · exact .inl ⟨hcompleted, hposition, hfirst⟩
    · exact .inr ⟨⟨hcompleted, hnew⟩, hposition, rfl⟩
  · rintro (⟨hcompleted, hposition, hfirst⟩ | ⟨⟨hcompleted, hnew⟩, hposition, rfl⟩)
    · exact ⟨hcompleted, hposition, .inl hfirst⟩
    · exact ⟨hcompleted, hposition, .inr ⟨hnew, rfl⟩⟩

/-- The index holds of some states the completed ones, of equal ones the first, and its counters are
right. -/
structure Tracks (c : CompletedStates π) (xs : List (State π)) : Prop where
  lists : ∀ position : Nat, (c.endingAt position).Lists (FirstAt xs position)
  counts : ∀ position : Nat, (c.endingAt position).Counts

namespace Tracks

theorem empty : (empty : CompletedStates π).Tracks [] := by
  have hendingAt : ∀ position, (CompletedStates.empty : CompletedStates π).endingAt position = {} :=
    fun position => by simp [CompletedStates.empty, endingAt]
  refine ⟨fun position => ?_, fun position => ?_⟩
  · rw [hendingAt]
    exact CompletedAt.Lists.empty.congr fun s => by simp [FirstAt]
  · rw [hendingAt]
    rfl

/-- An addition answers whether its state is completed and new. -/
theorem add_snd_eq_true_iff (h : c.Tracks xs) :
    (c.add s).2 = true ↔ s.isCompleted = true ∧ ∀ t ∈ xs, (t == s) = false := by
  rw [add_snd_eq_true]
  refine and_congr_right fun hcompleted => ?_
  constructor
  · intro hs t ht
    refine Bool.eq_false_iff.2 fun hbeq => hs ?_
    obtain ⟨u, hitem, hfirst⟩ := State.exists_first ht hbeq
    have hu : FirstAt xs s.position u :=
      ⟨(State.isCompleted_eq_of_item_eq hitem).trans hcompleted, congrArg Item.position hitem,
        hfirst⟩
    have hget := ((h.lists s.position).all u.item u).2 ⟨rfl, hu⟩
    exact hitem ▸ Std.TreeMap.mem_iff_isSome_getElem?.2 (Option.isSome_of_eq_some hget)
  · intro hnew
    exact (h.lists s.position).all.not_mem fun t ht => ht.item_ne hnew

theorem add (h : c.Tracks xs) (s : State π) : (c.add s).1.Tracks (xs ++ [s]) := by
  suffices hat : ∀ position, ((c.add s).1.endingAt position).Lists (FirstAt (xs ++ [s]) position) ∧
      ((c.add s).1.endingAt position).Counts from
    ⟨fun position => (hat position).1, fun position => (hat position).2⟩
  intro position
  by_cases hadded : (c.add s).2 = true ∧ s.position = position
  · obtain ⟨hadd, rfl⟩ := hadded
    have hcompleted := add_snd_eq_true.1 hadd
    have hnew := h.add_snd_eq_true_iff.1 hadd
    have hne : ∀ t, FirstAt xs s.position t → t.item ≠ s.item := fun t ht => ht.item_ne hnew.2
    rw [endingAt_add hcompleted.1 hcompleted.2]
    refine ⟨((h.lists _).insert hne).congr fun t => ?_, (h.counts _).insert (h.lists _).all hne⟩
    rw [firstAt_append, and_iff_right hnew, and_iff_right rfl]
  · have hsame : (c.add s).1.endingAt position = c.endingAt position := by
      by_cases hposition : s.position = position
      · rw [add_eq_self (Bool.eq_false_iff.2 fun hadd => hadded ⟨hadd, hposition⟩)]
      · exact endingAt_add_of_ne hposition
    rw [hsame]
    refine ⟨(h.lists position).congr fun t => ?_, h.counts position⟩
    rw [firstAt_append, or_iff_left]
    exact fun hadd => hadded ⟨h.add_snd_eq_true_iff.2 hadd.1, hadd.2.1⟩

end Tracks

theorem tracks_collect (xs : List (State π)) : (collect xs).Tracks xs := by
  induction xs using List.reverseRecOn with
  | nil => exact .empty
  | append_singleton xs s ih =>
    rw [collect_append]
    exact ih.add s

end Tracks

/-! ## Answers -/

/-- What an index answers about the states that were added to it. -/
structure Indexes (c : CompletedStates π) (xs : List (State π)) : Prop where
  /-- At a position are the completed states that end there, of equal ones the first. -/
  mem_all_iff : ∀ (position : Nat) (s : State π), s ∈ (c.all position).states ↔
    s.isCompleted = true ∧ s.position = position ∧ xs.find? (· == s) = some s
  nodup_all : ∀ position : Nat, ((c.all position).states.map State.item).Nodup
  /-- Some of them have a right side of another length than one. -/
  mem_nonUnit_iff : ∀ (position : Nat) (s : State π), s ∈ (c.nonUnit position).states ↔
    s ∈ (c.all position).states ∧ s.rule.right.length ≠ 1
  nodup_nonUnit : ∀ position : Nat, ((c.nonUnit position).states.map State.item).Nodup
  /-- Some of them have a given left side. -/
  mem_forLeft_iff : ∀ (position : Nat) (left : Category) (s : State π),
    s ∈ (c.forLeft position left).states ↔ s ∈ (c.all position).states ∧ s.rule.left = left
  nodup_forLeft : ∀ (position : Nat) (left : Category),
    ((c.forLeft position left).states.map State.item).Nodup
  /-- The counter is the number of those that expect an error somewhere. -/
  errorRules_eq : ∀ position : Nat, c.errorRules position =
    ((c.all position).states.filter fun s => decide (.error ∈ s.rule.right)).length

theorem Tracks.indexes {xs : List (State π)} (h : c.Tracks xs) : c.Indexes xs where
  mem_all_iff position s := (h.lists position).all.mem_states
  nodup_all position := (h.lists position).all.nodup_items
  mem_nonUnit_iff position s := by
    refine (h.lists position).nonUnit.mem_states.trans ?_
    refine and_congr (h.lists position).all.mem_states.symm ?_
    exact beq_eq_false_iff_ne
  nodup_nonUnit position := (h.lists position).nonUnit.nodup_items
  mem_forLeft_iff position left s := by
    refine ((h.lists position).forLeft left).mem_states.trans ?_
    exact and_congr_left' (h.lists position).all.mem_states.symm
  nodup_forLeft position left := ((h.lists position).forLeft left).nodup_items
  errorRules_eq position := by
    refine (h.counts position).trans ?_
    rw [List.countP_eq_length_filter]
    simp only [Production.isErrorRule, List.contains_eq_mem]
    rfl

/-- **The index of completed states.** When states are added one after another to the empty index,
in any order and any number of times, each position lists the completed states that end there, of
equal ones the first, and counts the error rules among them (`Indexes`). A further addition answers
whether its state is completed and equals none before. If it does not, nothing changes at all, and
at other positions nothing changes in any case. -/
theorem collect_indexes (xs : List (State π)) :
    (collect xs).Indexes xs ∧ ∀ s : State π,
      (((collect xs).add s).2 = true ↔ s.isCompleted = true ∧ ∀ t ∈ xs, (t == s) = false) ∧
      (((collect xs).add s).2 = false → ((collect xs).add s).1 = collect xs) ∧
      ∀ position, s.position ≠ position →
        ((collect xs).add s).1.endingAt position = (collect xs).endingAt position :=
  ⟨(tracks_collect xs).indexes, fun _ =>
    ⟨(tracks_collect xs).add_snd_eq_true_iff, add_eq_self, fun _ => endingAt_add_of_ne⟩⟩

end CompletedStates

end SemiringParsing
