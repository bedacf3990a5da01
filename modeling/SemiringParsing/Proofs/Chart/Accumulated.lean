import Mathlib.Data.List.Perm.Basic
import SemiringParsing.Proofs.Chart.Represented
import SemiringParsing.Proofs.Number.Nonneg

/-!
# What a chart accumulates

A record gathers what is added for its state: its scores are combined from the first addition on, in
order, and each link is kept once, where it came first (`Record.gather`). An addition touches no other
record. Its answer says whether the state is new or one of its combined scores changed, and a state
keeps its number. The main statement is `grow_accumulates`.

The scores of the first addition are stored as they are. They are not combined with a zero, so that
nothing has to be assumed of the algebra.
-/

namespace SemiringParsing

variable {π α : Type}

/-! ## Gathering -/

/-- The contributions to a state, among those to others. -/
def Contribution.to (s : State π) (xs : List (Contribution π α)) : List (Contribution π α) :=
  xs.filter fun x => x.state == s

/-- The record that contributions to one state make, if there are any. -/
def Record.gather (S : ScoreAlgebra π α) : List (Contribution π α) → Option (Record π α)
  | [] => none
  | x :: xs => some
    { state := x.state
      forward := (xs.map Contribution.forward).foldl S.plus x.forward
      inner := (xs.map Contribution.inner).foldl S.plus x.inner
      links := ((x :: xs).filterMap Contribution.link?).eraseDups }

namespace Record

variable {S : ScoreAlgebra π α} {xs ys : List (Contribution π α)}

theorem addLink_eraseDups (link? : Option Link) (links : List Link) :
    addLink link? links.eraseDups = (links ++ link?.toList).eraseDups := by
  cases link? with
  | none => simp [addLink]
  | some link =>
    rw [Option.toList_some, List.eraseDups_append, addLink]
    by_cases hlink : link ∈ links
    · simp [hlink, List.removeAll]
    · simp [hlink, List.removeAll, List.eraseDups_cons]

/-- A further contribution is combined with the record of those before, or makes the record. -/
theorem gather_append (xs : List (Contribution π α)) (x : Contribution π α) :
    gather S (xs ++ [x]) = some ((gather S xs).elim x.record (x.combined S)) := by
  cases xs with
  | nil =>
    have hlinks : (List.filterMap Contribution.link? [x]).eraseDups = addLink x.link? [] := by
      cases hlink : x.link? <;> simp [hlink, addLink, List.eraseDups_cons]
    simp [gather, Contribution.record, hlinks]
  | cons y ys =>
    have hlinks : ((y :: (ys ++ [x])).filterMap Contribution.link?).eraseDups =
        addLink x.link? ((y :: ys).filterMap Contribution.link?).eraseDups := by
      rw [addLink_eraseDups, ← List.cons_append, List.filterMap_append]
      cases hlink : x.link? <;> simp [hlink]
    simp [gather, Contribution.combined, combine, hlinks]

theorem gather_eq_none : gather S xs = none ↔ xs = [] := by
  cases xs <;> simp [gather]

/-- With an operation that is associative and commutative the order of contributions does not matter
for their scores. -/
theorem scores_gather_of_perm (hassoc : ∀ a b c, S.plus (S.plus a b) c = S.plus a (S.plus b c))
    (hcomm : ∀ a b, S.plus a b = S.plus b a) (hperm : xs.Perm ys) :
    (gather S xs).map (fun r => (r.forward, r.inner)) =
      (gather S ys).map fun r => (r.forward, r.inner) := by
  have : RightCommutative S.plus :=
    ⟨fun a b c => by rw [hassoc, hcomm b c, ← hassoc]⟩
  induction hperm with
  | nil => rfl
  | cons x h _ =>
    simp only [gather, Option.map_some, (h.map Contribution.forward).foldl_eq,
      (h.map Contribution.inner).foldl_eq]
  | swap x y l =>
    simp only [gather, Option.map_some, List.map_cons, List.foldl_cons, hcomm y.forward,
      hcomm y.inner]
  | trans _ _ ih ih' => exact ih.trans ih'

end Record

namespace Chart

/-! ## Charts that are built by additions -/

section Grow

variable (S : ScoreAlgebra π α) (xs : List (Contribution π α))

/-- A record is what the contributions to its state make. -/
theorem recordOf?_grow (s : State π) :
    (grow S xs).recordOf? s = Record.gather S (Contribution.to s xs) := by
  induction xs using List.reverseRecOn with
  | nil => rfl
  | append_singleton xs x ih =>
    have hindexed := (faithful_grow S xs).toIndexed
    rw [grow_append]
    cases hbeq : x.state == s with
    | false =>
      have hto : Contribution.to s (xs ++ [x]) = Contribution.to s xs := by
        simp [Contribution.to, hbeq]
      rw [recordOf?_addTo_of_not_beq hindexed hbeq, ih, hto]
    | true =>
      have hto : Contribution.to s (xs ++ [x]) = Contribution.to s xs ++ [x] := by
        simp [Contribution.to, hbeq]
      rw [recordOf?_addTo_of_beq hindexed hbeq, ih, hto, Record.gather_append]

/-- A state has the number that its first addition answered. -/
theorem id_addTo_grow (x y : Contribution π α) (more : List (Contribution π α))
    (hbeq : (y.state == x.state) = true) :
    (y.addTo S (grow S (xs ++ x :: more))).id = (x.addTo S (grow S xs)).id := by
  have hid : (grow S (xs ++ [x])).id? x.state = some (x.addTo S (grow S xs)).id := by
    rw [grow_append]
    exact id?_addTo (faithful_grow S xs).toIndexed
  obtain ⟨r, hr, hitem⟩ := (faithful_grow S (xs ++ [x])).id?_eq_some.1 hid
  obtain ⟨r', hr', hstate, -⟩ := extends_grow S (xs ++ [x]) more _ r hr
  rw [List.append_assoc, List.singleton_append] at hr'
  have hindexed := (faithful_grow S (xs ++ x :: more)).toIndexed
  refine id_addTo_of_id?_eq_some hindexed (hindexed.id?_eq_some.2 ⟨r', hr', ?_⟩)
  rw [hstate, hitem, State.beq_iff.1 hbeq]

theorem changed_addTo_grow_iff (x : Contribution π α) :
    (x.addTo S (grow S xs)).changed = true ↔ Contribution.to x.state xs = [] ∨
      ∃ r r', Record.gather S (Contribution.to x.state xs) = some r ∧
        Record.gather S (Contribution.to x.state xs ++ [x]) = some r' ∧
        (S.same r.forward r'.forward = false ∨ S.same r.inner r'.inner = false) := by
  rw [changed_addTo_iff (faithful_grow S xs).toIndexed, recordOf?_grow, Record.gather_eq_none]
  refine or_congr_right (exists_congr fun r => ?_)
  rw [Record.gather_append]
  constructor
  · rintro ⟨hr, hsame⟩
    exact ⟨_, hr, by rw [hr]; rfl, Bool.and_eq_false_iff.1 hsame⟩
  · rintro ⟨r', hr, hr', hsame⟩
    rw [hr] at hr'
    cases hr'
    exact ⟨hr, Bool.and_eq_false_iff.2 hsame⟩

/-- What is known of additions to the empty chart, and of one more. -/
structure Accumulates : Prop where
  /-- A record is what the contributions to its state make, and there is no other. -/
  recordOf?_eq : ∀ s : State π, (grow S xs).recordOf? s = Record.gather S (Contribution.to s xs)
  /-- An addition answers that something changed if it is the first for its state, or if one of the
  two scores that are combined for the state is no longer the same. -/
  changed_iff : ∀ x : Contribution π α,
    (x.addTo S (grow S xs)).changed = true ↔ Contribution.to x.state xs = [] ∨
      ∃ r r', Record.gather S (Contribution.to x.state xs) = some r ∧
        Record.gather S (Contribution.to x.state xs ++ [x]) = some r' ∧
        (S.same r.forward r'.forward = false ∨ S.same r.inner r'.inner = false)
  /-- It answers the number of its state. -/
  id?_eq : ∀ x : Contribution π α,
    (x.addTo S (grow S xs)).chart.id? x.state = some (x.addTo S (grow S xs)).id
  /-- Later additions for the state answer the same number. -/
  id_eq : ∀ (x y : Contribution π α) (more : List (Contribution π α)),
    (y.state == x.state) = true →
      (y.addTo S (grow S (xs ++ x :: more))).id = (x.addTo S (grow S xs)).id
  /-- The records with other numbers stay as they are. -/
  record?_eq : ∀ (x : Contribution π α) (id : StateId), id ≠ (x.addTo S (grow S xs)).id →
    (x.addTo S (grow S xs)).chart.record? id = (grow S xs).record? id
  /-- The order of additions does not matter for scores where it does not matter for sums. -/
  scores_eq_of_perm : (∀ a b c, S.plus (S.plus a b) c = S.plus a (S.plus b c)) →
    (∀ a b, S.plus a b = S.plus b a) → ∀ ys : List (Contribution π α), xs.Perm ys →
      ∀ s : State π, ((grow S xs).recordOf? s).map (fun r => (r.forward, r.inner)) =
        ((grow S ys).recordOf? s).map fun r => (r.forward, r.inner)

/-- **Additions accumulate exactly.** Whatever is added to the empty chart in any algebra, each record
gathers the contributions to its state: their scores are combined from the first on, and each link is
kept once, where it came first. The answers of an addition are exact, and it touches no other record.
So in an algebra with sums that are associative and commutative, the scores do not depend on the
order of the additions. -/
theorem grow_accumulates : Accumulates S xs where
  recordOf?_eq := recordOf?_grow S xs
  changed_iff := changed_addTo_grow_iff S xs
  id?_eq _ := id?_addTo (faithful_grow S xs).toIndexed
  id_eq := id_addTo_grow S xs
  record?_eq _ _ := record?_addTo_of_ne (faithful_grow S xs).toIndexed
  scores_eq_of_perm hassoc hcomm ys hperm s := by
    rw [recordOf?_grow, recordOf?_grow]
    exact Record.scores_gather_of_perm hassoc hcomm (hperm.filter _)

end Grow

end Chart

/-! ## An example -/

namespace Examples

open ExtendedNumber ScoreAlgebra

/-- Sums of probabilities are associative for invalid operands too. They leave their mark on the sum,
wherever they stand. -/
theorem probability_plus_assoc (a b c : Exact) :
    probability.plus (probability.plus a b) c = probability.plus a (probability.plus b c) := by
  have hmark : isNonneg (negInfinity : Exact) = false := by decide
  cases ha : isNonneg a with
  | false => simp [probability, onNonneg, ha, hmark]
  | true =>
    cases hb : isNonneg b with
    | false => simp [probability, onNonneg, hb, hmark]
    | true =>
      cases hc : isNonneg c with
      | false => simp [probability, onNonneg, hc, hmark]
      | true => exact IsSemiring.plus_assoc (S := probability) ha hb hc

theorem probability_plus_comm (a b : Exact) :
    probability.plus a b = probability.plus b a := by
  cases ha : isNonneg a with
  | false => simp [probability, onNonneg, ha]
  | true =>
    cases hb : isNonneg b with
    | false => simp [probability, onNonneg, hb]
    | true => exact IsSemiring.plus_comm (S := probability) ha hb

/-- One state is added twice, with another in between. -/
def additions : List (Contribution Exact Exact) :=
  [⟨.begin ambiguousGrammar.topRule 0, 0.25, 0.5, none⟩,
    ⟨.begin ambiguousGrammar.topRule 1, 1, 1, some (.scanned 0)⟩,
    ⟨.begin ambiguousGrammar.topRule 0, 0.25, 0.25, some (.scanned 1)⟩]

end Examples

open Examples in
/-- In either order the state that is added twice has the same scores. A third addition of it answers
the number of the first, and that nothing changed if it brings only zeros. -/
theorem Chart.grow_accumulates_additions :
    additions.Perm additions.reverse ∧
    ((grow .probability additions).recordOf? (.begin ambiguousGrammar.topRule 0)).map
        (fun r => (r.forward, r.inner)) =
      ((grow .probability additions.reverse).recordOf? (.begin ambiguousGrammar.topRule 0)).map
        (fun r => (r.forward, r.inner)) ∧
    ((grow .probability additions).recordOf? (.begin ambiguousGrammar.topRule 0)).map
      (fun r => (r.forward, r.inner, r.links)) = some (0.5, 0.75, [.scanned 1]) ∧
    (Contribution.addTo .probability (grow .probability additions)
      ⟨.begin ambiguousGrammar.topRule 0, 0, 0, none⟩).id = 0 ∧
    (Contribution.addTo .probability (grow .probability additions)
      ⟨.begin ambiguousGrammar.topRule 0, 0, 0, none⟩).changed = false := by
  have hperm : additions.Perm additions.reverse := (List.reverse_perm _).symm
  have haccumulates := grow_accumulates .probability additions
  refine ⟨hperm, haccumulates.scores_eq_of_perm probability_plus_assoc probability_plus_comm _
    hperm _, ?_, ?_, ?_⟩
  · rw [haccumulates.recordOf?_eq]
    decide +kernel
  · exact (grow_accumulates .probability []).id_eq
      ⟨.begin ambiguousGrammar.topRule 0, 0.25, 0.5, none⟩
      ⟨.begin ambiguousGrammar.topRule 0, 0, 0, none⟩ _ (by decide)
  · decide +kernel

end SemiringParsing
