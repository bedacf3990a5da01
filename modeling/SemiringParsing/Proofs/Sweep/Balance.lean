import Mathlib.Algebra.Notation.Pi.Basic
import SemiringParsing.Proofs.Sweep.Links
import SemiringParsing.Proofs.Sweep.Value

/-!
# What has been passed on

Of the score of a state some has been passed on and some is owed: it is on the agenda. A ledger is
`Balanced` when for every state the two add up to what is stored. Adding contributions keeps this,
and so does taking one from the agenda, which counts as passed on from then.

The agenda drops contributions that change nothing. In an exact algebra these are contributions that
add nothing, and the balance does not notice.
-/

namespace SemiringParsing

variable {π α τ : Type} [Number π]

namespace Ledger

variable (S : ScoreAlgebra π α) [S.IsSemiring]

/-- What is still to be passed on of the inner score of a state. -/
def owed (pending : List (Delta α)) (id : StateId) : S.Members :=
  ((pending.filter fun d => d.id == id).map fun d => S.lift d.inner).sum

variable {pending : List (Delta α)} {d : Delta α} {id : StateId}

@[simp] theorem owed_nil : owed S [] id = 0 := rfl

theorem owed_cons : owed S (d :: pending) id =
    (if d.id = id then S.lift d.inner else 0) + owed S pending id := by
  unfold owed
  by_cases h : d.id = id <;> simp [h]

theorem owed_append (pending' : List (Delta α)) :
    owed S (pending ++ pending') id = owed S pending id + owed S pending' id := by
  simp [owed]

theorem owed_eq_zero (h : ∀ d ∈ pending, d.id ≠ id) : owed S pending id = 0 := by
  rw [owed, List.filter_eq_nil_iff.2 fun d hd => by simpa using h d hd]
  rfl

/-- What was passed on of each item and what is owed add up to what is stored. -/
structure Balanced (l : Ledger π α) (passed : Item → S.Members) : Prop where
  indexed : l.chart.Indexed
  inner : l.chart.InnerMembers S
  pending : ∀ d ∈ l.pending, S.member d.inner = true ∧ ∃ r, l.chart.record? d.id = some r
  stored : ∀ id r, l.chart.record? id = some r →
    S.lift r.inner = passed r.state.item + owed S l.pending id
  absent : ∀ i, (∀ id r, l.chart.record? id = some r → r.state.item ≠ i) → passed i = 0

namespace Balanced

variable {S} {l : Ledger π α} {passed : Item → S.Members} {x : Contribution π α}
  {c : Chart π α} {ds : List (Delta α)} {r : Record π α}

/-- A contribution to a state that is there goes onto the agenda, or it adds nothing. -/
theorem pending_add (h : l.Balanced S passed) (hx : S.member x.inner = true)
    (hr : l.chart.record? id = some r) (hitem : r.state.item = x.state.item) :
    (l.add S x).pending = l.pending ++ [x.delta id] ∨
      S.plus r.inner x.inner = r.inner ∧ (l.add S x).pending = l.pending := by
  have hmem := h.inner id r hr
  rw [add_eq_combine h.indexed hr hitem]
  dsimp only
  split
  · next hsame =>
    refine .inr ⟨?_, List.append_nil _⟩
    simp only [Record.sameScores, Bool.and_eq_true] at hsame
    exact ((ScoreAlgebra.same_iff hmem (ScoreAlgebra.IsSemiring.plus_mem hmem hx)).1 hsame.2).symm
  · exact .inl rfl

/-- A contribution to a state that is there keeps what is stored in balance. -/
theorem stored_combine (h : l.Balanced S passed) (hx : S.member x.inner = true)
    (hr : l.chart.record? id = some r) (hitem : r.state.item = x.state.item) {id' : StateId}
    {r' : Record π α} (hr' : (l.add S x).chart.record? id' = some r') :
    S.lift r'.inner = passed r'.state.item + owed S (l.add S x).pending id' := by
  rcases record?_add h.indexed hr' with ⟨hold, hne⟩ | ⟨r₀, hr₀, hitem₀, rfl⟩ | ⟨-, hnew, -⟩
  · have hid : id ≠ id' := by
      rintro rfl
      rw [hr] at hold
      cases hold
      exact hne hitem
    have howed : owed S (l.add S x).pending id' = owed S l.pending id' := by
      rcases h.pending_add hx hr hitem with hpending | ⟨-, hpending⟩
      · rw [hpending, owed_append, owed_cons, owed_nil, Contribution.delta, if_neg hid, add_zero,
          add_zero]
      · rw [hpending]
    rw [howed]
    exact h.stored id' r' hold
  · obtain rfl : id = id' := h.indexed.id_unique hr hr₀ (hitem.trans hitem₀.symm)
    obtain rfl : r = r₀ := Option.some.inj (hr.symm.trans hr₀)
    have hmem := h.inner id r hr
    have hstored := h.stored id r hr
    rcases h.pending_add hx hr hitem with hpending | ⟨hsame, hpending⟩
    · rw [hpending, owed_append, owed_cons, owed_nil, Contribution.delta, if_pos rfl, add_zero,
        ← add_assoc, Contribution.state_combined, ← hstored]
      exact ScoreAlgebra.lift_plus hmem hx
    · rw [hpending, Contribution.state_combined, ← hstored]
      exact congrArg S.lift hsame
  · exact absurd hitem (h.indexed.id?_eq_none.1 hnew id r hr)

/-- A contribution to a new state does so too. -/
theorem stored_insert (h : l.Balanced S passed) (hnew : l.chart.id? x.state = none)
    {r' : Record π α} (hr' : (l.add S x).chart.record? id = some r') :
    S.lift r'.inner = passed r'.state.item + owed S (l.add S x).pending id := by
  have hpending : (l.add S x).pending = l.pending ++ [x.delta l.chart.size] := by
    rw [add_eq_insert hnew]
  rw [hpending, owed_append, owed_cons, owed_nil, Contribution.delta, add_zero]
  rcases record?_add h.indexed hr' with ⟨hold, -⟩ | ⟨r₀, hr₀, hitem₀, -⟩ | ⟨rfl, -, rfl⟩
  · rw [if_neg (Ne.symm (Nat.ne_of_lt (Chart.lt_size_of_record? hold))), add_zero]
    exact h.stored id r' hold
  · exact absurd hitem₀ (h.indexed.id?_eq_none.1 hnew id r₀ hr₀)
  · have howed : owed S l.pending l.chart.size = 0 := by
      refine owed_eq_zero S fun d hd hid => ?_
      obtain ⟨-, r, hr⟩ := h.pending d hd
      exact Nat.ne_of_lt (Chart.lt_size_of_record? hr) hid
    rw [howed, if_pos rfl, Contribution.state_record, h.absent _ (h.indexed.id?_eq_none.1 hnew),
      zero_add, zero_add]
    rfl

/-- Adding a contribution keeps the balance. -/
theorem add (h : l.Balanced S passed) (hx : S.member x.inner = true) :
    (l.add S x).Balanced S passed where
  indexed := indexed_add h.indexed
  inner := innerMembers_add h.indexed h.inner hx
  pending d hd := by
    rcases mem_pending_add h.indexed hd with hd | ⟨id, r, rfl, hr, -⟩
    · obtain ⟨hmem, r, hr⟩ := h.pending d hd
      obtain ⟨r', hr', -⟩ := extends_add (S := S) (x := x) h.indexed d.id r hr
      exact ⟨hmem, r', hr'⟩
    · exact ⟨hx, r, hr⟩
  stored id r hr := by
    rcases known_or_new h.indexed x with ⟨known, r', hr', hitem⟩ | hnew
    · exact h.stored_combine hx hr' hitem hr
    · exact h.stored_insert hnew hr
  absent i hi := by
    refine h.absent i fun id r hr hitem => ?_
    obtain ⟨r', hr', hstate, -⟩ := extends_add (S := S) (x := x) h.indexed id r hr
    exact hi id r' hr' (hstate ▸ hitem)

theorem addAll {xs : List (Contribution π α)} (h : l.Balanced S passed)
    (hxs : ∀ x ∈ xs, S.member x.inner = true) : (l.addAll S xs).Balanced S passed :=
  addAll_induction (motive := fun l => l.Balanced S passed) h fun _ x hx h => h.add (hxs x hx)

/-- What is taken from the agenda has been passed on. -/
theorem pop (h : Balanced S ⟨c, d :: ds⟩ passed) (hr : c.record? d.id = some r) :
    Balanced S ⟨c, ds⟩ (passed + Pi.single r.state.item (S.lift d.inner)) where
  indexed := h.indexed
  inner := h.inner
  pending e he := h.pending e (List.mem_cons_of_mem _ he)
  stored id r' hr' := by
    have hstored := h.stored id r' hr'
    rw [owed_cons] at hstored
    rw [hstored, Pi.add_apply, add_assoc]
    by_cases hid : d.id = id
    · subst hid
      obtain rfl : r = r' := Option.some.inj (hr.symm.trans hr')
      rw [if_pos rfl, Pi.single_eq_same]
    · have hne : r'.state.item ≠ r.state.item := fun hitem =>
        hid (h.indexed.id_unique hr hr' hitem.symm)
      rw [if_neg hid, Pi.single_eq_of_ne hne]
  absent i hi := by
    rw [Pi.add_apply, Pi.single_eq_of_ne (Ne.symm (hi d.id r hr)), add_zero]
    exact h.absent i hi

/-- When nothing is owed all that is stored has been passed on. -/
theorem value_eq (h : Balanced S ⟨c, []⟩ passed) (i : Item) : c.value S i = passed i := by
  rcases c.exists_or_forall_ne i with ⟨id, r, hr, rfl⟩ | hnone
  · rw [Chart.value_of_record? h.indexed hr rfl, h.stored id r hr, owed_nil, add_zero]
  · rw [Chart.value_eq_zero hnone, h.absent i hnone]

end Balanced

end Ledger

end SemiringParsing
