import SemiringParsing.Proofs.Sweep.Consequence
import SemiringParsing.Tree.Build

/-!
# Charts with other scores

Replacing the two scores of every record leaves all else of a chart as it is (`Chart.rescore`). The
indexes do not look at scores, and neither do the trees that are built from a chart
(`tree_rescore`). Where the replacement agrees with the sum of scores, it makes no difference
whether it is done before a contribution comes in or after (`rescore_addAll`).
-/

namespace SemiringParsing

variable {π α β τ : Type}

/-- The record with other scores. -/
def Record.rescore (f : α → α → β × β) (r : Record π α) : Record π β :=
  ⟨r.state, (f r.forward r.inner).1, (f r.forward r.inner).2, r.links⟩

/-- The contribution with other scores. -/
def Contribution.rescore (f : α → α → β × β) (x : Contribution π α) : Contribution π β :=
  ⟨x.state, (f x.forward x.inner).1, (f x.forward x.inner).2, x.link?⟩

/-- The chart with other scores. -/
def Chart.rescore (f : α → α → β × β) (c : Chart π α) : Chart π β :=
  { c with records := c.records.map (Record.rescore f) }

/-- Replacing scores agrees with adding them up. -/
def ScoreAlgebra.Agrees (S : ScoreAlgebra π α) (T : ScoreAlgebra π β) (f : α → α → β × β) : Prop :=
  ∀ a b a' b', f (S.plus a a') (S.plus b b') =
    (T.plus (f a b).1 (f a' b').1, T.plus (f a b).2 (f a' b').2)

namespace Chart

variable {f : α → α → β × β} {c : Chart π α}

@[simp] theorem size_rescore : (c.rescore f).size = c.size := by
  simp [rescore, size]

@[simp] theorem record?_rescore (id : StateId) :
    (c.rescore f).record? id = (c.record? id).map (Record.rescore f) := by
  simp [rescore, record?]

@[simp] theorem id?_rescore (s : State π) : (c.rescore f).id? s = c.id? s := rfl

@[simp] theorem statesAt_rescore (position : Nat) :
    (c.rescore f).statesAt position = c.statesAt position := rfl

@[simp] theorem activeOn_rescore (position : Nat) (category : Category) :
    (c.rescore f).activeOn position category = c.activeOn position category := rfl

theorem select_rescore (p : State π → Bool) : (c.rescore f).select p = c.select p := by
  unfold select
  rw [size_rescore]
  refine List.filter_congr fun id _ => ?_
  rw [record?_rescore]
  cases c.record? id <;> rfl

theorem Indexed.rescore (h : c.Indexed) : (c.rescore f).Indexed where
  id?_eq_some {s id} := by
    rw [id?_rescore, h.id?_eq_some, record?_rescore]
    cases c.record? id <;> simp [Record.rescore]
  toList_statesAt position := by
    rw [statesAt_rescore, select_rescore, h.toList_statesAt]
  toList_activeOn position category := by
    rw [activeOn_rescore, select_rescore, h.toList_activeOn]

theorem record_rescore (id : StateId) :
    (c.rescore f).record id = (c.record id).map (Record.rescore f) := by
  unfold record lookUp
  simp only [rescore, Array.getElem?_map, Array.size_map]
  cases c.records[id]? <;> rfl

/-! ## Trees -/

theorem walk_rescore (fuel : Nat) (id : StateId) (bases : List Basis) :
    (c.rescore f).walk fuel id bases = c.walk fuel id bases := by
  induction fuel generalizing id bases with
  | zero => rfl
  | succ fuel ih =>
    unfold walk
    rw [record_rescore]
    cases c.record id with
    | error e => rfl
    | ok r =>
      simp only [Except.map, Record.rescore, ih, record_rescore]
      rcases r.links.head? with _ | ⟨predecessor, _ | child⟩
      · rfl
      · dsimp only
        cases c.record predecessor <;> rfl
      · rfl

theorem trees_rescore (depth : Nat) (path : List StateId) (id : StateId) :
    (c.rescore f).trees depth path id = c.trees depth path id := by
  induction depth generalizing path id with
  | zero => rfl
  | succ depth ih =>
    have hchild : (c.rescore f).trees depth (id :: path) = c.trees depth (id :: path) := by
      funext child
      exact ih (id :: path) child
    unfold trees bases
    rw [record_rescore, hchild, walk_rescore, size_rescore]
    cases c.record id with
    | error e => rfl
    | ok r => rfl

/-- Trees do not depend on scores. -/
theorem tree_rescore (id : StateId) : (c.rescore f).tree id = c.tree id := by
  unfold tree
  rw [record_rescore, trees_rescore, size_rescore]
  cases c.record id with
  | error e => rfl
  | ok r => rfl

/-! ## Additions -/

theorem rescore_insert (s : State π) (forward inner : α) (link? : Option Link) :
    (c.insert s forward inner link?).rescore f =
      (c.rescore f).insert s (f forward inner).1 (f forward inner).2 link? := by
  simp [insert, rescore, size, Record.rescore]

theorem rescore_combine {S : ScoreAlgebra π α} {T : ScoreAlgebra π β} (h : S.Agrees T f)
    (id : StateId) (forward inner : α) (link? : Option Link) :
    (c.combine S id forward inner link?).rescore f =
      (c.rescore f).combine T id (f forward inner).1 (f forward inner).2 link? := by
  have hcombine : ∀ r : Record π α, (r.combine S forward inner link?).rescore f =
      (r.rescore f).combine T (f forward inner).1 (f forward inner).2 link? := by
    intro r
    simp [Record.combine, Record.rescore, h r.forward r.inner forward inner]
  simp only [combine, rescore]
  congr 1
  refine Array.ext_getElem? fun other => ?_
  simp only [Array.getElem?_map, Array.getElem?_modify]
  split
  · simp [hcombine, Function.comp_def]
  · rfl

end Chart

namespace Ledger

variable {S : ScoreAlgebra π α} {T : ScoreAlgebra π β} {f : α → α → β × β}

theorem rescore_add (h : S.Agrees T f) (l : Ledger π α) (x : Contribution π α)
    (ds : List (Delta β)) : (l.add S x).chart.rescore f =
      (Ledger.add T ⟨l.chart.rescore f, ds⟩ (x.rescore f)).chart := by
  unfold add Chart.add
  dsimp only [Contribution.rescore, Chart.id?_rescore]
  cases l.chart.id? x.state with
  | some id => exact Chart.rescore_combine h ..
  | none => exact Chart.rescore_insert ..

theorem rescore_addAll (h : S.Agrees T f) (l : Ledger π α) (xs : List (Contribution π α))
    (ds : List (Delta β)) : (l.addAll S xs).chart.rescore f =
      (Ledger.addAll T ⟨l.chart.rescore f, ds⟩ (xs.map (Contribution.rescore f))).chart := by
  induction xs generalizing l ds with
  | nil => rfl
  | cons x xs ih =>
    rw [addAll_cons, ih, rescore_add h l x ds]
    rfl

end Ledger

/-! ## What a step of a sweep looks at -/

namespace Chart

variable {f : α → α → β × β} {c : Chart π α}

theorem moved_rescore {compose : α → α} {compose' : β → β}
    (h : ∀ forward inner, f (compose forward) (compose inner) =
      (compose' (f forward inner).1, compose' (f forward inner).2))
    (next : Nat) (link : StateId → Link) (id : StateId) :
    (c.rescore f).moved next compose' link id =
      (c.moved next compose link id).map (Contribution.rescore f) := by
  unfold moved
  rw [record?_rescore]
  cases c.record? id with
  | none => rfl
  | some r =>
    simp only [Option.map_some, Record.rescore]
    rcases r.state.advance next with _ | _ | s
    · rfl
    · rfl
    · simp [Contribution.rescore, h]

theorem expects_rescore (token : Token τ) (id : StateId) :
    Sweep.expects (c.rescore f) token id = Sweep.expects c token id := by
  unfold Sweep.expects
  rw [record?_rescore]
  cases c.record? id <;> rfl

end Chart

end SemiringParsing
