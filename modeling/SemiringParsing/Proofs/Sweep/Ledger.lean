import SemiringParsing.Proofs.Chart.Indexed
import SemiringParsing.Sweep.Basic

/-!
# Ledgers

Of a sweep, only the chart and the contributions that are still to be passed on decide how it
goes on. They make up its `Ledger`, in which the agenda is a plain list. A `Contribution` is
what one addition brings: a state, two scores and perhaps a link.

Adding a contribution either combines it with the record of its state (`add_eq_combine`) or stores
a new record (`add_eq_insert`). The other lemmas say what follows, for one contribution and for a
list of them: what was there stays, every contribution finds its place, and nothing else comes in.
-/

namespace SemiringParsing

/-- A derivation of a state, with the scores and the link it brings. -/
structure Contribution (π α : Type) where
  state : State π
  forward : α
  inner : α
  link? : Option Link

namespace Contribution

variable {π α : Type}

/-- The record that a contribution makes when its state is new. -/
def record (x : Contribution π α) : Record π α :=
  ⟨x.state, x.forward, x.inner, Record.addLink x.link? []⟩

/-- The record that a contribution makes of the record of its state. -/
def combined (S : ScoreAlgebra π α) (x : Contribution π α) (r : Record π α) : Record π α :=
  r.combine S x.forward x.inner x.link?

/-- What is to be passed on of a contribution to a state. -/
def delta (x : Contribution π α) (id : StateId) : Delta α :=
  ⟨id, x.forward, x.inner⟩

@[simp] theorem state_record (x : Contribution π α) : x.record.state = x.state := rfl

@[simp] theorem state_combined (S : ScoreAlgebra π α) (x : Contribution π α) (r : Record π α) :
    (x.combined S r).state = r.state := rfl

theorem mem_links_record {x : Contribution π α} {link : Link} :
    link ∈ x.record.links ↔ x.link? = some link := by
  simp [record, Chart.mem_addLink]

theorem links_record_eq_nil {x : Contribution π α} : x.record.links = [] ↔ x.link? = none := by
  cases h : x.link? <;> simp [record, Record.addLink, h]

theorem mem_links_combined {S : ScoreAlgebra π α} {x : Contribution π α} {r : Record π α}
    {link : Link} : link ∈ (x.combined S r).links ↔ link ∈ r.links ∨ x.link? = some link :=
  Chart.mem_addLink

end Contribution

/-- A chart with the contributions that are still to be passed on. -/
structure Ledger (π α : Type) where
  chart : Chart π α
  pending : List (Delta α)

/-- The chart of a sweep with what is on its agenda. -/
def Sweep.ledger {π α : Type} (w : Sweep π α) : Ledger π α :=
  ⟨w.chart, w.agenda.toList⟩

namespace Ledger

variable {π α : Type} {S : ScoreAlgebra π α}

/-- The ledger without states. -/
def empty : Ledger π α := ⟨.empty, []⟩

theorem indexed_empty : (empty : Ledger π α).chart.Indexed := .empty

@[simp] theorem record?_empty (id : StateId) : (empty : Ledger π α).chart.record? id = none := by
  simp [empty, Chart.empty, Chart.record?]

@[simp] theorem pending_empty : (empty : Ledger π α).pending = [] := rfl

/-- Adds a contribution, which is to be passed on if it changed something. -/
def add (S : ScoreAlgebra π α) (l : Ledger π α) (x : Contribution π α) : Ledger π α :=
  let a := l.chart.add S x.state x.forward x.inner x.link?
  ⟨a.chart, l.pending ++ if a.changed then [x.delta a.id] else []⟩

/-- Adds contributions one after the other. -/
def addAll (S : ScoreAlgebra π α) (l : Ledger π α) (xs : List (Contribution π α)) : Ledger π α :=
  xs.foldl (add S) l

@[simp] theorem addAll_nil (l : Ledger π α) : l.addAll S [] = l := rfl

@[simp] theorem addAll_cons (l : Ledger π α) (x : Contribution π α) (xs : List (Contribution π α)) :
    l.addAll S (x :: xs) = (l.add S x).addAll S xs := rfl

theorem addAll_append (l : Ledger π α) (xs ys : List (Contribution π α)) :
    l.addAll S (xs ++ ys) = (l.addAll S xs).addAll S ys :=
  List.foldl_append

/-! ## One contribution -/

section Add

variable {l : Ledger π α} {x : Contribution π α} {id : StateId} {r r' : Record π α}

theorem add_eq_combine (h : l.chart.Indexed) (hr : l.chart.record? id = some r)
    (hitem : r.state.item = x.state.item) :
    l.add S x = ⟨l.chart.combine S id x.forward x.inner x.link?,
      l.pending ++ if r.sameScores S (x.combined S r) then [] else [x.delta id]⟩ := by
  have hid := h.id?_eq_some.2 ⟨r, hr, hitem⟩
  rw [add, Chart.add, hid]
  cases hsame : r.sameScores S (x.combined S r) <;> simp_all [Contribution.combined]

theorem add_eq_insert (h : l.chart.id? x.state = none) :
    l.add S x = ⟨l.chart.insert x.state x.forward x.inner x.link?,
      l.pending ++ [x.delta l.chart.size]⟩ := by
  rw [add, Chart.add, h]
  simp

/-- A contribution is to a state that is there or to a new one. -/
theorem known_or_new (h : l.chart.Indexed) (x : Contribution π α) :
    (∃ id r, l.chart.record? id = some r ∧ r.state.item = x.state.item) ∨
      l.chart.id? x.state = none := by
  cases hid : l.chart.id? x.state with
  | none => exact .inr rfl
  | some id =>
    obtain ⟨r, hr, hitem⟩ := h.id?_eq_some.1 hid
    exact .inl ⟨id, r, hr, hitem⟩

theorem indexed_add (h : l.chart.Indexed) : (l.add S x).chart.Indexed :=
  h.add S x.forward x.inner x.link? x.state

/-- What a record was before a contribution came in: the same, one that the contribution was
combined with, or not there. -/
theorem record?_add (h : l.chart.Indexed) (hr' : (l.add S x).chart.record? id = some r') :
    (l.chart.record? id = some r' ∧ r'.state.item ≠ x.state.item) ∨
      (∃ r, l.chart.record? id = some r ∧ r.state.item = x.state.item ∧ r' = x.combined S r) ∨
        (id = l.chart.size ∧ l.chart.id? x.state = none ∧ r' = x.record) := by
  rcases known_or_new h x with ⟨other, r, hr, hitem⟩ | hnew
  · rw [add_eq_combine h hr hitem] at hr'
    simp only [Chart.record?_combine] at hr'
    split at hr'
    · next heq =>
      subst heq
      rw [hr] at hr'
      cases hr'
      exact .inr (.inl ⟨r, hr, hitem, rfl⟩)
    · next hne =>
      refine .inl ⟨hr', fun hitem' => hne ?_⟩
      exact h.id_unique hr hr' (hitem.trans hitem'.symm)
  · rw [add_eq_insert hnew] at hr'
    simp only [Chart.record?_insert] at hr'
    split at hr'
    · next hid =>
      cases hr'
      exact .inr (.inr ⟨hid, hnew, rfl⟩)
    · exact .inl ⟨hr', h.id?_eq_none.1 hnew id r' hr'⟩

/-- The first contribution makes the only record. -/
theorem eq_record_of_add_empty (hr : (empty.add S x).chart.record? id = some r) :
    r = x.record := by
  rcases record?_add indexed_empty hr with ⟨hr, -⟩ | ⟨_, hr, -⟩ | ⟨-, -, rfl⟩
  · simp at hr
  · simp at hr
  · rfl

theorem record?_add_of_ne (h : l.chart.Indexed) (hr : l.chart.record? id = some r)
    (hne : r.state.item ≠ x.state.item) : (l.add S x).chart.record? id = some r := by
  rcases known_or_new h x with ⟨other, r', hr', hitem⟩ | hnew
  · rw [add_eq_combine h hr' hitem]
    simp only [Chart.record?_combine]
    split
    · next heq =>
      subst heq
      rw [hr] at hr'
      cases hr'
      exact absurd hitem hne
    · exact hr
  · rw [add_eq_insert hnew]
    exact Chart.record?_insert_of_eq_some hr

theorem record?_add_of_eq (h : l.chart.Indexed) (hr : l.chart.record? id = some r)
    (hitem : r.state.item = x.state.item) :
    (l.add S x).chart.record? id = some (x.combined S r) := by
  rw [add_eq_combine h hr hitem]
  simp [Chart.record?_combine, hr, Contribution.combined]

theorem record?_add_of_new (hnew : l.chart.id? x.state = none) :
    (l.add S x).chart.record? l.chart.size = some x.record := by
  rw [add_eq_insert hnew]
  simp [Chart.record?_insert, Contribution.record]

theorem extends_add (h : l.chart.Indexed) : l.chart.Extends (l.add S x).chart := by
  intro id r hr
  by_cases hitem : r.state.item = x.state.item
  · exact ⟨_, record?_add_of_eq h hr hitem, rfl, Chart.prefix_addLink ..⟩
  · exact ⟨r, record?_add_of_ne h hr hitem, rfl, List.prefix_refl _⟩

/-- A contribution finds its place, and so does its link. -/
theorem exists_record?_add (h : l.chart.Indexed) : ∃ id r, (l.add S x).chart.record? id = some r ∧
    r.state.item = x.state.item ∧ ∀ link, x.link? = some link → link ∈ r.links := by
  rcases known_or_new h x with ⟨id, r, hr, hitem⟩ | hnew
  · exact ⟨id, _, record?_add_of_eq h hr hitem, hitem,
      fun link hlink => Contribution.mem_links_combined.2 (.inr hlink)⟩
  · exact ⟨_, _, record?_add_of_new hnew, rfl,
      fun link hlink => Contribution.mem_links_record.2 hlink⟩

/-- What comes onto the agenda is the contribution, to its state. -/
theorem exists_pending_add_eq (h : l.chart.Indexed) : ∃ ds, (l.add S x).pending = l.pending ++ ds ∧
    ∀ d ∈ ds, ∃ id r, d = x.delta id ∧ (l.add S x).chart.record? id = some r ∧
      r.state.item = x.state.item := by
  rcases known_or_new h x with ⟨id, r, hr, hitem⟩ | hnew
  · have hadd := record?_add_of_eq (S := S) h hr hitem
    refine ⟨if r.sameScores S (x.combined S r) then [] else [x.delta id],
      congrArg Ledger.pending (add_eq_combine h hr hitem), fun d hd => ?_⟩
    split at hd
    · simp at hd
    · exact ⟨id, _, List.mem_singleton.1 hd, hadd, hitem⟩
  · have hadd := record?_add_of_new (S := S) hnew
    refine ⟨[x.delta l.chart.size], congrArg Ledger.pending (add_eq_insert hnew), fun d hd => ?_⟩
    exact ⟨_, _, List.mem_singleton.1 hd, hadd, rfl⟩

theorem mem_pending_add (h : l.chart.Indexed) {d : Delta α} (hd : d ∈ (l.add S x).pending) :
    d ∈ l.pending ∨ ∃ id r, d = x.delta id ∧ (l.add S x).chart.record? id = some r ∧
      r.state.item = x.state.item := by
  obtain ⟨ds, heq, hds⟩ := exists_pending_add_eq (S := S) (x := x) h
  rw [heq] at hd
  exact (List.mem_append.1 hd).imp id (hds d)

/-- A state that is new is on the agenda. -/
theorem exists_pending_add (h : l.chart.Indexed) (hr : (l.add S x).chart.record? id = some r) :
    (∃ r, l.chart.record? id = some r) ∨ ∃ d ∈ (l.add S x).pending, d.id = id := by
  rcases record?_add h hr with ⟨hr, -⟩ | ⟨r, hr, -⟩ | ⟨rfl, hnew, -⟩
  · exact .inl ⟨_, hr⟩
  · exact .inl ⟨r, hr⟩
  · rw [add_eq_insert hnew]
    exact .inr ⟨x.delta l.chart.size, by simp, rfl⟩

end Add

/-! ## Several contributions -/

section AddAll

variable {l : Ledger π α} {xs : List (Contribution π α)} {id : StateId} {r : Record π α}

/-- What one contribution after the other keeps is kept. -/
theorem addAll_induction {motive : Ledger π α → Prop} (h : motive l)
    (step : ∀ l, ∀ x ∈ xs, motive l → motive (l.add S x)) : motive (l.addAll S xs) := by
  induction xs generalizing l with
  | nil => exact h
  | cons x xs ih =>
    exact ih (step l x List.mem_cons_self h) fun l y hy => step l y (List.mem_cons_of_mem _ hy)

theorem indexed_addAll (h : l.chart.Indexed) : (l.addAll S xs).chart.Indexed :=
  addAll_induction (motive := fun l => l.chart.Indexed) h fun _ _ _ h => indexed_add h

variable (S xs) in
theorem extends_addAll (h : l.chart.Indexed) : l.chart.Extends (l.addAll S xs).chart :=
  (addAll_induction (motive := fun l' => l'.chart.Indexed ∧ l.chart.Extends l'.chart)
    ⟨h, .refl _⟩ fun _ _ _ h => ⟨indexed_add h.1, h.2.trans (extends_add h.1)⟩).2

/-- A record whose state receives no contribution stays as it is. -/
theorem record?_addAll_of_forall_ne (h : l.chart.Indexed) (hr : l.chart.record? id = some r)
    (hne : ∀ x ∈ xs, r.state.item ≠ x.state.item) :
    (l.addAll S xs).chart.record? id = some r :=
  (addAll_induction (motive := fun l => l.chart.Indexed ∧ l.chart.record? id = some r) ⟨h, hr⟩
    fun _ x hx h => ⟨indexed_add h.1, record?_add_of_ne h.1 h.2 (hne x hx)⟩).2

/-- Every contribution finds its place, and so does its link. -/
theorem exists_record?_addAll (h : l.chart.Indexed) {x : Contribution π α} (hx : x ∈ xs) :
    ∃ id r, (l.addAll S xs).chart.record? id = some r ∧ r.state.item = x.state.item ∧
      ∀ link, x.link? = some link → link ∈ r.links := by
  induction xs generalizing l with
  | nil => simp at hx
  | cons y ys ih =>
    rcases List.mem_cons.1 hx with rfl | hx
    · obtain ⟨id, r, hr, hitem, hlink⟩ := exists_record?_add (S := S) (x := x) h
      obtain ⟨r', hr', hstate, hlinks⟩ :=
        extends_addAll S ys (indexed_add h) id r hr
      exact ⟨id, r', hr', hstate ▸ hitem, fun link h => hlinks.subset (hlink link h)⟩
    · exact ih (indexed_add h) hx

variable (S xs) in
/-- What comes onto the agenda are contributions, to their states. -/
theorem exists_pending_addAll_eq (h : l.chart.Indexed) :
    ∃ ds, (l.addAll S xs).pending = l.pending ++ ds ∧ ∀ d ∈ ds, ∃ x ∈ xs, ∃ id r,
      d = x.delta id ∧ (l.addAll S xs).chart.record? id = some r ∧
        r.state.item = x.state.item := by
  induction xs generalizing l with
  | nil => exact ⟨[], (List.append_nil _).symm, fun d hd => by simp at hd⟩
  | cons y ys ih =>
    obtain ⟨ds, heq, hds⟩ := exists_pending_add_eq (S := S) (x := y) h
    obtain ⟨ds', heq', hds'⟩ := ih (l := l.add S y) (indexed_add h)
    refine ⟨ds ++ ds', ?_, fun d hd => ?_⟩
    · rw [addAll_cons, heq', heq, List.append_assoc]
    · rcases List.mem_append.1 hd with hd | hd
      · obtain ⟨id, r, rfl, hr, hitem⟩ := hds d hd
        obtain ⟨r', hr', hstate, -⟩ := extends_addAll S ys (indexed_add h) id r hr
        exact ⟨y, List.mem_cons_self, id, r', rfl, hr', hstate ▸ hitem⟩
      · obtain ⟨x, hx, id, r, hrest⟩ := hds' d hd
        exact ⟨x, List.mem_cons_of_mem _ hx, id, r, hrest⟩

variable (xs) in
theorem pending_prefix_addAll (h : l.chart.Indexed) : l.pending <+: (l.addAll S xs).pending := by
  obtain ⟨ds, heq, -⟩ := exists_pending_addAll_eq S xs h
  exact ⟨ds, heq.symm⟩

/-- A state was there, or a contribution brought it and it is on the agenda. -/
theorem record?_addAll (h : l.chart.Indexed) (hr : (l.addAll S xs).chart.record? id = some r) :
    (∃ r', l.chart.record? id = some r' ∧ r.state = r'.state) ∨
      ((∃ x ∈ xs, r.state = x.state) ∧ ∃ d ∈ (l.addAll S xs).pending, d.id = id) := by
  induction xs generalizing l with
  | nil => exact .inl ⟨r, hr, rfl⟩
  | cons y ys ih =>
    rcases ih (indexed_add h) hr with ⟨r', hr', hstate⟩ | ⟨⟨x, hx, hstate⟩, hd⟩
    · rcases exists_pending_add h hr' with ⟨r'', hr''⟩ | ⟨d, hd, hid⟩
      · obtain ⟨r₃, hr₃, hstate₃, -⟩ := extends_add (S := S) (x := y) h id r'' hr''
        rw [hr'] at hr₃
        cases hr₃
        exact .inl ⟨r'', hr'', hstate.trans hstate₃⟩
      · rcases record?_add h hr' with ⟨hr'', -⟩ | ⟨r'', hr'', -, rfl⟩ | ⟨-, -, rfl⟩
        · exact .inl ⟨r', hr'', hstate⟩
        · exact .inl ⟨r'', hr'', hstate⟩
        · have hprefix := pending_prefix_addAll (S := S) ys (indexed_add (S := S) (x := y) h)
          exact .inr ⟨⟨y, List.mem_cons_self, hstate⟩, d, hprefix.subset hd, hid⟩
    · exact .inr ⟨⟨x, List.mem_cons_of_mem _ hx, hstate⟩, hd⟩

end AddAll

end Ledger

/-! ## The ledger of a sweep -/

namespace Sweep

variable {π α : Type} {S : ScoreAlgebra π α}

@[simp] theorem ledger_note (w : Sweep π α) (e : Event π α) : (w.note e).ledger = w.ledger := rfl

theorem ledger_add (w : Sweep π α) (x : Contribution π α) :
    (w.add S x.state x.forward x.inner x.link?).ledger = w.ledger.add S x := by
  simp only [ledger, chart_add, toList_agenda_add]
  rfl

end Sweep

end SemiringParsing
