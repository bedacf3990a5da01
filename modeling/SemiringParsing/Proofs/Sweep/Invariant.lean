import SemiringParsing.Proofs.Sweep.Moments
import SemiringParsing.Proofs.Sweep.Online

/-!
# The invariant of a parse

While a position is closed, states are added that end there, and while a token is scanned, states
that end behind it. This is the frontier of a `Moment`. `Parser.Upholds` says what holds at every
moment: the states of the chart end no later than the frontier and span at least one token for each
category before their dots, what is on the agenda is for states that end at the frontier, and the
task at hand goes over states of positions before it.

A step adds what fits in at the frontier, or nothing (`Upholds.exists_addAll`). So it keeps the
invariant (`Upholds.next`), and what a chart holds of the positions before the frontier stays as it
was when they were closed (`Upholds.isUpTo_of_closed`). The frontier goes on only from a position
that has been closed (`exists_closed`).
-/

namespace SemiringParsing

variable {π α τ : Type}

/-! ## States that span enough -/

/-- Moving the dot of a state to a later position leaves no less than a token for each category
before the dot. -/
theorem State.dot_le_of_advance {s t : State π} {next : Nat}
    (h : s.advance next = .ok (some t)) (hdot : s.dot ≤ s.position - s.origin)
    (hlt : s.position < next) : t.dot ≤ t.position - t.origin := by
  obtain ⟨-, hposition, horigin, hdot'⟩ := State.advance_eq_some_iff.1 h
  have := s.origin_le
  omega

namespace Ledger

variable {S : ScoreAlgebra π α} {l : Ledger π α} {xs : List (Contribution π α)} {position : Nat}

theorem statesAt_addAll_of_ne (hxs : ∀ x ∈ xs, x.state.position ≠ position) :
    (l.addAll S xs).chart.statesAt position = l.chart.statesAt position :=
  addAll_induction (motive := fun l' => l'.chart.statesAt position = l.chart.statesAt position) rfl
    fun _ x hx h => (statesAt_add_of_ne (hxs x hx)).trans h

theorem activeOn_addAll_of_ne (hxs : ∀ x ∈ xs, x.state.position ≠ position)
    (category : Category) :
    (l.addAll S xs).chart.activeOn position category = l.chart.activeOn position category :=
  addAll_induction (motive := fun l' =>
    l'.chart.activeOn position category = l.chart.activeOn position category) rfl
    fun _ x hx h => (activeOn_add_of_ne (hxs x hx) category).trans h

end Ledger

namespace Parser

variable [Number π] {p : Parser π α} {options : ParseOptions τ α} {tokens : List (Token τ)}
  {position next : Nat} {c : Chart π α} {l : Ledger π α} {x : Contribution π α}

/-- A contribution that may come in while states are added at a position. -/
structure Fits (p : Parser π α) (position : Nat) (x : Contribution π α) : Prop where
  admits : p.grammar.Admits x.state
  dot_le : x.state.dot ≤ x.state.position - x.state.origin
  position_eq : x.state.position = position

/-- A consistent ledger in which every state spans at least one token for each category before its
dot. -/
structure Spanned (p : Parser π α) (position : Nat) (l : Ledger π α) : Prop
    extends p.Consistent position l where
  dot_le : ∀ id r, l.chart.record? id = some r → r.state.dot ≤ r.state.position - r.state.origin

theorem fits_seed (p : Parser π α) : p.Fits 0 p.seed where
  admits := .begin_topRule
  dot_le := Nat.zero_le _
  position_eq := rfl

theorem fits_prediction {y : α × Rule π} (hrule : y.2 ∈ p.grammar.rules) :
    p.Fits position (c.prediction p.algebra position y) where
  admits := .begin_of_mem hrule position
  dot_le := Nat.zero_le _
  position_eq := rfl

namespace Spanned

theorem empty (p : Parser π α) (position : Nat) : p.Spanned position .empty where
  toConsistent := .empty p position
  dot_le id r hr := by simp at hr

theorem add (h : p.Spanned position l) (hx : p.Fits position x) :
    p.Spanned position (l.add p.algebra x) where
  toConsistent := h.toConsistent.add hx.admits hx.position_eq
  dot_le id r hr := by
    rcases Ledger.record?_add h.indexed hr with ⟨hr, -⟩ | ⟨r', hr', -, rfl⟩ | ⟨-, -, rfl⟩
    · exact h.dot_le id r hr
    · exact h.dot_le id r' hr'
    · exact hx.dot_le

theorem addAll {ds : List (Delta α)} {xs : List (Contribution π α)} (h : p.Spanned position l)
    (hds : ds <:+ l.pending) (hxs : ∀ x ∈ xs, p.Fits position x) :
    p.Spanned position (Ledger.addAll p.algebra ⟨l.chart, ds⟩ xs) := by
  have hsuffix : p.Spanned position ⟨l.chart, ds⟩ := ⟨h.toConsistent.of_suffix hds, h.dot_le⟩
  exact Ledger.addAll_induction hsuffix fun l x hx hl => hl.add (hxs x hx)

/-- What is taken from the agenda is for a state of the chart. -/
theorem exists_popped {w : Sweep π α} {d : Delta α} {agenda : Agenda (Delta α)}
    (h : p.Spanned position w.ledger) (hpop : w.agenda.pop? = some (d, agenda)) :
    ∃ r, w.chart.record? d.id = some r ∧ r.state.position = position := by
  refine h.pending d ?_
  rw [Sweep.ledger, Agenda.pop?_eq_some hpop]
  exact List.mem_cons_self

/-- What the move of a dot contributes fits in. -/
theorem fits_of_moved {compose : α → α} {link : StateId → Link} {id : StateId}
    (h : p.Spanned position l) (hx : l.chart.moved next compose link id = some x)
    (hid : ∃ r, l.chart.record? id = some r ∧ r.state.position < next) : p.Fits next x := by
  obtain ⟨r, s, hr, hs, rfl⟩ := Chart.moved_eq_some.1 hx
  obtain ⟨r', hr', hlt⟩ := hid
  obtain rfl := Option.some.inj (hr.symm.trans hr')
  exact {
    admits := (h.admits id r hr).advance hs (Nat.lt_of_le_of_lt r.state.origin_le hlt)
    dot_le := State.dot_le_of_advance hs (h.dot_le id r hr) hlt
    position_eq := (State.advance_eq_some_iff.1 hs).2.1 }

end Spanned

end Parser

/-! ## Moments -/

/-- The position where states are added: the one that is being closed or, while a token is scanned,
the one behind it. -/
def Moment.frontier : Moment π α → Nat
  | ⟨k, .scan _ _, _⟩ => k + 1
  | ⟨k, _, _⟩ => k

namespace Parser

variable [Number π] {p : Parser π α} {options : ParseOptions τ α} {tokens : List (Token τ)}
  {m m' : Moment π α}

/-- What the task at hand relies on. -/
def Prepared (p : Parser π α) : Moment π α → Prop
  | ⟨k, .begin, _⟩ => k = 0
  | ⟨_, .pass, _⟩ => True
  | ⟨_, .predict xs, _⟩ => ∀ x ∈ xs, x.2 ∈ p.grammar.rules
  | ⟨k, .complete _ s _ is, w⟩ => s.position = k ∧ s.origin < k ∧
      is <:+ (w.chart.activeOn s.origin s.rule.left).toList
  | ⟨_, .closed, w⟩ => w.agenda.toList = []
  | ⟨k, .scan _ is, w⟩ => ∀ i ∈ is, i ∈ w.chart.statesAt k

/-- The invariant of a parse. -/
structure Upholds (p : Parser π α) (m : Moment π α) : Prop where
  spanned : p.Spanned m.frontier m.sweep.ledger
  prepared : p.Prepared m

namespace Upholds

theorem first (p : Parser π α) : p.Upholds .first where
  spanned := .empty p 0
  prepared := rfl

/-- A state that waits for a completed one ends before it. -/
theorem exists_waiting {k : Nat} {id : StateId} {s : State π} {inner : α} {i : StateId}
    {is : List StateId} {w : Sweep π α} (h : p.Upholds ⟨k, .complete id s inner (i :: is), w⟩) :
    ∃ r, w.chart.record? i = some r ∧ r.state.position < s.position := by
  obtain ⟨hspanned, rfl, hlt, hsuffix⟩ := h
  obtain ⟨r, hr, hposition, -⟩ := hspanned.indexed.mem_activeOn.1
    (Array.mem_toList_iff.1 (hsuffix.subset List.mem_cons_self))
  exact ⟨r, hr, Nat.lt_of_le_of_lt (Nat.le_of_eq hposition) hlt⟩

/-- A state that a token moves the dot of ends before the token. -/
theorem exists_scannable {k : Nat} {weight? : Option α} {i : StateId} {is : List StateId}
    {w : Sweep π α} (h : p.Upholds ⟨k, .scan weight? (i :: is), w⟩) :
    ∃ r, w.chart.record? i = some r ∧ r.state.position < k + 1 := by
  obtain ⟨r, hr, hposition⟩ :=
    h.spanned.indexed.mem_statesAt.1 (h.prepared i List.mem_cons_self)
  exact ⟨r, hr, Nat.lt_succ_of_le (Nat.le_of_eq hposition)⟩

/-- **What a step does to the ledger.** It adds what fits in where states are being added, takes a
contribution from the agenda, or leaves the ledger as it is. -/
theorem exists_addAll (h : p.Upholds m) (hnext : p.next options tokens m = some m') :
    ∃ ds xs, ds <:+ m.sweep.ledger.pending ∧ (∀ x ∈ xs, p.Fits m.frontier x) ∧
      m'.sweep.ledger = Ledger.addAll p.algebra ⟨m.sweep.chart, ds⟩ xs := by
  have hsame : m'.sweep.ledger = m.sweep.ledger → ∃ ds xs, ds <:+ m.sweep.ledger.pending ∧
      (∀ x ∈ xs, p.Fits m.frontier x) ∧
        m'.sweep.ledger = Ledger.addAll p.algebra ⟨m.sweep.chart, ds⟩ xs :=
    fun heq => ⟨_, [], List.suffix_refl _, fun x hx => by simp at hx, heq⟩
  obtain ⟨k, task, w⟩ := m
  cases task with
  | begin =>
    cases hnext
    cases h.prepared
    refine ⟨_, [p.seed], List.suffix_refl _, fun x hx => ?_, Sweep.ledger_add w p.seed⟩
    rw [List.mem_singleton.1 hx]
    exact fits_seed p
  | pass =>
    rw [next] at hnext
    split at hnext
    · next d agenda hpop =>
      cases hnext
      refine ⟨agenda.toList, [], ⟨[d], ?_⟩, fun x hx => by simp at hx, rfl⟩
      exact (Agenda.pop?_eq_some hpop).symm
    · cases hnext
      exact hsame rfl
  | predict ys =>
    cases ys with
    | nil =>
      cases hnext
      exact hsame rfl
    | cons y ys =>
      cases hnext
      refine ⟨_, [w.chart.prediction p.algebra k y], List.suffix_refl _, fun x hx => ?_,
        Sweep.ledger_predictRule w k y⟩
      rw [List.mem_singleton.1 hx]
      exact fits_prediction (h.prepared y List.mem_cons_self)
  | complete id s inner is =>
    cases is with
    | nil =>
      cases hnext
      exact hsame rfl
    | cons i is =>
      cases hnext
      refine ⟨_, (w.chart.completion p.algebra id s inner i).toList, List.suffix_refl _,
        fun x hx => ?_, Sweep.ledger_moveOver ..⟩
      have hfits := h.spanned.fits_of_moved (Option.mem_toList.1 hx) h.exists_waiting
      rwa [h.prepared.1] at hfits
  | closed =>
    obtain ⟨token, -, rfl⟩ := Option.map_eq_some_iff.1 hnext
    exact hsame rfl
  | scan weight? is =>
    cases is with
    | nil =>
      cases hnext
      exact hsame rfl
    | cons i is =>
      cases hnext
      refine ⟨_, (w.chart.reading p.algebra weight? (k + 1) i).toList, List.suffix_refl _,
        fun x hx => ?_, Sweep.ledger_scanState ..⟩
      exact h.spanned.fits_of_moved (Option.mem_toList.1 hx) h.exists_scannable

/-- Lists of states that end elsewhere than where states are being added stay as they are. -/
theorem lists_eq (h : p.Upholds m) (hnext : p.next options tokens m = some m') {k : Nat}
    (hk : k ≠ m.frontier) : m'.sweep.chart.statesAt k = m.sweep.chart.statesAt k ∧
      ∀ category, m'.sweep.chart.activeOn k category = m.sweep.chart.activeOn k category := by
  obtain ⟨ds, xs, -, hfits, heq⟩ := h.exists_addAll hnext
  have hxs : ∀ x ∈ xs, x.state.position ≠ k := fun x hx hposition =>
    hk (hposition.symm.trans (hfits x hx).position_eq)
  have hchart : m'.sweep.chart = (Ledger.addAll p.algebra ⟨m.sweep.chart, ds⟩ xs).chart :=
    congrArg Ledger.chart heq
  rw [hchart]
  exact ⟨Ledger.statesAt_addAll_of_ne hxs, Ledger.activeOn_addAll_of_ne hxs⟩

/-- What is taken from the agenda makes a task that is prepared. -/
theorem prepared_taskOf {k : Nat} {w : Sweep π α} {d : Delta α} {agenda : Agenda (Delta α)}
    (h : p.Spanned k w.ledger) (hpop : w.agenda.pop? = some (d, agenda)) :
    p.Prepared ⟨k, p.taskOf w.chart d, { w with agenda := agenda }⟩ := by
  obtain ⟨r, hr, hposition⟩ := h.exists_popped hpop
  simp only [taskOf, hr, taskFor]
  cases hactive : r.state.active? with
  | none =>
    have hlt := (h.admits _ r hr).origin_lt_position_of_isCompleted
      (State.active?_eq_none_iff.1 hactive)
    exact ⟨hposition, hposition ▸ hlt, List.suffix_refl _⟩
  | some category =>
    cases category with
    | nonterminal name =>
      dsimp only
      split
      · trivial
      · intro x hx
        obtain ⟨corner, hcorner, hrule, -⟩ := LeftCorners.mem_openings.1 hx
        exact mem_rules_of_mem_reachableFrom hcorner hrule
    | start => trivial
    | error => trivial
    | terminal name => trivial

theorem prepared_of_next (h : p.Upholds m) (hnext : p.next options tokens m = some m') :
    p.Prepared m' := by
  have hlists := fun k => h.lists_eq (k := k) hnext
  obtain ⟨hspanned, hprepared⟩ := h
  obtain ⟨k, task, w⟩ := m
  cases task with
  | begin =>
    cases hnext
    trivial
  | pass =>
    rw [next] at hnext
    split at hnext
    · next d agenda hpop =>
      cases hnext
      exact prepared_taskOf hspanned hpop
    · next hpop =>
      cases hnext
      exact Agenda.pop?_eq_none.1 hpop
  | predict ys =>
    cases ys with
    | nil =>
      cases hnext
      trivial
    | cons y ys =>
      cases hnext
      exact fun x hx => hprepared x (List.mem_cons_of_mem _ hx)
  | complete id s inner is =>
    cases is with
    | nil =>
      cases hnext
      trivial
    | cons i is =>
      cases hnext
      obtain ⟨hposition, hlt, hsuffix⟩ := hprepared
      refine ⟨hposition, hlt, ?_⟩
      rw [(hlists s.origin (Nat.ne_of_lt hlt)).2]
      exact (List.suffix_cons i is).trans hsuffix
  | closed =>
    obtain ⟨token, -, rfl⟩ := Option.map_eq_some_iff.1 hnext
    intro i hi
    exact (Array.mem_filter.1 (Array.mem_toList_iff.1 hi)).1
  | scan weight? is =>
    cases is with
    | nil =>
      cases hnext
      trivial
    | cons i is =>
      cases hnext
      intro j hj
      rw [(hlists k (Nat.ne_of_lt (Nat.lt_succ_self k))).1]
      exact hprepared j (List.mem_cons_of_mem _ hj)

end Upholds

theorem frontier_taskOf (k : Nat) (c : Chart π α) (d : Delta α) (w : Sweep π α) :
    (⟨k, p.taskOf c d, w⟩ : Moment π α).frontier = k := by
  unfold taskOf taskFor
  split
  · rfl
  · split
    · rfl
    · split <;> rfl
    · rfl

/-- States are added where they were before, until the position is closed. -/
theorem frontier_of_next (hnext : p.next options tokens m = some m') :
    m.task ≠ .closed ∧ m'.frontier = m.frontier ∨
      m.task = .closed ∧ m.frontier = m.position ∧ m'.frontier = m.position + 1 ∧
        m'.sweep = m.sweep := by
  obtain ⟨k, task, w⟩ := m
  cases task with
  | begin =>
    cases hnext
    exact .inl ⟨by simp, rfl⟩
  | pass =>
    rw [next] at hnext
    split at hnext
    · cases hnext
      exact .inl ⟨by simp, frontier_taskOf ..⟩
    · cases hnext
      exact .inl ⟨by simp, rfl⟩
  | predict ys => cases ys <;> cases hnext <;> exact .inl ⟨by simp, rfl⟩
  | complete id s inner is => cases is <;> cases hnext <;> exact .inl ⟨by simp, rfl⟩
  | closed =>
    obtain ⟨token, -, rfl⟩ := Option.map_eq_some_iff.1 hnext
    exact .inr ⟨rfl, rfl, rfl, rfl⟩
  | scan weight? is => cases is <;> cases hnext <;> exact .inl ⟨by simp, rfl⟩

theorem Upholds.pending_eq_nil (h : p.Upholds m) (htask : m.task = .closed) :
    m.sweep.ledger.pending = [] := by
  obtain ⟨k, task, w⟩ := m
  cases htask
  exact h.prepared

/-- Every step keeps the invariant. -/
theorem Upholds.next (h : p.Upholds m) (hnext : p.next options tokens m = some m') :
    p.Upholds m' where
  prepared := h.prepared_of_next hnext
  spanned := by
    rcases frontier_of_next hnext with ⟨-, hfrontier⟩ | ⟨htask, hfrontier, hbehind, hsweep⟩
    · obtain ⟨ds, xs, hds, hfits, heq⟩ := h.exists_addAll hnext
      rw [hfrontier, heq]
      exact h.spanned.addAll hds hfits
    · rw [hbehind, hsweep]
      refine ⟨h.spanned.toConsistent.later (h.pending_eq_nil htask) ?_, h.spanned.dot_le⟩
      omega

/-- So it holds of all moments of a parse. -/
theorem upholds_of_reaches (h : StateTransition.Reaches (p.next options tokens) .first m) :
    p.Upholds m := by
  induction h with
  | refl => exact .first p
  | tail _ hnext ih => exact ih.next hnext

/-! ## Closed positions -/

/-- What a chart holds up to a position before those where states are being added stays. -/
theorem Upholds.isUpTo {c : Chart π α} {k : Nat} (h : p.Upholds m) (hk : k < m.frontier)
    (hc : c.IsUpTo k m.sweep.chart)
    (hreaches : StateTransition.Reaches (p.next options tokens) m m') :
    c.IsUpTo k m'.sweep.chart := by
  suffices p.Upholds m' ∧ k < m'.frontier ∧ c.IsUpTo k m'.sweep.chart from this.2.2
  induction hreaches with
  | refl => exact ⟨h, hk, hc⟩
  | @tail m₁ m₂ _ hnext ih =>
    obtain ⟨h₁, hlt, hc⟩ := ih
    obtain ⟨ds, xs, -, hfits, heq⟩ := h₁.exists_addAll hnext
    refine ⟨h₁.next hnext, ?_, ?_⟩
    · rcases frontier_of_next hnext with ⟨-, hfrontier⟩ | ⟨-, hfrontier, hbehind, -⟩ <;> omega
    · rw [show m₂.sweep.chart = _ from congrArg Ledger.chart heq]
      refine hc.addAll (l := ⟨m₁.sweep.chart, ds⟩) h₁.spanned.indexed fun x hx => ?_
      rw [(hfits x hx).position_eq]
      exact hlt

/-- What a chart holds when a position is closed stays up to there. -/
theorem Upholds.isUpTo_of_closed (h : p.Upholds m) (htask : m.task = .closed)
    (hreaches : StateTransition.Reaches (p.next options tokens) m m') :
    m.sweep.chart.IsUpTo m.position m'.sweep.chart := by
  have hfrontier : m.frontier = m.position := by
    obtain ⟨k, task, w⟩ := m
    cases htask
    rfl
  have hrefl : m.sweep.chart.IsUpTo m.position m.sweep.chart :=
    .refl (hfrontier ▸ h.spanned.position_le)
  rcases hreaches.cases_head with rfl | ⟨m₁, hnext, hreaches⟩
  · exact hrefl
  · rcases frontier_of_next hnext with ⟨hne, -⟩ | ⟨-, -, hbehind, hsweep⟩
    · exact absurd htask hne
    · rw [← hsweep] at hrefl
      refine (h.next hnext).isUpTo ?_ (hsweep ▸ hrefl) hreaches
      omega

/-- Every position before those where states are being added has been closed. -/
theorem exists_closed {k : Nat} (h : StateTransition.Reaches (p.next options tokens) .first m)
    (hk : k < m.frontier) :
    ∃ b, StateTransition.Reaches (p.next options tokens) .first b ∧
      StateTransition.Reaches (p.next options tokens) b m ∧ b.position = k ∧ b.task = .closed := by
  induction h with
  | refl => exact absurd hk (Nat.not_lt_zero k)
  | @tail m₁ m₂ hreaches hnext ih =>
    have hcases : k < m₁.frontier ∨ k = m₁.position ∧ m₁.task = .closed := by
      rcases frontier_of_next hnext with ⟨-, hfrontier⟩ | ⟨htask, hfrontier, hbehind, -⟩
      · exact .inl (hfrontier ▸ hk)
      · rw [hbehind] at hk
        rw [hfrontier]
        exact (Nat.lt_succ_iff_lt_or_eq.1 hk).imp_right fun heq => ⟨heq, htask⟩
    rcases hcases with hlt | ⟨rfl, htask⟩
    · obtain ⟨b, hb, hbm, hclosed⟩ := ih hlt
      exact ⟨b, hb, hbm.tail hnext, hclosed⟩
    · exact ⟨m₁, hreaches, .single hnext, rfl, htask⟩

end Parser

end SemiringParsing
