import SemiringParsing.Proofs.Number.Exact
import SemiringParsing.Proofs.Sweep.Invariant

/-!
# Parses do not go wrong

A step of a parse looks up records by their numbers and makes states from numbers. Both could
fail: a number may be out of bounds, and a dot or an origin out of place. `Parser.tryNext` is the
step that comes to a `Fault` where it fails, while `Parser.next` goes on without what is missing.

At every moment of a parse both are the same (`Parser.Upholds.tryNext_eq_ok`), because the agenda
and the lists that a step goes over name states of the chart, and these lists belong to positions
that are closed.
-/

namespace SemiringParsing

variable {π α τ : Type}

/-! ## Steps that can fail -/

/-- Why a step would have to stop: a number that no record or position has, or parts that are not
those of a state. -/
inductive Fault
  | index (e : OutOfBounds)
  | state (e : StateError)
  deriving DecidableEq, Repr

namespace Chart

/-- Looks up a record. -/
def find (c : Chart π α) (id : StateId) : Except Fault (Record π α) :=
  (c.record id).mapError .index

/-- Looks up where a derivation of a state goes: to the record of the state or, when the state is
new, under its position, for which there is room by then. -/
def locate (c : Chart π α) (s : State π) : Except Fault Unit :=
  match c.id? s with
  | some id => (c.find id).map fun _ => ()
  | none =>
    let positions := max c.positions (s.position + 1)
    if s.position < positions then .ok () else .error (.index ⟨s.position, positions⟩)

/-- Looks up states and keeps those that expect a category that a token can be read as. -/
def expecting (c : Chart π α) (token : Token τ) : List StateId → Except Fault (List StateId)
  | [] => .ok []
  | id :: ids => do
    let r ← c.find id
    let kept ← c.expecting token ids
    .ok (if r.state.active?.any token.isA then id :: kept else kept)

end Chart

namespace Sweep

variable (S : ScoreAlgebra π α)

/-- Adds a derivation of a state where it goes. -/
def tryAdd (s : State π) (forward inner : α) (link? : Option Link) (w : Sweep π α) :
    Except Fault (Sweep π α) :=
  (w.chart.locate s).map fun _ => w.add S s forward inner link?

/-- Makes the state that expects all of a rule, and predicts it. -/
def tryPredictRule (position : Nat) (reach : α) (w : Sweep π α) (rule : Rule π) :
    Except Fault (Sweep π α) := do
  let s ← (State.create rule position position 0).mapError .state
  let probability := S.ofProbability rule.probability
  let inner := if (w.chart.id? s).isSome then S.zero else probability
  (w.note (.predicted s)).tryAdd S s (S.times reach probability) inner none

/-- Looks up a waiting state and moves its dot over a completed one. -/
def tryMoveOver (id : StateId) (completed : State π) (inner : α) (w : Sweep π α)
    (waiting : StateId) : Except Fault (Sweep π α) := do
  let r ← w.chart.find waiting
  match ← (r.state.advance completed.position).mapError .state with
  | none => .ok w
  | some next =>
    (w.note (.completed next completed)).tryAdd S next (S.times r.forward inner)
      (S.times r.inner inner) (some (.completed waiting id))

/-- Looks up a state and moves its dot over a token. -/
def tryScanState (weight? : Option α) (next : Nat) (w : Sweep π α) (id : StateId) :
    Except Fault (Sweep π α) := do
  let r ← w.chart.find id
  match ← (Scan.scan S weight? next r.state r.forward r.inner).mapError .state with
  | none => .ok w
  | some scanned =>
    (w.note (.scanned r.state scanned.state)).tryAdd S scanned.state scanned.forward
      scanned.inner (some (.scanned id))

end Sweep

namespace Parser

variable [Number π]

/-- The next moment, unless something that is looked up is missing or something that is made is not
a state. At the end the state is made that is to span the whole input. -/
def tryNext (p : Parser π α) (options : ParseOptions τ α) (tokens : List (Token τ)) :
    Moment π α → Except Fault (Option (Moment π α))
  | ⟨k, .begin, w⟩ => do
    let s ← (State.create p.grammar.topRule 0 0 0).mapError .state
    let w ← w.tryAdd p.algebra s p.algebra.one p.algebra.one none
    .ok (some ⟨k, .pass, w⟩)
  | ⟨k, .pass, w⟩ =>
    match w.agenda.pop? with
    | none => .ok (some ⟨k, .closed, summarize k w⟩)
    | some (d, agenda) => do
      let r ← w.chart.find d.id
      .ok (some ⟨k, p.taskFor w.chart d r.state, { w with agenda := agenda }⟩)
  | ⟨k, .predict [], w⟩ => .ok (some ⟨k, .pass, w⟩)
  | ⟨k, .predict (x :: xs), w⟩ => do
    let w ← w.tryPredictRule p.algebra k x.1 x.2
    .ok (some ⟨k, .predict xs, w⟩)
  | ⟨k, .complete _ _ _ [], w⟩ => .ok (some ⟨k, .pass, w⟩)
  | ⟨k, .complete id s inner (i :: is), w⟩ => do
    let w ← w.tryMoveOver p.algebra id s inner i
    .ok (some ⟨k, .complete id s inner is, w⟩)
  | ⟨k, .closed, w⟩ =>
    match tokens[k]? with
    | none => do
      let _ ← (State.create p.grammar.topRule tokens.length 0 1).mapError .state
      .ok none
    | some token => do
      let is ← w.chart.expecting token (w.chart.statesAt k).toList
      .ok (some ⟨k, .scan (options.weightOf? k token) is, w⟩)
  | ⟨k, .scan _ [], w⟩ => .ok (some ⟨k + 1, .pass, w⟩)
  | ⟨k, .scan weight? (i :: is), w⟩ => do
    let w ← w.tryScanState p.algebra weight? (k + 1) i
    .ok (some ⟨k, .scan weight? is, w⟩)

end Parser

/-! ## What succeeds -/

namespace State

theorem create_begin (rule : Rule π) (position : Nat) :
    State.create rule position position 0 = .ok (.begin rule position) := by
  simp [State.create, State.begin]

theorem exists_advance_eq_ok {s : State π} {next : Nat} (hle : s.position ≤ next) :
    ∃ t?, s.advance next = .ok t? := by
  cases hactive : s.active? with
  | none => exact ⟨none, if_pos (State.active?_eq_none_iff.1 hactive)⟩
  | some category =>
    obtain ⟨t, ht⟩ := State.exists_advance hactive hle
    exact ⟨some t, ht⟩

end State

namespace Chart

variable {c : Chart π α} {id : StateId} {r : Record π α}

theorem find_eq_ok (hr : c.record? id = some r) : c.find id = .ok r := by
  rw [find, (c.record_eq_ok id).2 hr]
  rfl

theorem locate_eq_ok (h : c.Indexed) (s : State π) : c.locate s = .ok () := by
  unfold locate
  split
  · next id hid =>
    obtain ⟨r, hr, -⟩ := h.id?_eq_some.1 hid
    rw [find_eq_ok hr]
    rfl
  · exact if_pos (Nat.le_max_right ..)

theorem expecting_eq_ok {token : Token τ} {ids : List StateId}
    (h : ∀ id ∈ ids, ∃ r, c.record? id = some r) :
    c.expecting token ids = .ok (ids.filter (Sweep.expects c token)) := by
  induction ids with
  | nil => rfl
  | cons id ids ih =>
    obtain ⟨r, hr⟩ := h id List.mem_cons_self
    have hexpects : Sweep.expects c token id = r.state.active?.any token.isA := by
      rw [Sweep.expects, hr, Option.bind_some]
      cases r.state.active? <;> rfl
    rw [expecting, find_eq_ok hr, ih fun id hid => h id (List.mem_cons_of_mem _ hid),
      List.filter_cons, hexpects]
    rfl

end Chart

namespace Sweep

variable {S : ScoreAlgebra π α} {w : Sweep π α}

theorem tryAdd_eq_ok (h : w.chart.Indexed) (s : State π) (forward inner : α)
    (link? : Option Link) :
    w.tryAdd S s forward inner link? = .ok (w.add S s forward inner link?) := by
  rw [tryAdd, Chart.locate_eq_ok h]
  rfl

theorem tryPredictRule_eq_ok (h : w.chart.Indexed) (position : Nat) (reach : α) (rule : Rule π) :
    w.tryPredictRule S position reach rule = .ok (w.predictRule S position reach rule) := by
  rw [tryPredictRule, State.create_begin]
  exact tryAdd_eq_ok (w := w.note _) h ..

theorem tryMoveOver_eq_ok (h : w.chart.Indexed) {waiting : StateId} {r : Record π α}
    (hr : w.chart.record? waiting = some r) {completed : State π}
    (hle : r.state.position ≤ completed.position) (id : StateId) (inner : α) :
    w.tryMoveOver S id completed inner waiting = .ok (w.moveOver S id completed inner waiting) := by
  obtain ⟨t?, ht⟩ := State.exists_advance_eq_ok hle
  unfold tryMoveOver moveOver
  rw [Chart.find_eq_ok hr, hr]
  simp only [bind, Except.bind, ht, Except.mapError]
  cases t? with
  | none => rfl
  | some t => exact tryAdd_eq_ok (w := w.note _) h ..

theorem tryScanState_eq_ok (h : w.chart.Indexed) {id : StateId} {r : Record π α}
    (hr : w.chart.record? id = some r) {next : Nat} (hle : r.state.position ≤ next)
    (weight? : Option α) :
    w.tryScanState S weight? next id = .ok (w.scanState S weight? next id) := by
  obtain ⟨t?, ht⟩ := State.exists_advance_eq_ok hle
  unfold tryScanState scanState
  rw [Chart.find_eq_ok hr, hr]
  simp only [bind, Except.bind, Scan.scan, ht, Except.map, Except.mapError]
  cases t? with
  | none => rfl
  | some t => exact tryAdd_eq_ok (w := w.note _) h ..

end Sweep

/-! ## Nothing is missing -/

namespace Parser

variable [Number π] {p : Parser π α} {options : ParseOptions τ α} {tokens : List (Token τ)}
  {m : Moment π α}

theorem create_goal (p : Parser π α) (length : Nat) :
    State.create p.grammar.topRule length 0 1 = .ok (p.goal length) :=
  rfl

/-- Whatever a step looks up is there, and what it makes are states. -/
theorem Upholds.tryNext_eq_ok (h : p.Upholds m) (options : ParseOptions τ α)
    (tokens : List (Token τ)) :
    p.tryNext options tokens m = .ok (p.next options tokens m) := by
  have hindexed : m.sweep.chart.Indexed := h.spanned.indexed
  obtain ⟨k, task, w⟩ := m
  cases task with
  | begin =>
    rw [tryNext, State.create_begin]
    simp only [bind, Except.bind, Except.mapError, Sweep.tryAdd_eq_ok hindexed]
    rfl
  | pass =>
    rw [tryNext, Parser.next]
    split
    · next hpop => rw [hpop]
    · next d agenda hpop =>
      obtain ⟨r, hr, -⟩ := h.spanned.exists_popped hpop
      rw [hpop, Chart.find_eq_ok hr]
      simp only [bind, Except.bind, taskOf, hr]
  | predict ys =>
    cases ys with
    | nil => rfl
    | cons y ys =>
      rw [tryNext, Sweep.tryPredictRule_eq_ok hindexed]
      rfl
  | complete id s inner is =>
    cases is with
    | nil => rfl
    | cons i is =>
      obtain ⟨r, hr, hlt⟩ := h.exists_waiting
      rw [tryNext, Sweep.tryMoveOver_eq_ok hindexed hr (Nat.le_of_lt hlt)]
      rfl
  | closed =>
    rw [tryNext, Parser.next]
    cases htoken : tokens[k]? with
    | none =>
      rw [create_goal]
      rfl
    | some token =>
      have hfound : ∀ id ∈ (w.chart.statesAt k).toList, ∃ r, w.chart.record? id = some r :=
        fun id hid => (hindexed.mem_statesAt.1 (Array.mem_toList_iff.1 hid)).imp fun _ hr => hr.1
      simp only [bind, Except.bind, Chart.expecting_eq_ok hfound, Option.map_some,
        Array.toList_filter]
  | scan weight? is =>
    cases is with
    | nil => rfl
    | cons i is =>
      obtain ⟨r, hr, hlt⟩ := h.exists_scannable
      rw [tryNext, Sweep.tryScanState_eq_ok hindexed hr (Nat.le_of_lt hlt)]
      rfl

/-! ## Every moment is safe -/

/-- What a parse can rely on at a moment. -/
structure Safe (p : Parser π α) (options : ParseOptions τ α) (tokens : List (Token τ))
    (m : Moment π α) : Prop where
  /-- A state spans at least one token for each category before its dot. -/
  dot_le : ∀ id r, m.sweep.chart.record? id = some r →
    r.state.dot ≤ r.state.position - r.state.origin
  /-- The dot is in front exactly when nothing has been matched. -/
  dot_eq_zero_iff : ∀ id r, m.sweep.chart.record? id = some r →
    (r.state.dot = 0 ↔ r.state.origin = r.state.position)
  /-- A completed state has matched something. -/
  origin_lt : ∀ id r, m.sweep.chart.record? id = some r → r.state.isCompleted = true →
    r.state.origin < r.state.position
  /-- No state ends behind the frontier. -/
  position_le : ∀ id r, m.sweep.chart.record? id = some r → r.state.position ≤ m.frontier
  /-- What is on the agenda is for states of the chart that end at the frontier. -/
  pending : ∀ d ∈ m.sweep.agenda.toList, ∃ r, m.sweep.chart.record? d.id = some r ∧
    r.state.position = m.frontier
  /-- The states whose dots are moved over a completed one are those that the chart lists for a
  position before the one that is being closed, as far as they are left. -/
  waiting : ∀ id s inner is, m.task = .complete id s inner is → s.origin < m.position ∧
    is <:+ (m.sweep.chart.activeOn s.origin s.rule.left).toList
  /-- Each position before the frontier has been closed, with nothing left to pass on. Since then
  the chart is the same up to there, and it stays so. -/
  settled : ∀ k < m.frontier, ∃ b, b.position = k ∧ b.task = .closed ∧
    b.sweep.agenda.toList = [] ∧ StateTransition.Reaches (p.next options tokens) .first b ∧
      StateTransition.Reaches (p.next options tokens) b m ∧
        ∀ m', StateTransition.Reaches (p.next options tokens) b m' →
          b.sweep.chart.IsUpTo k m'.sweep.chart
  /-- The next step does not fail: whatever it looks up is there, and what it makes are states. -/
  tryNext_eq_ok : p.tryNext options tokens m = .ok (p.next options tokens m)

theorem Upholds.waiting (h : p.Upholds m) {id : StateId} {s : State π} {inner : α}
    {is : List StateId} (htask : m.task = .complete id s inner is) :
    s.origin < m.position ∧ is <:+ (m.sweep.chart.activeOn s.origin s.rule.left).toList := by
  obtain ⟨k, task, w⟩ := m
  cases htask
  exact h.prepared.2

/-- **Parses do not go wrong.** A parse is traced by its moments, whether it returns or not, and at
every one of them it is safe. -/
theorem safe_of_moments (p : Parser π α) (options : ParseOptions τ α) (tokens : List (Token τ)) :
    p.Traced options tokens ∧ ∀ m, StateTransition.Reaches (p.next options tokens) .first m →
      p.Safe options tokens m := by
  refine ⟨p.traced options tokens, fun m hm => ?_⟩
  have h := upholds_of_reaches hm
  exact {
    dot_le := h.spanned.dot_le
    dot_eq_zero_iff := fun id r hr => (h.spanned.admits id r hr).dot_eq_zero_iff
    origin_lt := fun id r hr => (h.spanned.admits id r hr).origin_lt_position_of_isCompleted
    position_le := h.spanned.position_le
    pending := h.spanned.pending
    waiting := fun id s inner is => h.waiting
    settled := fun k hk => by
      obtain ⟨b, hb, hbm, rfl, htask⟩ := exists_closed hm hk
      have hb' := upholds_of_reaches hb
      exact ⟨b, rfl, htask, hb'.pending_eq_nil htask, hb, hbm, fun m' => hb'.isUpTo_of_closed htask⟩
    tryNext_eq_ok := h.tryNext_eq_ok options tokens }

/-- In the middle of completing with the ambiguous grammar: one of two dots has been moved and is
on the agenda, the other waits at a position that is closed. -/
theorem safe_of_moments_ambiguous : ∃ m id s inner i,
    StateTransition.Reaches ((Parser.new Examples.ambiguousGrammar
        (.probability : ScoreAlgebra Exact Exact)).next {}
        [Token.literal "a", Token.literal "a", Token.literal "a"]) .first m ∧
      m.task = .complete id s inner [i] ∧ s.origin = 1 ∧ m.position = 2 ∧
      m.sweep.agenda.toList.length = 1 ∧
      (Parser.new Examples.ambiguousGrammar .probability).Safe {}
        [Token.literal "a", Token.literal "a", Token.literal "a"] m := by
  have hmoment : ((Parser.new Examples.ambiguousGrammar
      (.probability : ScoreAlgebra Exact Exact)).moment? {}
      [Token.literal "a", Token.literal "a", Token.literal "a"] 29).any (fun m =>
        match m.task with
        | .complete _ s _ is => decide (is.length = 1 ∧ s.origin = 1 ∧ m.position = 2 ∧
            m.sweep.agenda.toList.length = 1)
        | _ => false) = true := by
    decide +kernel
  obtain ⟨m, hm, htask⟩ := (Option.any_eq_true _ _).1 hmoment
  have hreaches := reaches_of_moment? hm
  split at htask
  · next id s inner is heq =>
    obtain ⟨hlength, horigin, hposition, hagenda⟩ := of_decide_eq_true htask
    obtain ⟨i, rfl⟩ := List.length_eq_one_iff.1 hlength
    exact ⟨m, id, s, inner, i, hreaches, heq, horigin, hposition, hagenda,
      (safe_of_moments _ _ _).2 m hreaches⟩
  · simp at htask

end Parser

end SemiringParsing
