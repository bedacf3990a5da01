import SemiringParsing.Chart.Basic
import SemiringParsing.Grammar.LeftCorners
import SemiringParsing.Scan
import SemiringParsing.Sweep.Agenda
import SemiringParsing.Sweep.Event

/-!
# The sweep

A sweep goes over the input from left to right. At each position it closes the chart under two
steps, then scans the next token into the position behind.

* *Predict*: a state that expects a nonterminal adds the rules of all its left corners. Since
  these are closed already, a predicted state predicts nothing itself.
* *Complete*: a completed state moves the dot of the states that waited for its left side where
  it began.

Scores travel as deltas. When a state is reached again only the new contribution is passed on,
and only if it changed a stored score. On a cycle of unit productions the contributions shrink
until they change nothing more.
-/

namespace SemiringParsing

/-- A contribution to the scores of a state that has yet to be passed on. -/
structure Delta (α : Type) where
  id : StateId
  forward : α
  inner : α

/-- The chart so far, the contributions to pass on, and what has happened. -/
structure Sweep (π α : Type) where
  chart : Chart π α := .empty
  agenda : Agenda (Delta α) := .empty
  events : Array (Event π α) := #[]

namespace Sweep

variable {π α : Type}

/-- The sweep that has not begun. -/
def empty : Sweep π α := {}

/-- Notes an event. -/
def note (w : Sweep π α) (e : Event π α) : Sweep π α :=
  { w with events := w.events.push e }

/-- What is to be told of a state that was added to a chart: that it came in, or what its scores
are now. -/
def addEvents (known : Bool) (record : Record π α) : List (Event π α) :=
  let s := record.state
  if known then [.combined s record.forward record.inner]
  else
    (if s.isCompleted then [.indexed s] else []) ++ [.added s record.forward record.inner]

/-- Adds a derivation of a state, and puts its scores on the agenda if they changed something. -/
def add (S : ScoreAlgebra π α) (state : State π) (forward inner : α) (link? : Option Link)
    (w : Sweep π α) : Sweep π α :=
  let ⟨chart, agenda, events⟩ := w
  let known := (chart.id? state).isSome
  let ⟨chart, id, changed⟩ := chart.add S state forward inner link?
  let told := (chart.record? id).map (addEvents known)
  { chart := chart
    agenda := if changed then agenda.push ⟨id, forward, inner⟩ else agenda
    events := events.appendList (told.getD []) }

@[simp] theorem chart_note (w : Sweep π α) (e : Event π α) : (w.note e).chart = w.chart := rfl

@[simp] theorem agenda_note (w : Sweep π α) (e : Event π α) : (w.note e).agenda = w.agenda := rfl

@[simp] theorem chart_add (S : ScoreAlgebra π α) (w : Sweep π α) (s : State π)
    (forward inner : α) (link? : Option Link) :
    (w.add S s forward inner link?).chart = (w.chart.add S s forward inner link?).chart := rfl

theorem toList_agenda_add (S : ScoreAlgebra π α) (w : Sweep π α) (s : State π)
    (forward inner : α) (link? : Option Link) :
    (w.add S s forward inner link?).agenda.toList =
      w.agenda.toList ++
        if (w.chart.add S s forward inner link?).changed then
          [⟨(w.chart.add S s forward inner link?).id, forward, inner⟩]
        else [] := by
  simp only [add]
  split <;> simp

/-- Predicts a rule at a position. Its inner score is its probability, however often it is
predicted. -/
def predictRule (S : ScoreAlgebra π α) (position : Nat) (reach : α) (w : Sweep π α)
    (rule : Rule π) : Sweep π α :=
  let state := State.begin rule position
  let probability := S.ofProbability rule.probability
  let inner := if (w.chart.id? state).isSome then S.zero else probability
  (w.note (.predicted state)).add S state (S.times reach probability) inner none

/-- Predicts all rules of a left corner. -/
def predictCorner [Number π] (S : ScoreAlgebra π α) (G : Grammar π) (position : Nat)
    (forward : α) (w : Sweep π α) (corner : Category × α) : Sweep π α :=
  (G.rulesFor corner.1).foldl (predictRule S position (S.times forward corner.2)) w

/-- Predicts what can begin a category. -/
def predict [Number π] (S : ScoreAlgebra π α) (G : Grammar π) (corners : LeftCorners α)
    (position : Nat) (category : Category) (forward : α) (w : Sweep π α) : Sweep π α :=
  (corners.reachableFrom category).foldl (predictCorner S G position forward) w

/-- Moves the dot of a waiting state over a completed one. It is a fault when the number has no
record, or when what comes of the move is not a state. Nothing is done then, but no parse comes to a
fault (`Parser.Upholds.tryNext_eq_ok`). -/
def moveOver (S : ScoreAlgebra π α) (id : StateId) (completed : State π) (inner : α)
    (w : Sweep π α) (waiting : StateId) : Sweep π α :=
  match w.chart.record? waiting with
  | none => w
  | some r =>
    match r.state.advance completed.position with
    | .ok (some next) =>
      (w.note (.completed next completed)).add S next (S.times r.forward inner)
        (S.times r.inner inner) (some (.completed waiting id))
    | _ => w

/-- Passes a contribution to a completed state on to the states that waited for it. -/
def complete (S : ScoreAlgebra π α) (id : StateId) (completed : State π) (inner : α)
    (w : Sweep π α) : Sweep π α :=
  (w.chart.activeOn completed.origin completed.rule.left).foldl
    (moveOver S id completed inner) w

/-- Passes on a contribution. States that expect a terminal wait for the scan. It is a fault when
the number has no record. Nothing is done then, but no parse comes to a fault
(`Parser.Upholds.tryNext_eq_ok`). -/
def pass [Number π] (S : ScoreAlgebra π α) (G : Grammar π) (corners : LeftCorners α)
    (position : Nat) (d : Delta α) (w : Sweep π α) : Sweep π α :=
  match (w.chart.record? d.id).map Record.state with
  | none => w
  | some state =>
    match state.active? with
    | none => w.complete S d.id state d.inner
    | some (.nonterminal name) =>
      if state.isPredicted then w
      else w.predict S G corners position (.nonterminal name) d.forward
    | some _ => w

/-- Closes a position: passes on contributions until none is left, or gives up when as many as
`fuel` have been taken from the agenda and it has not been found empty. -/
def close [Number π] (S : ScoreAlgebra π α) (G : Grammar π) (corners : LeftCorners α)
    (position : Nat) : (fuel : Nat) → Sweep π α → Option (Sweep π α)
  | 0, _ => none
  | fuel + 1, w =>
    match w.agenda.pop? with
    | none => some w
    | some (d, agenda) =>
      close S G corners position fuel (pass S G corners position d { w with agenda := agenda })

/-- Whether a state expects a category that a token can be read as. It is a fault when the number
has no record. The answer is no then, but no parse comes to a fault
(`Parser.Upholds.tryNext_eq_ok`). -/
def expects {τ : Type} (c : Chart π α) (token : Token τ) (id : StateId) : Bool :=
  match (c.record? id).bind fun r => r.state.active? with
  | some category => token.isA category
  | none => false

/-- Moves the dot of a state over a token. It is a fault when the number has no record, or when what
comes of the move is not a state. Nothing is done then, but no parse comes to a fault
(`Parser.Upholds.tryNext_eq_ok`). -/
def scanState (S : ScoreAlgebra π α) (weight? : Option α) (next : Nat) (w : Sweep π α)
    (id : StateId) : Sweep π α :=
  match w.chart.record? id with
  | none => w
  | some r =>
    match Scan.scan S weight? next r.state r.forward r.inner with
    | .ok (some scanned) =>
      (w.note (.scanned r.state scanned.state)).add S scanned.state scanned.forward
        scanned.inner (some (.scanned id))
    | _ => w

/-- Scans a token at a position into the position behind it. -/
def scan {τ : Type} (S : ScoreAlgebra π α) (options : ParseOptions τ α) (position : Nat)
    (token : Token τ) (w : Sweep π α) : Sweep π α :=
  let scannable := (w.chart.statesAt position).filter (expects w.chart token)
  scannable.foldl (scanState S (options.weightOf? position token) (position + 1)) w

end Sweep

end SemiringParsing
