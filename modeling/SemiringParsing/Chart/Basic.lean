import SemiringParsing.Algebra.Basic
import SemiringParsing.Buckets
import SemiringParsing.Chart.Completed
import SemiringParsing.OutOfBounds

/-!
# The chart

A chart keeps a record for each state that was reached: its scores and the links it was reached
through. Records are numbered in the order in which their states came, and nothing is removed.
A state that is reached again is not stored again; its scores are combined with the new ones,
and a new link is added behind the old.
-/

namespace SemiringParsing

/-- The number of a record in its chart. -/
abbrev StateId := Nat

/-- One way in which a state was reached: the state whose dot was moved and, unless a token moved
it, the completed state that did. -/
structure Link where
  predecessor : StateId
  completed? : Option StateId
  deriving DecidableEq, Repr

namespace Link

/-- A token moved the dot. -/
def scanned (predecessor : StateId) : Link :=
  ⟨predecessor, none⟩

/-- A completed state moved the dot. -/
def completed (predecessor completed : StateId) : Link :=
  ⟨predecessor, some completed⟩

end Link

/-- What a chart keeps for a state. The forward score is that of all ways to derive the input up
to the state, the inner score that of the part between its origin and its position. Links are
in the order in which they were first found. -/
structure Record (π α : Type) where
  state : State π
  forward : α
  inner : α
  links : List Link

namespace Record

variable {π α : Type}

/-- Adds a link, unless it is there. -/
def addLink (link? : Option Link) (links : List Link) : List Link :=
  match link? with
  | none => links
  | some link => if link ∈ links then links else links ++ [link]

/-- Combines another derivation of the same state with the record. -/
def combine (S : ScoreAlgebra π α) (forward inner : α) (link? : Option Link)
    (r : Record π α) : Record π α where
  state := r.state
  forward := S.plus r.forward forward
  inner := S.plus r.inner inner
  links := addLink link? r.links

/-- Whether two records have the same scores. -/
def sameScores (S : ScoreAlgebra π α) (r r' : Record π α) : Bool :=
  S.same r.forward r'.forward && S.same r.inner r'.inner

end Record

/-- A category that is expected at a position. -/
structure Expectation where
  position : Nat
  category : Category
  deriving DecidableEq, Repr

namespace Expectation

instance : Ord Expectation := ⟨compareLex (compareOn position) (compareOn category)⟩

instance : Std.TransOrd Expectation :=
  inferInstanceAs (Std.TransCmp (compareLex (compareOn position) (compareOn category)))

instance : Std.LawfulEqOrd Expectation where
  eq_of_compare {e f} h := by
    obtain ⟨hposition, hcategory⟩ := compareLex_eq_eq_iff.1 h
    replace hposition := compareOn_eq_eq_iff.1 hposition
    replace hcategory := compareOn_eq_eq_iff.1 hcategory
    cases e
    cases f
    simp_all

end Expectation

/-- The records of the states reached so far, with indexes on them. -/
structure Chart (π α : Type) where
  records : Array (Record π α) := #[]
  ids : Std.TreeMap Item StateId := ∅
  byPosition : Buckets Nat := ∅
  byActive : Buckets Expectation := ∅
  completed : CompletedStates π := .empty
  /-- One past the last position that holds a state. -/
  positions : Nat := 0

namespace Chart

variable {π α : Type}

/-- The chart without states. -/
def empty : Chart π α := {}

/-- The number of states. -/
def size (c : Chart π α) : Nat :=
  c.records.size

/-- The number of a state, if it was reached. -/
def id? (c : Chart π α) (s : State π) : Option StateId :=
  c.ids[s.item]?

/-- The record with a number. -/
def record? (c : Chart π α) (id : StateId) : Option (Record π α) :=
  c.records[id]?

/-- The record with a number that is to be one of the chart. -/
def record (c : Chart π α) (id : StateId) : Except OutOfBounds (Record π α) :=
  lookUp c.records id

/-- The link that says that a state was reached from others. They have to be in the chart. -/
def link (c : Chart π α) (predecessor : StateId) (completed? : Option StateId) :
    Except OutOfBounds Link :=
  match c.record predecessor, completed?.mapM c.record with
  | .error e, _ => .error e
  | .ok _, .error e => .error e
  | .ok _, .ok _ => .ok ⟨predecessor, completed?⟩

/-- The numbers of the states that end at a position, in increasing order. -/
def statesAt (c : Chart π α) (position : Nat) : Array StateId :=
  c.byPosition.bucket position

/-- The numbers of the states that end at a position and expect a category, in increasing
order. -/
def activeOn (c : Chart π α) (position : Nat) (category : Category) : Array StateId :=
  c.byActive.bucket ⟨position, category⟩

/-- The numbers of the completed states that end at a position and have a left side. -/
def completedIds (c : Chart π α) (position : Nat) (left : Category) : List StateId :=
  (c.completed.forLeft position left).states.filterMap c.id?

/-- Stores a state that was not reached before. Positions have no largest, so that there is always
one past that of the state. Where positions are machine words, there is none past the last word, and
storing a state there fails. -/
def insert (c : Chart π α) (s : State π) (forward inner : α) (link? : Option Link) :
    Chart π α :=
  let id := c.size
  { records := c.records.push ⟨s, forward, inner, Record.addLink link? []⟩
    ids := c.ids.insert s.item id
    byPosition := c.byPosition.add s.position id
    byActive := match s.active? with
      | some category => c.byActive.add ⟨s.position, category⟩ id
      | none => c.byActive
    completed := (c.completed.add s).1
    positions := max c.positions (s.position + 1) }

/-- Combines another derivation with the record of a state. -/
def combine (S : ScoreAlgebra π α) (c : Chart π α) (id : StateId) (forward inner : α)
    (link? : Option Link) : Chart π α :=
  { c with records := c.records.modify id (Record.combine S forward inner link?) }

/-- What adding a derivation of a state comes to. -/
structure Addition (π α : Type) where
  chart : Chart π α
  id : StateId
  /-- Whether the state is new or one of its scores changed. -/
  changed : Bool

/-- Adds a derivation of a state with its scores and, if the state was reached from others, the
link to them. The number of a known state has a record in every chart that comes of additions
(`Chart.Indexed`). -/
def add (S : ScoreAlgebra π α) (c : Chart π α) (s : State π) (forward inner : α)
    (link? : Option Link) : Addition π α :=
  match c.id? s with
  | some id =>
    let changed := (c.record? id).any fun r =>
      !r.sameScores S (r.combine S forward inner link?)
    ⟨c.combine S id forward inner link?, id, changed⟩
  | none =>
    let id := c.size
    ⟨c.insert s forward inner link?, id, true⟩

/-! ## What the operations do to the views -/

section Views

variable (S : ScoreAlgebra π α) (c : Chart π α) (s t : State π) (forward inner : α)
  (link? : Option Link) (id other : StateId)

@[simp] theorem size_insert : (c.insert s forward inner link?).size = c.size + 1 := by
  simp [insert, size]

@[simp] theorem size_combine : (c.combine S id forward inner link?).size = c.size := by
  simp [combine, size]

theorem record_eq_ok {r : Record π α} : c.record id = .ok r ↔ c.record? id = some r :=
  lookUp_eq_ok

theorem record?_insert :
    (c.insert s forward inner link?).record? id =
      if id = c.size then some ⟨s, forward, inner, Record.addLink link? []⟩ else c.record? id :=
  Array.getElem?_push

theorem record?_combine :
    (c.combine S id forward inner link?).record? other =
      if id = other then (c.record? other).map (Record.combine S forward inner link?)
      else c.record? other :=
  Array.getElem?_modify

theorem id?_insert :
    (c.insert s forward inner link?).id? t = if s.item = t.item then some c.size else c.id? t := by
  simp [insert, id?, Std.TreeMap.getElem?_insert]

@[simp] theorem id?_combine : (c.combine S id forward inner link?).id? t = c.id? t := rfl

theorem statesAt_insert (position : Nat) :
    (c.insert s forward inner link?).statesAt position =
      if s.position = position then (c.statesAt position).push c.size
      else c.statesAt position :=
  Buckets.bucket_add ..

@[simp] theorem statesAt_combine (position : Nat) :
    (c.combine S id forward inner link?).statesAt position = c.statesAt position := rfl

theorem activeOn_insert (position : Nat) (category : Category) :
    (c.insert s forward inner link?).activeOn position category =
      if s.position = position ∧ s.active? = some category then
        (c.activeOn position category).push c.size
      else c.activeOn position category := by
  cases h : s.active? with
  | none => simp [insert, activeOn, h]
  | some expected => simp [insert, activeOn, h, Buckets.bucket_add]

@[simp] theorem activeOn_combine (position : Nat) (category : Category) :
    (c.combine S id forward inner link?).activeOn position category =
      c.activeOn position category := rfl

end Views

end Chart

end SemiringParsing
