import SemiringParsing.Chart.State

/-!
# Completed states

An index of completed states by the position where they end. At each position the states can be
asked for all together, without the unit productions, or by their left sides, and the error
rules among them are counted. A state counts once: of several equal states the first is kept.
-/

namespace SemiringParsing

/-- A set of states, each under what identifies it. -/
abbrev StateSet (π : Type) := Std.TreeMap Item (State π)

namespace StateSet

variable {π : Type}

/-- Adds a state, unless an equal one is there. -/
def add (set : StateSet π) (s : State π) : StateSet π :=
  set.insertIfNew s.item s

/-- The states of a set, in the order of what identifies them. -/
def states (set : StateSet π) : List (State π) :=
  set.values

end StateSet

/-- The completed states that end at one position. -/
structure CompletedAt (π : Type) where
  all : StateSet π := ∅
  nonUnit : StateSet π := ∅
  byLeft : Std.TreeMap Category (StateSet π) := ∅
  errorRules : Nat := 0

namespace CompletedAt

variable {π : Type}

/-- The completed states with a left side. -/
def forLeft (c : CompletedAt π) (left : Category) : StateSet π :=
  c.byLeft.getD left ∅

/-- Adds a completed state that is new. -/
def insert (c : CompletedAt π) (s : State π) : CompletedAt π where
  all := c.all.add s
  nonUnit := if s.rule.isUnit then c.nonUnit else c.nonUnit.add s
  byLeft := c.byLeft.insert s.rule.left ((c.forLeft s.rule.left).add s)
  errorRules := if s.rule.isErrorRule then c.errorRules + 1 else c.errorRules

end CompletedAt

/-- The completed states by the position where they end. -/
structure CompletedStates (π : Type) where
  positions : Std.TreeMap Nat (CompletedAt π) := ∅

namespace CompletedStates

variable {π : Type}

/-- The index without states. -/
def empty : CompletedStates π := {}

/-- What ends at a position. -/
def endingAt (c : CompletedStates π) (position : Nat) : CompletedAt π :=
  c.positions.getD position {}

/-- Records a state if it is completed and not yet recorded, and says whether it did. Positions have
no largest. Where they are machine words, a state that ends at the last of them has no place, and
recording it fails. -/
def add (c : CompletedStates π) (s : State π) : CompletedStates π × Bool :=
  let here := c.endingAt s.position
  if s.isCompleted && !here.all.contains s.item then
    (⟨c.positions.insert s.position (here.insert s)⟩, true)
  else (c, false)

/-- The completed states that end at a position. -/
def all (c : CompletedStates π) (position : Nat) : StateSet π :=
  (c.endingAt position).all

/-- The completed states at a position whose rule is not a unit production. -/
def nonUnit (c : CompletedStates π) (position : Nat) : StateSet π :=
  (c.endingAt position).nonUnit

/-- The completed states at a position with a left side. -/
def forLeft (c : CompletedStates π) (position : Nat) (left : Category) : StateSet π :=
  (c.endingAt position).forLeft left

/-- How many completed states at a position use an error rule. -/
def errorRules (c : CompletedStates π) (position : Nat) : Nat :=
  (c.endingAt position).errorRules

end CompletedStates

end SemiringParsing
