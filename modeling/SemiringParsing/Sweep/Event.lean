import SemiringParsing.Chart.State

/-!
# Events of a parse

What happens in a parse, one event for each thing that can be followed in its trace. Events
that concern single states are traces; those that sum up a position or the parse are for
debugging.
-/

namespace SemiringParsing

/-- How closely one has to look to see an event. -/
inductive EventLevel
  | debug
  | trace
  deriving DecidableEq, Repr

namespace EventLevel

/-- The text of a level. -/
def text : EventLevel → String
  | debug => "DEBUG"
  | trace => "TRACE"

end EventLevel

/-- Something that happens in a parse. -/
inductive Event (π α : Type)
  /-- A completed state came into the index of completed states. -/
  | indexed (state : State π)
  /-- A state came into the chart. -/
  | added (state : State π) (forward inner : α)
  /-- A state was reached again, and has these scores now. -/
  | combined (state : State π) (forward inner : α)
  /-- A state was predicted. -/
  | predicted (state : State π)
  /-- A completed state moved the dot of another, which became `state`. -/
  | completed (state cause : State π)
  /-- A token moved the dot of a state. -/
  | scanned (state into : State π)
  /-- A position is closed. -/
  | closed (position states done errorRules : Nat)
  /-- No state spans the whole input. -/
  | noParse (inputLength : Nat)
  /-- A tree was built for a state. -/
  | built (nodes : Nat) (state : State π)

namespace Event

variable {π α : Type}

/-- The level of an event. -/
def level : Event π α → EventLevel
  | closed .. => .debug
  | noParse _ => .debug
  | _ => .trace

/-- Two scores as they stand in a text. -/
def scoresText (number : α → String) (forward inner : α) : String :=
  "forward " ++ number forward ++ " inner " ++ number inner

/-- The text of an event, with a way to write scores. -/
def text (number : α → String) : Event π α → String
  | indexed state => "Indexed completed state " ++ state.text ++ "."
  | added state forward inner =>
    "Added " ++ state.text ++ " with " ++ scoresText number forward inner ++ "."
  | combined state forward inner =>
    "Combined " ++ state.text ++ " to " ++ scoresText number forward inner ++ "."
  | predicted state => "Predicted " ++ state.text ++ "."
  | completed state cause => "Completed " ++ state.text ++ " with " ++ cause.text ++ "."
  | scanned state into => "Scanned " ++ state.text ++ " into " ++ into.text ++ "."
  | closed position states done errorRules =>
    "Position " ++ toString position ++ ": " ++ toString states ++ " states, " ++
      toString done ++ " completed, " ++ toString errorRules ++ " error rule completions."
  | noParse inputLength =>
    "No parse spans the " ++ toString inputLength ++ " input tokens."
  | built nodes state =>
    "Built a tree of " ++ toString nodes ++ " nodes from " ++ state.text ++ "."

/-- An event as a line of a log. -/
def line (number : α → String) (e : Event π α) : String :=
  e.level.text ++ " " ++ e.text number

end Event

end SemiringParsing
