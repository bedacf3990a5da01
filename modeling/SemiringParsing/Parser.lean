import SemiringParsing.Sweep.Basic
import SemiringParsing.Tree.Build

/-!
# Parsing

A parser is a grammar with an algebra. It sweeps over a list of tokens, and the finished chart
answers whether the start symbol derives them, with what score, and by which tree.

A sweep need not end: on branching cycles of unit productions the contributions may go on
changing scores. So parsing takes a bound on the contributions that are passed on at one
position, and has no result when the bound is reached. A larger bound never changes a result.
-/

namespace SemiringParsing

/-- A grammar with an algebra, and the left corners of the one scored in the other. -/
structure Parser (π α : Type) [Number π] where
  grammar : Grammar π
  algebra : ScoreAlgebra π α
  corners : LeftCorners α
  corners_eq : corners = LeftCorners.ofGrammar algebra grammar

/-- What a parse comes to. -/
structure ParseResult (π α : Type) where
  algebra : ScoreAlgebra π α
  chart : Chart π α
  /-- The state that derives the whole input from the start symbol. -/
  root? : Option StateId
  inputLength : Nat
  events : Array (Event π α)

namespace Parser

variable {π α τ : Type} [Number π]

/-- The parser of a grammar in an algebra. -/
def new (grammar : Grammar π) (algebra : ScoreAlgebra π α) : Parser π α :=
  ⟨grammar, algebra, _, rfl⟩

/-- The sweep with nothing in it but the top rule at the beginning of the input. -/
def begin (p : Parser π α) : Sweep π α :=
  Sweep.empty.add p.algebra (.begin p.grammar.topRule 0) p.algebra.one p.algebra.one none

/-- Notes what a position holds. -/
def summarize (position : Nat) (w : Sweep π α) : Sweep π α :=
  w.note (.closed position (w.chart.statesAt position).size
    (w.chart.completed.all position).size (w.chart.completed.errorRules position))

/-- Closes a position. -/
def close (p : Parser π α) (fuel position : Nat) (w : Sweep π α) : Option (Sweep π α) :=
  (w.close p.algebra p.grammar p.corners position fuel).map (summarize position)

/-- Sweeps over the tokens from a position on. -/
def sweep (p : Parser π α) (options : ParseOptions τ α) (fuel : Nat) :
    (position : Nat) → List (Token τ) → Sweep π α → Option (Sweep π α)
  | position, [], w => p.close fuel position w
  | position, token :: tokens, w =>
    match p.close fuel position w with
    | none => none
    | some w => p.sweep options fuel (position + 1) tokens (w.scan p.algebra options position token)

/-- The state that derives an input of some length from the start symbol. -/
def goal (p : Parser π α) (length : Nat) : State π where
  rule := p.grammar.topRule
  position := length
  origin := 0
  dot := 1
  dot_le := Nat.le_refl _
  origin_le := Nat.zero_le _

/-- The result that a finished sweep gives. -/
def result (p : Parser π α) (length : Nat) (w : Sweep π α) : ParseResult π α :=
  let root? := w.chart.id? (p.goal length)
  let w := if root?.isSome then w else w.note (.noParse length)
  { algebra := p.algebra
    chart := w.chart
    root? := root?
    inputLength := length
    events := w.events }

/-- Parses a list of tokens, passing on fewer than `fuel` contributions at each position. -/
def parse (p : Parser π α) (options : ParseOptions τ α) (fuel : Nat) (tokens : List (Token τ)) :
    Option (ParseResult π α) :=
  (p.sweep options fuel 0 tokens p.begin).map (p.result tokens.length)

end Parser

namespace ParseResult

variable {π α : Type}

/-- Whether the start symbol derives the input. -/
def isSuccess (r : ParseResult π α) : Bool :=
  r.root?.isSome

/-- The score of all derivations of the input together, or zero if there is none. The root that a
parse finds has a record (`Chart.Indexed`), so there is none only without a root. -/
def score (r : ParseResult π α) : α :=
  match r.root?.bind r.chart.record? with
  | some record => record.inner
  | none => r.algebra.zero

/-- The score as a probability. -/
def probability (r : ParseResult π α) : π :=
  r.algebra.toProbability r.score

/-- How many error rules were completed over the whole input. -/
def errorRules (r : ParseResult π α) : Nat :=
  (List.range (r.inputLength + 1)).foldl
    (fun total position => total + r.chart.completed.errorRules position) 0

/-- The derivation tree of the input. -/
def tree (r : ParseResult π α) : Except (TreeFailure π) ParseTree :=
  match r.root? with
  | none => .error (.error .noParse)
  | some root => r.chart.tree root

/-- What happened in the parse and in building the tree. -/
def treeEvents (r : ParseResult π α) : Array (Event π α) :=
  match r.tree, (r.root?.bind r.chart.record?).map Record.state with
  | .ok t, some state => r.events.push (.built t.size state)
  | _, _ => r.events

/-- The text of an error with the parse it arose in. -/
def failureMessage (r : ParseResult π α) (e : TreeError π) : String :=
  "While parsing " ++ toString r.inputLength ++ " tokens: " ++ e.message

end ParseResult

end SemiringParsing
