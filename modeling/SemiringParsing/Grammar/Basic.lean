import SemiringParsing.Grammar.UnitCycle
import SemiringParsing.Names

/-!
# Grammars

A grammar is a start symbol and a list of definitions. Not every such pair is one: `Grammar`
carries the proof that `GrammarError.find?` finds nothing wrong with it, so a value of the type
is an accepted grammar. `Grammar.build` decides which it is.

The first fault is the one reported. Faults of single definitions come first, in their order;
then names that are used but never defined, the least of them; then cycles of unit productions.
-/

namespace SemiringParsing

/-- One production of a nonterminal, as it is given to a grammar. -/
structure Definition (π : Type) where
  head : String
  probability : π
  body : List Symbol
  deriving Repr

namespace Definition

variable {π : Type}

/-- A production that is always chosen. -/
def certain [One π] (head : String) (body : List Symbol) : Definition π where
  head := head
  probability := 1
  body := body

/-- The production of a definition. -/
def production (d : Definition π) : Production where
  left := .nonterminal d.head
  right := d.body.map Symbol.category

/-- The rule of a definition. -/
def rule (d : Definition π) : Rule π where
  toProduction := d.production
  probability := d.probability

end Definition

/-- What can be wrong with a grammar. -/
inductive GrammarError (π : Type)
  | emptyProduction (left : Category)
  | invalidProbability (rule : Production) (probability : π)
  | duplicateRule (rule : Production)
  | undefinedNonterminal (name : String)
  | unitCycle (name : String)
  deriving DecidableEq, Repr

namespace GrammarError

variable {π : Type} [Number π]

/-- The text of an error. -/
def message : GrammarError π → String
  | emptyProduction left => "rule for " ++ left.text ++ " has an empty right-hand side"
  | invalidProbability rule probability =>
    "rule \x60" ++ rule.text ++ "\x60 has invalid probability " ++ Number.text probability
  | duplicateRule rule => "rule \x60" ++ rule.text ++ "\x60 is defined more than once"
  | undefinedNonterminal name => "nonterminal " ++ name ++ " is used but has no rules"
  | unitCycle name => "unit productions through " ++ name ++ " cycle with weight >= 1"

/-- Whether a number can be a probability. -/
def isProbability (p : π) : Bool :=
  !Number.isNaN p && !Number.lt p 0 && !Number.lt 1 p

/-- The first fault of a single rule, after some productions were seen. -/
def inRules? (seen : List Production) : List (Rule π) → Option (GrammarError π)
  | [] => none
  | r :: rs =>
    if r.right.isEmpty then some (emptyProduction r.left)
    else if !isProbability r.probability then
      some (invalidProbability r.toProduction r.probability)
    else if r.toProduction ∈ seen then some (duplicateRule r.toProduction)
    else inRules? (r.toProduction :: seen) rs

/-- The nonterminals that a grammar uses: the start symbol and those on right sides. -/
def used (start : String) (rules : List (Rule π)) : List String :=
  Names.sorted (start :: rules.flatMap fun r => r.right.filterMap Category.nonterminal?)

/-- The nonterminals that a grammar defines. -/
def defined (rules : List (Rule π)) : List String :=
  Names.sorted (rules.filterMap fun r => r.left.nonterminal?)

/-- The fault that is reported, if there is one. -/
def find? (start : String) (rules : List (Rule π)) : Option (GrammarError π) :=
  match inRules? [] rules with
  | some e => some e
  | none =>
    match (used start rules).find? fun name => !(defined rules).contains name with
    | some name => some (undefinedNonterminal name)
    | none => (UnitCycle.divergent? (defined rules) rules).map unitCycle

end GrammarError

/-- The rules of a grammar by their left sides. -/
abbrev RuleIndex (π : Type) := Std.TreeMap Category (List (Rule π))

namespace RuleIndex

variable {π : Type}

/-- Puts a rule before the other rules of its left side. -/
def add (r : Rule π) (index : RuleIndex π) : RuleIndex π :=
  index.insert r.left (r :: index.getD r.left [])

/-- The index of a list of rules. -/
def ofRules (rules : List (Rule π)) : RuleIndex π :=
  rules.foldr add ∅

theorem getD_ofRules (rules : List (Rule π)) (left : Category) :
    (ofRules rules).getD left [] = rules.filter fun r => r.left == left := by
  induction rules with
  | nil => simp [ofRules]
  | cons r rs ih =>
    rw [ofRules, List.foldr_cons, ← ofRules, add, Std.TreeMap.getD_insert, List.filter_cons]
    by_cases h : r.left = left
    · simp [h, ih]
    · simp [h, ih]

end RuleIndex

/-- An accepted grammar: a start symbol and definitions without a fault. -/
structure Grammar (π : Type) [Number π] where
  start : String
  definitions : List (Definition π)
  accepted : GrammarError.find? start (definitions.map Definition.rule) = none
  /-- The rules by left side, the implicit rule among them. -/
  index : RuleIndex π
  index_eq : index = RuleIndex.ofRules (Rule.top start :: definitions.map Definition.rule)

namespace Grammar

variable {π : Type} [Number π]

/-- The grammar of a start symbol and some definitions, or what is wrong with it. -/
def build (start : String) (definitions : List (Definition π)) :
    Except (GrammarError π) (Grammar π) :=
  match h : GrammarError.find? start (definitions.map Definition.rule) with
  | some e => .error e
  | none => .ok ⟨start, definitions, h, _, rfl⟩

/-- The implicit rule from the top to the start symbol. -/
def topRule (G : Grammar π) : Rule π :=
  .top G.start

/-- The rules in the order of their definitions, without the implicit one. -/
def rules (G : Grammar π) : List (Rule π) :=
  G.definitions.map Definition.rule

/-- The rules of a left side in the order of their definitions. -/
def rulesFor (G : Grammar π) (left : Category) : List (Rule π) :=
  G.index.getD left []

/-- The nonterminals that have rules, in increasing order. -/
def nonterminals (G : Grammar π) : List String :=
  GrammarError.defined G.rules

theorem rulesFor_eq_filter (G : Grammar π) (left : Category) :
    G.rulesFor left = (G.topRule :: G.rules).filter fun r => r.left == left := by
  rw [rulesFor, G.index_eq, RuleIndex.getD_ofRules]
  rfl

end Grammar

end SemiringParsing
