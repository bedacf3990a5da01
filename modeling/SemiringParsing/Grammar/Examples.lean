import SemiringParsing.Grammar.Basic

/-!
# Small grammars

Grammars that show one thing each: a plain sentence, chains and cycles of unit productions, both
kinds of recursion, ambiguity, recovery from unexpected tokens, and ambiguous tokens. Each is
given by its definitions; the start symbol is the head of the first.
-/

namespace SemiringParsing.Examples

variable {π : Type} [Number π]

/-- A definition with its probability between head and body. -/
def weighted (head : String) (probability : π) (body : List Symbol) : Definition π :=
  ⟨head, probability, body⟩

/-- The sentence `the boy left`. -/
def sentence : List (Definition π) :=
  [.certain "S" [.nonterminal "NP", .nonterminal "VP"],
    .certain "NP" [.terminal "the", .terminal "boy"],
    .certain "VP" [.terminal "left"]]

/-- Only unit productions: `A` to `B` to `x`. -/
def unitChain : List (Definition π) :=
  [.certain "A" [.nonterminal "B"],
    .certain "B" [.terminal "x"]]

/-- A cycle of unit productions of weight one half. -/
def unitCycle : List (Definition π) :=
  [weighted "A" 0.5 [.nonterminal "B"],
    weighted "A" 0.5 [.terminal "x"],
    .certain "B" [.nonterminal "A"]]

/-- Recursion on the left with weight one. -/
def leftRecursive : List (Definition π) :=
  [.certain "E" [.nonterminal "E", .terminal "+", .terminal "n"],
    .certain "E" [.terminal "n"]]

/-- Recursion on the right. -/
def rightRecursive : List (Definition π) :=
  [weighted "E" 0.5 [.terminal "n", .nonterminal "E"],
    weighted "E" 0.5 [.terminal "n"]]

/-- Binary branching: three tokens or more can be read in several ways. -/
def ambiguous : List (Definition π) :=
  [weighted "S" 0.4 [.nonterminal "S", .nonterminal "S"],
    weighted "S" 0.6 [.terminal "a"]]

/-- A rule that accepts any token in place of `r`. -/
def errorRecovery : List (Definition π) :=
  [.certain "S" [.nonterminal "W", .nonterminal "R"],
    .certain "W" [.terminal "w"],
    weighted "R" 0.9 [.terminal "r"],
    weighted "R" 0.1 [.error]]

/-- Parts of speech, for tokens that may be noun and verb alike. -/
def tagged : List (Definition π) :=
  [.certain "S" [.nonterminal "NP", .nonterminal "VP"],
    weighted "NP" 0.7 [.terminal "N"],
    weighted "NP" 0.3 [.terminal "N", .terminal "N"],
    weighted "VP" 0.6 [.terminal "V"],
    weighted "VP" 0.4 [.terminal "V", .nonterminal "NP"]]

/-- The definitions of an example by its name, after their start symbol. -/
def named? : String → Option (String × List (Definition π))
  | "sentence" => some ("S", sentence)
  | "unit_chain" => some ("A", unitChain)
  | "unit_cycle" => some ("A", unitCycle)
  | "left_recursive" => some ("E", leftRecursive)
  | "right_recursive" => some ("E", rightRecursive)
  | "ambiguous" => some ("S", ambiguous)
  | "error_recovery" => some ("S", errorRecovery)
  | "tagged" => some ("S", tagged)
  | _ => none

end SemiringParsing.Examples
