import SemiringParsing.Grammar.Category
import SemiringParsing.Names

/-!
# Tokens

A token of the input carries a value and the terminals it may stand for. It can stand for
several, and which of them it is depends on the parse.
-/

namespace SemiringParsing

/-- A value with the terminals it may stand for. They are kept in increasing order, so that equal
sets of terminals are equal. -/
structure Token (τ : Type) where
  value : τ
  terminals : List String
  increasing : terminals.Pairwise (· < ·)
  deriving DecidableEq

namespace Token

variable {τ : Type}

/-- A token that may stand for any of some terminals. -/
def tagged (value : τ) (terminals : List String) : Token τ where
  value := value
  terminals := Names.sorted terminals
  increasing := Names.pairwise_sorted terminals

/-- A word that stands for the terminal spelled like it. -/
def literal (word : String) : Token String :=
  tagged word [word]

/-- Whether a category can be read as this token. The `error` category can be read as any. -/
def isA (t : Token τ) : Category → Bool
  | .error => true
  | .terminal name => t.terminals.contains name
  | .start => false
  | .nonterminal _ => false

@[simp] theorem isA_tagged_terminal (value : τ) (terminals : List String) (name : String) :
    (tagged value terminals).isA (.terminal name) = terminals.contains name := by
  simp [tagged, isA]

end Token

end SemiringParsing
