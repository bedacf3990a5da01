import SemiringParsing.FieldOrder

/-!
# Categories

The symbols of grammars. `start` heads the implicit rule at the top of every grammar and does
not occur in derivation trees; `error` is a terminal that every token matches. A `Symbol` is a
category that may stand in the body of a rule: any but `start`.
-/

namespace SemiringParsing

/-- A grammar symbol, or the top of all derivations. -/
inductive Category
  | start
  | error
  | terminal (name : String)
  | nonterminal (name : String)
  deriving DecidableEq, Hashable, Repr

namespace Category

/-- The text of a category: its name, or a bracketed word for the two without a name. -/
def text : Category → String
  | start => "<start>"
  | error => "<error>"
  | terminal name => name
  | nonterminal name => name

/-- The category with its kind spelled out. -/
def describe : Category → String
  | start => "Start"
  | error => "Error"
  | terminal name => "Term(Terminal(" ++ name ++ "))"
  | nonterminal name => "NonTerm(NonTerminal(" ++ name ++ "))"

/-- The name of a nonterminal. -/
def nonterminal? : Category → Option String
  | nonterminal name => some name
  | _ => none

/-- The kinds in their order. -/
def rank : Category → Nat
  | start => 0
  | error => 1
  | terminal _ => 2
  | nonterminal _ => 3

/-- Categories are ordered by kind, and those of a kind by name. -/
instance : Ord Category := ⟨compareLex (compareOn rank) (compareOn text)⟩

instance : Std.TransOrd Category :=
  inferInstanceAs (Std.TransCmp (compareLex (compareOn rank) (compareOn text)))

instance : Std.LawfulEqOrd Category where
  eq_of_compare {a b} h := by
    obtain ⟨hrank, htext⟩ := compareLex_eq_eq_iff.1 h
    replace hrank := compareOn_eq_eq_iff.1 hrank
    replace htext := compareOn_eq_eq_iff.1 htext
    cases a <;> cases b <;> simp_all [rank, text]

@[simp] theorem nonterminal?_eq_some {c : Category} {name : String} :
    c.nonterminal? = some name ↔ c = nonterminal name := by
  cases c <;> simp [nonterminal?]

end Category

/-- A category that may stand in the body of a rule. -/
inductive Symbol
  | error
  | terminal (name : String)
  | nonterminal (name : String)
  deriving DecidableEq, Repr

namespace Symbol

/-- The category of a symbol. -/
def category : Symbol → Category
  | error => .error
  | terminal name => .terminal name
  | nonterminal name => .nonterminal name

/-- The symbol of a category, unless it is `start`. -/
def ofCategory? : Category → Option Symbol
  | .start => none
  | .error => some error
  | .terminal name => some (terminal name)
  | .nonterminal name => some (nonterminal name)

theorem ofCategory?_eq_some {c : Category} {s : Symbol} :
    ofCategory? c = some s ↔ s.category = c := by
  cases c <;> cases s <;> simp [ofCategory?, category, eq_comm]

@[simp] theorem category_ne_start (s : Symbol) : s.category ≠ .start := by
  cases s <;> simp [category]

end Symbol

end SemiringParsing
