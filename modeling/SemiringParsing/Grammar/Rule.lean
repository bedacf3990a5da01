import SemiringParsing.Grammar.Category

/-!
# Rules

A production expands its left side to a list of categories. A rule is a production with a
probability. What a rule *is* lies in its production: two rules with the same production are
the same rule, whatever their probabilities say.
-/

namespace SemiringParsing

/-- A left side and what it expands to. -/
structure Production where
  left : Category
  right : List Category
  deriving DecidableEq, Repr

namespace Production

instance : Ord Production := ⟨compareLex (compareOn left) (compareOn right)⟩

instance : Std.TransOrd Production :=
  inferInstanceAs (Std.TransCmp (compareLex (compareOn left) (compareOn right)))

instance : Std.LawfulEqOrd Production where
  eq_of_compare {p q} h := by
    obtain ⟨hleft, hright⟩ := compareLex_eq_eq_iff.1 h
    replace hleft := compareOn_eq_eq_iff.1 hleft
    replace hright := compareOn_eq_eq_iff.1 hright
    cases p
    cases q
    simp_all

/-- The text of a production. -/
def text (p : Production) : String :=
  p.left.text ++ " ->" ++ String.join (p.right.map fun c => " " ++ c.text)

/-- The number of categories on the right side. -/
def length (p : Production) : Nat :=
  p.right.length

/-- Whether the right side is one category. -/
def isUnit (p : Production) : Bool :=
  p.length == 1

/-- Whether the production consumes input through the `error` category. -/
def isErrorRule (p : Production) : Bool :=
  p.right.contains .error

/-- The category at an index of the right side. -/
def categoryAt? (p : Production) (index : Nat) : Option Category :=
  p.right[index]?

end Production

/-- A production with its probability. -/
structure Rule (π : Type) extends Production where
  probability : π
  deriving Repr

/-- The implicit rule at the top of a grammar. -/
def Rule.top {π : Type} [One π] (start : String) : Rule π where
  left := .start
  right := [.nonterminal start]
  probability := 1

end SemiringParsing
