/-!
# Declared properties of an algebra

A scoring algebra says about itself which laws its operations have, so that a caller can tell
whether the order of combination matters. `Properties` is the set of what it says.
-/

namespace SemiringParsing

/-- An algebraic property. -/
inductive Property
  | commutative
  | leftSemiring
  | rightSemiring
  | idempotent
  deriving DecidableEq, Repr

namespace Property

/-- All properties, in the order in which they are listed. -/
def all : List Property := [commutative, leftSemiring, rightSemiring, idempotent]

/-- The name of a property. -/
def name : Property → String
  | commutative => "Commutative"
  | leftSemiring => "LeftSemiring"
  | rightSemiring => "RightSemiring"
  | idempotent => "Idempotent"

end Property

/-- A set of properties: for each, whether it is declared. -/
structure Properties where
  commutative : Bool := false
  leftSemiring : Bool := false
  rightSemiring : Bool := false
  idempotent : Bool := false
  deriving DecidableEq, Repr

namespace Properties

/-- No property. -/
def empty : Properties := {}

/-- Declares one more property. -/
def insert (ps : Properties) : Property → Properties
  | .commutative => { ps with commutative := true }
  | .leftSemiring => { ps with leftSemiring := true }
  | .rightSemiring => { ps with rightSemiring := true }
  | .idempotent => { ps with idempotent := true }

/-- The properties of a list. -/
def ofList (ps : List Property) : Properties :=
  ps.foldl insert empty

/-- Whether a property is declared. -/
def contains (ps : Properties) : Property → Bool
  | .commutative => ps.commutative
  | .leftSemiring => ps.leftSemiring
  | .rightSemiring => ps.rightSemiring
  | .idempotent => ps.idempotent

/-- The declared properties in their fixed order. -/
def toList (ps : Properties) : List Property :=
  Property.all.filter ps.contains

/-- The names of the declared properties between braces. -/
def text (ps : Properties) : String :=
  "\x7b" ++ String.intercalate ", " (ps.toList.map Property.name) ++ "\x7d"

@[simp] theorem contains_insert (ps : Properties) (p q : Property) :
    (ps.insert p).contains q = (p == q || ps.contains q) := by
  cases p <;> cases q <;> simp [insert, contains]

@[simp] theorem mem_toList (ps : Properties) (p : Property) :
    p ∈ ps.toList ↔ ps.contains p = true := by
  cases p <;> simp [toList, Property.all]

end Properties

end SemiringParsing
