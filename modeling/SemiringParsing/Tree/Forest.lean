import SemiringParsing.Grammar.Category

/-!
# Ordered forests

A forest is a list of trees with categories at their nodes. It is given by its first node, the
forest below it and the forest beside it, so that all functions on it recurse on the data.
Nodes are numbered in preorder: a node comes before what is below it, and that before what is
beside it.
-/

namespace SemiringParsing

/-- A list of ordered trees: the first node with what is below and beside it. -/
inductive Forest
  | nil
  | cons (category : Category) (below beside : Forest)
  deriving DecidableEq, Repr

/-- A node in a forest, with the numbers of its parent and its children. -/
structure Node where
  id : Nat
  category : Category
  parent? : Option Nat
  children : List Nat
  deriving DecidableEq, Repr

namespace Forest

/-- The tree that is a single node. -/
def leaf (category : Category) : Forest :=
  cons category nil nil

/-- The trees of one forest behind those of another. -/
def append : Forest → Forest → Forest
  | nil, g => g
  | cons c below beside, g => cons c below (beside.append g)

instance : Append Forest := ⟨append⟩

/-- The number of nodes. -/
def size : Forest → Nat
  | nil => 0
  | cons _ below beside => below.size + beside.size + 1

/-- Whether there is no node. -/
def isEmpty : Forest → Bool
  | nil => true
  | cons .. => false

/-- The text of a forest: every node between brackets, its category before what is below. -/
def text : Forest → String
  | nil => ""
  | cons c below beside => "[" ++ c.text ++ below.text ++ "]" ++ beside.text

/-- The categories of the roots. -/
def roots : Forest → List Category
  | nil => []
  | cons c _ beside => c :: beside.roots

/-- The numbers of the roots when the first has the number `first`. -/
def rootIds (first : Nat) : Forest → List Nat
  | nil => []
  | cons _ below beside => first :: beside.rootIds (first + below.size + 1)

/-- The nodes in preorder, numbered from `first` on, when the roots have the given parent. -/
def nodes (first : Nat) (parent? : Option Nat) : Forest → List Node
  | nil => []
  | cons c below beside =>
    ⟨first, c, parent?, below.rootIds (first + 1)⟩ ::
      (below.nodes (first + 1) (some first) ++ beside.nodes (first + below.size + 1) parent?)

@[simp] theorem length_nodes (f : Forest) (first : Nat) (parent? : Option Nat) :
    (f.nodes first parent?).length = f.size := by
  induction f generalizing first parent? with
  | nil => rfl
  | cons c below beside ihBelow ihBeside => simp [nodes, size, ihBelow, ihBeside]

end Forest

end SemiringParsing
