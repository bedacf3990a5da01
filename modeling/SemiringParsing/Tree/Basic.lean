import SemiringParsing.Tree.Forest

/-!
# Parse trees

A parse tree is a forest with a first tree. Almost always that is all of it; a derivation of the
implicit top rule over several categories leaves more trees beside the first.

A `Subtree` is the view of a node with what is below it and the category above it. Two subtrees
are equal when all three are the same; where in a tree they stand, and what else the tree
holds, does not matter.
-/

namespace SemiringParsing

/-- A node of a tree as a tree of its own, with the category of its parent. -/
structure Subtree where
  id : Nat
  parent? : Option Category
  category : Category
  below : Forest
  deriving Repr

namespace Forest

/-- The subtrees at all nodes in preorder, numbered from `first` on, when the roots have a parent
of the given category. -/
def subtrees (first : Nat) (parent? : Option Category) : Forest → List Subtree
  | nil => []
  | cons c below beside =>
    ⟨first, parent?, c, below⟩ ::
      (below.subtrees (first + 1) (some c) ++ beside.subtrees (first + below.size + 1) parent?)

/-- The subtrees at the roots. -/
def rootSubtrees (first : Nat) (parent? : Option Category) : Forest → List Subtree
  | nil => []
  | cons c below beside =>
    ⟨first, parent?, c, below⟩ :: beside.rootSubtrees (first + below.size + 1) parent?

/-- Whether two forests agree node by node in their categories and the categories of the
parents, when the roots have parents of the given categories. -/
def agree (above? other? : Option Category) : Forest → Forest → Bool
  | nil, nil => true
  | cons c below beside, cons c' below' beside' =>
    c == c' && above? == other? && agree (some c) (some c') below below' &&
      agree above? other? beside beside'
  | _, _ => false

/-- What a hash is computed from: the category of each node in preorder, with that of its
parent. -/
def hashed (parent? : Option Category) : Forest → List (Category × Option Category)
  | nil => []
  | cons c below beside =>
    (c, parent?) :: (below.hashed (some c) ++ beside.hashed parent?)

end Forest

namespace Subtree

/-- The subtrees at the children of a node. -/
def children (t : Subtree) : List Subtree :=
  t.below.rootSubtrees (t.id + 1) (some t.category)

/-- Whether a node has no children. -/
def isLeaf (t : Subtree) : Bool :=
  t.below.isEmpty

/-- The text of a subtree. -/
def text (t : Subtree) : String :=
  (Forest.cons t.category t.below .nil).text

/-- The text of a subtree with the number of its node. -/
def describe (t : Subtree) : String :=
  "Subtree(NodeId(" ++ toString t.id ++ "), " ++ t.text ++ ")"

/-- Equality of subtrees: the categories of the nodes, those of their parents, and what is below
them. -/
def beq (t u : Subtree) : Bool :=
  t.category == u.category && t.parent? == u.parent? &&
    Forest.agree (some t.category) (some u.category) t.below u.below

instance : BEq Subtree := ⟨beq⟩

/-- What the hash of a subtree is computed from. -/
def hashed (t : Subtree) : List (Category × Option Category) :=
  (t.category, t.parent?) :: t.below.hashed (some t.category)

instance : Hashable Subtree := ⟨fun t => hash t.hashed⟩

end Subtree

/-- A derivation tree. Its root has number 0. -/
structure ParseTree where
  category : Category
  below : Forest
  /-- Further trees without a parent. -/
  beside : Forest
  deriving Repr

/-- A number that no node of a tree has. -/
structure InvalidNode where
  id : Nat
  size : Nat
  deriving DecidableEq, Repr

/-- The text of the error. -/
def InvalidNode.message (e : InvalidNode) : String :=
  "Invalid node index: " ++ toString e.id ++ " where tree size is " ++ toString e.size

namespace ParseTree

/-- The tree with the trees of a forest, if there is one. -/
def ofForest? : Forest → Option ParseTree
  | .nil => none
  | .cons c below beside => some ⟨c, below, beside⟩

/-- All trees of a parse tree. -/
def forest (t : ParseTree) : Forest :=
  .cons t.category t.below t.beside

/-- The number of nodes. -/
def size (t : ParseTree) : Nat :=
  t.forest.size

/-- The root with what is below it. -/
def root (t : ParseTree) : Subtree :=
  ⟨0, none, t.category, t.below⟩

/-- All nodes in the order of their numbers. -/
def nodes (t : ParseTree) : List Node :=
  t.forest.nodes 0 none

/-- The root and the nodes below it in the order of their numbers. -/
def rootNodes (t : ParseTree) : List Node :=
  (Forest.cons t.category t.below .nil).nodes 0 none

/-- The subtree at the node with a number. -/
def get (t : ParseTree) (id : Nat) : Except InvalidNode Subtree :=
  match (t.forest.subtrees 0 none)[id]? with
  | some s => .ok s
  | none => .error ⟨id, t.size⟩

/-- The text of a tree. -/
def text (t : ParseTree) : String :=
  t.root.text

instance : BEq ParseTree := ⟨fun t u => t.root == u.root⟩

instance : Hashable ParseTree := ⟨fun t => hash t.root⟩

end ParseTree

end SemiringParsing
