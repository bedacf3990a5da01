import SemiringParsing.Tree.Arena

/-!
# Trees below the nodes of an array

A node of an array stands for the tree below it, together with the category of its parent. What is
asked of such a tree is answered on the way down, along the numbers of the children.

Two nodes are compared on both ways down at once: first their categories, then those of their
parents, then their children one by one, up to the first difference. So the parents of the children
are compared too. The text and the values for a hash are put together from those of the children.

There is no answer where a number is not one of a node, or where the way down does not end within
the given depth.
-/

namespace SemiringParsing.Arena

/-- The category of a parent, if there is a parent. -/
def label? (nodes : Arena) : (parent? : Option Nat) → Option (Option Category)
  | none => some none
  | some id => nodes[id]?.map fun node => some node.category

/-- The category of the parent of a node. -/
def above? (nodes : Arena) (id : Nat) : Option (Option Category) := do
  let node ← nodes[id]?
  nodes.label? node.parent?

/-- Whether two lists of nodes agree one by one, up to the first difference. -/
def agreeAll? (agree? : Nat → Nat → Option Bool) : List Nat → List Nat → Option Bool
  | [], [] => some true
  | n :: ns, m :: ms => do
    if ← agree? n m then agreeAll? agree? ns ms else some false
  | _, _ => some false

/-- Whether the nodes with two numbers, each in its own array, are equal as trees. -/
def agree? (nodes others : Arena) : (depth : Nat) → Nat → Nat → Option Bool
  | 0, _, _ => none
  | depth + 1, n, m => do
    let x ← nodes[n]?
    let y ← others[m]?
    if x.category != y.category then some false
    else
      let above ← nodes.label? x.parent?
      let above' ← others.label? y.parent?
      if above != above' then some false
      else agreeAll? (agree? nodes others depth) x.children y.children

/-- What is put together from a node and from what was put together from its children. -/
def fold? {β : Type} (combine : Node → List β → Option β) (nodes : Arena) :
    (depth : Nat) → Nat → Option β
  | 0, _ => none
  | depth + 1, id => do
    let node ← nodes[id]?
    let below ← node.children.mapM (fold? combine nodes depth)
    combine node below

/-- The text of the tree below a node. -/
def text? (nodes : Arena) : (depth : Nat) → Nat → Option String :=
  nodes.fold? fun node below => some ("[" ++ node.category.text ++ String.join below ++ "]")

/-- The values that go into the hash of a node. -/
def hashed? (nodes : Arena) : (depth : Nat) → Nat → Option (List (Category × Option Category)) :=
  nodes.fold? fun node below =>
    (nodes.label? node.parent?).map fun above => (node.category, above) :: below.flatten

/-- The tree below a node without numbers: categories in order. -/
def tree? (nodes : Arena) : (depth : Nat) → Nat → Option Forest :=
  nodes.fold? fun node below => some (.cons node.category (below.foldr (· ++ ·) .nil) .nil)

end SemiringParsing.Arena
