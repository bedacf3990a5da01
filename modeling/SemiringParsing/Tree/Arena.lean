import SemiringParsing.Tree.Build

/-!
# Trees as arrays of nodes

A tree can be held in an array. A node is added behind all others, with the number of its parent,
and its own number is put behind those of the other children of the parent.

Such a tree is built without recursion. A stack holds what is still to be done: to enter a state, to
add a leaf, or to leave a state when all below it is done. The states that were entered and not left
are the path. The implicit top rule leaves no node, so what is below it gets the parent that its
node would have had.
-/

namespace SemiringParsing

/-- The nodes of a tree, each at its number. -/
abbrev Arena := Array Node

namespace Arena

/-- Puts numbers behind those of the children of a node, if there is one. -/
def adopt (nodes : Arena) (parent? : Option Nat) (ids : List Nat) : Arena :=
  match parent? with
  | none => nodes
  | some parent => nodes.modify parent fun n => { n with children := n.children ++ ids }

/-- Adds a node, as the last child of its parent if it has one. -/
def addNode (nodes : Arena) (category : Category) (parent? : Option Nat) : Arena :=
  Arena.adopt (nodes.push ⟨nodes.size, category, parent?, []⟩) parent? [nodes.size]

end Arena

/-- Something to do in building a tree. -/
inductive TreeStep
  | enter (id : StateId) (parent? : Option Nat)
  | leaf (category : Category) (parent? : Option Nat)
  | leave (id : StateId)
  deriving DecidableEq, Repr

/-- A tree that is being built. -/
structure TreeBuilder where
  nodes : Arena
  /-- The states that were entered and not left. -/
  path : List StateId
  /-- What is still to be done, the next first. -/
  stack : List TreeStep

namespace TreeBuilder

variable {π α : Type}

/-- Puts on the stack what is to be done for a basis of a state with a node. -/
def pushBelow (node : Nat) : Basis → List TreeStep → List TreeStep
  | .completed id, stack => .enter id (some node) :: stack
  | .scanned category, stack => .leaf category (some node) :: stack

/-- Puts on the stack what is to be done for a basis of the top rule. -/
def pushTop (parent? : Option Nat) : Basis → List TreeStep → List TreeStep
  | .completed id, stack => .enter id parent? :: stack
  | .scanned _, stack => stack

/-- Enters a state: adds its node, and puts all below it on the stack, with the leaving of the state
behind. -/
def enter (c : Chart π α) (b : TreeBuilder) (id : StateId) (parent? : Option Nat) :
    Except (TreeFailure π) TreeBuilder :=
  match c.record id with
  | .error e => .error (.unknown e)
  | .ok r =>
    if !r.state.isCompleted then .error (.error (.active r.state))
    else if id ∈ b.path then .error (.error (.cyclicDerivation r.state))
    else
      match c.bases id with
      | .error e => .error e
      | .ok bases =>
        let stack := .leave id :: b.stack
        if r.state.rule.left = .start then
          .ok ⟨b.nodes, id :: b.path, bases.foldr (pushTop parent?) stack⟩
        else
          .ok ⟨b.nodes.addNode r.state.rule.left parent?, id :: b.path,
            bases.foldr (pushBelow b.nodes.size) stack⟩

/-- Does one thing. -/
def perform (c : Chart π α) (b : TreeBuilder) : TreeStep → Except (TreeFailure π) TreeBuilder
  | .enter id parent? => b.enter c id parent?
  | .leaf category parent? => .ok { b with nodes := b.nodes.addNode category parent? }
  | .leave id => .ok { b with path := b.path.erase id }

/-- Does what is on the stack until nothing is left, in fewer than `fuel` steps. -/
def run (c : Chart π α) : (fuel : Nat) → TreeBuilder → Option (Except (TreeFailure π) Arena)
  | 0, _ => none
  | _ + 1, ⟨nodes, _, []⟩ => some (.ok nodes)
  | fuel + 1, ⟨nodes, path, step :: stack⟩ =>
    match perform c ⟨nodes, path, stack⟩ step with
    | .error e => some (.error e)
    | .ok b => run c fuel b

end TreeBuilder

/-- The derivation tree of a completed state by first links, as an array of nodes. -/
def Chart.arena {π α : Type} (c : Chart π α) (fuel : Nat) (id : StateId) :
    Option (Except (TreeFailure π) Arena) :=
  match c.record id with
  | .error e => some (.error (.unknown e))
  | .ok r =>
    (TreeBuilder.run c fuel ⟨#[], [], [.enter id none]⟩).map fun outcome =>
      outcome.bind fun nodes =>
        if nodes.isEmpty then .error (.error (.missingBasis r.state)) else .ok nodes

end SemiringParsing
