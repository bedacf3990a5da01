import SemiringParsing.Chart.Basic
import SemiringParsing.Tree.Basic

/-!
# Building trees from a chart

A tree for a completed state is found by going back over links, always the first of a state.
From the completed state they lead back to the state with its dot in front; on the way each
link names what moved the dot, a completed state or a token. These are the bases of the state,
and the trees of its completed bases stand below it.

The implicit top rule leaves no node. Tokens leave leaves with the category that was expected,
so that a token taken for an `error` is an `error` leaf.
-/

namespace SemiringParsing

/-- Why there is no tree for a state. -/
inductive TreeError (π : Type)
  /-- The state still expects something. -/
  | active (state : State π)
  /-- The state was reached, but no link says how. -/
  | missingBasis (state : State π)
  /-- The state is below itself. -/
  | cyclicDerivation (state : State π)
  /-- There is no state for the whole input. -/
  | noParse

/-- The text of an error. -/
def TreeError.message {π : Type} : TreeError π → String
  | active state =>
    "building a tree from the active state " ++ state.text ++ " is not implemented"
  | missingBasis state => "state " ++ state.text ++ " was advanced but has no recorded basis"
  | cyclicDerivation state => "the derivation of " ++ state.text ++ " is cyclic"
  | noParse => "no complete parse spans the input"

/-- How building a tree ends without one: in an error, at a number that is not in the chart, or
not at all. -/
inductive TreeFailure (π : Type)
  | error (e : TreeError π)
  | unknown (e : OutOfBounds)
  /-- The walk over the links of a state comes back to where it was. -/
  | endless

/-- What moved the dot of a state: a completed state, or a token read as a category. -/
inductive Basis
  | completed (id : StateId)
  | scanned (category : Category)
  deriving DecidableEq, Repr

namespace Chart

variable {π α : Type}

/-- Walks back over first links for at most `fuel` states. The bases found are put before
those found earlier, so they end in the order of the rule. -/
def walk (c : Chart π α) : (fuel : Nat) → StateId → List Basis →
    Except (TreeFailure π) (List Basis)
  | 0, _, _ => .error .endless
  | fuel + 1, id, bases =>
    match c.record id with
    | .error e => .error (.unknown e)
    | .ok r =>
      if r.state.dot = 0 then .ok bases
      else
        match r.links.head? with
        | none => .error (.error (.missingBasis r.state))
        | some ⟨predecessor, some child⟩ => c.walk fuel predecessor (.completed child :: bases)
        | some ⟨predecessor, none⟩ =>
          match c.record predecessor with
          | .error e => .error (.unknown e)
          | .ok before =>
            match before.state.active? with
            | none => .error (.error (.missingBasis before.state))
            | some category => c.walk fuel predecessor (.scanned category :: bases)

/-- The bases of a state from left to right. A walk over more states than there are has come
back to one of them, and goes on for ever. -/
def bases (c : Chart π α) (id : StateId) : Except (TreeFailure π) (List Basis) :=
  c.walk (c.size + 1) id []

/-- The trees of some bases, one beside the other. -/
def gather (child : StateId → Except (TreeFailure π) Forest) (leaf : Category → Forest) :
    List Basis → Except (TreeFailure π) Forest
  | [] => .ok .nil
  | .scanned category :: bases =>
    match gather child leaf bases with
    | .error e => .error e
    | .ok beside => .ok (leaf category ++ beside)
  | .completed id :: bases =>
    match child id with
    | .error e => .error e
    | .ok first =>
      match gather child leaf bases with
      | .error e => .error e
      | .ok beside => .ok (first ++ beside)

/-- The trees for a state that is below the states of `path`, at most `depth` of them one below
the other. -/
def trees (c : Chart π α) : (depth : Nat) → (path : List StateId) → StateId →
    Except (TreeFailure π) Forest
  | 0, _, _ => .error .endless
  | depth + 1, path, id =>
    match c.record id with
    | .error e => .error (.unknown e)
    | .ok r =>
      if !r.state.isCompleted then .error (.error (.active r.state))
      else if id ∈ path then .error (.error (.cyclicDerivation r.state))
      else
        match c.bases id with
        | .error e => .error e
        | .ok bases =>
          let child := c.trees depth (id :: path)
          if r.state.rule.left = .start then gather child (fun _ => .nil) bases
          else (gather child .leaf bases).map fun below => .cons r.state.rule.left below .nil

/-- The derivation tree of a completed state by first links. States below one another are
distinct, so there are no more of them than states in the chart. -/
def tree (c : Chart π α) (id : StateId) : Except (TreeFailure π) ParseTree :=
  match c.record id with
  | .error e => .error (.unknown e)
  | .ok r =>
    match c.trees (c.size + 1) [] id with
    | .error e => .error e
    | .ok forest =>
      match ParseTree.ofForest? forest with
      | some t => .ok t
      | none => .error (.error (.missingBasis r.state))

end Chart

end SemiringParsing
