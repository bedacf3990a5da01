import SemiringParsing.Layout.Render
import SemiringParsing.Tree.Basic

/-!
# Trees as documents

A tree may be broken before any node but the first. Its children are indented by two.
-/

namespace SemiringParsing

/-- The documents of the trees of a forest, each with a place to break before it. -/
def Forest.docs : Forest → Doc
  | nil => .nil
  | cons c nil beside => .softbreak ++ (.text ("[" ++ c.text) ++ .text "]") ++ beside.docs
  | cons c below beside =>
    .softbreak ++ .group (.text ("[" ++ c.text) ++ .nest 2 below.docs ++ .text "]") ++
      beside.docs

namespace Subtree

/-- The document of a subtree. -/
def doc (t : Subtree) : Doc :=
  match t.below with
  | .nil => .text ("[" ++ t.category.text) ++ .text "]"
  | below => .group (.text ("[" ++ t.category.text) ++ .nest 2 below.docs ++ .text "]")

/-- A subtree laid out for a width. -/
def render (width : Nat) (t : Subtree) : String :=
  t.doc.render width

end Subtree

/-- A tree laid out for a width. -/
def ParseTree.render (width : Nat) (t : ParseTree) : String :=
  t.root.render width

end SemiringParsing
