import SemiringParsing.Grammar.Basic
import SemiringParsing.Layout.Render

/-!
# Grammars as documents

In a document a nonterminal stands between angle brackets, a rule gives its probability, and a
grammar lists its rules between braces.
-/

namespace SemiringParsing

/-- The document of a category. -/
def Category.doc : Category → Doc
  | .start => .text "<start>"
  | .error => .text "<error>"
  | .terminal name => .text name
  | .nonterminal name => .text "<" ++ .text name ++ .text ">"

/-- The document of a rule's right side. -/
def Production.bodyDoc (p : Production) : Doc :=
  if p.right.isEmpty then .text "ε" else .intersperse .softline (p.right.map Category.doc)

namespace Rule

variable {π : Type} [Number π]

/-- The document of a rule, with its probability behind it. -/
def doc (r : Rule π) : Doc :=
  .group (r.left.doc ++ .text " =>" ++ .softline ++ r.bodyDoc ++
    .text (" (" ++ Number.text r.probability ++ ")"))

end Rule

namespace Grammar

variable {π : Type} [Number π]

/-- The document of a grammar: its start symbol and its rules. -/
def doc (G : Grammar π) : Doc :=
  let start := Doc.group (.text "Start =") ++ .softline ++ .text G.start
  let rules := Doc.concat (G.rules.map fun r => r.doc ++ .text ";" ++ .softline)
  let body := Doc.text "Rules " ++ .braces (.softline ++ .nest 2 rules)
  .concat ([start, body].map fun entry => entry ++ .text "," ++ .softline)

/-- A grammar laid out for a width. -/
def render (width : Nat) (G : Grammar π) : String :=
  G.doc.render width

end Grammar

end SemiringParsing
