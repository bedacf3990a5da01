/-!
# Documents

A document is a text with the places where it may be broken into lines. A `line` is a blank on
one line and a newline where the text is broken; `lineOrNothing` leaves nothing in place of the
blank. A `group` is laid out on one line if it fits, and `nest` indents the lines that begin
inside it.
-/

namespace SemiringParsing

/-- A text with possible line breaks. -/
inductive Doc
  | nil
  | text (s : String)
  | line
  | lineOrNothing
  | append (first second : Doc)
  | nest (indent : Nat) (body : Doc)
  | group (body : Doc)
  deriving DecidableEq, Repr

namespace Doc

instance : Append Doc := ⟨append⟩

/-- A blank, unless what follows does not fit on the line. -/
def softline : Doc := group line

/-- Nothing, unless what follows does not fit on the line. -/
def softbreak : Doc := group lineOrNothing

/-- The documents of a list, one after the other. -/
def concat : List Doc → Doc
  | [] => nil
  | d :: ds => d ++ concat ds

/-- The documents of a list with a separator between neighbours. -/
def intersperse (separator : Doc) : List Doc → Doc
  | [] => nil
  | [d] => d
  | d :: e :: ds => d ++ (separator ++ intersperse separator (e :: ds))

/-- A document between braces. -/
def braces (body : Doc) : Doc :=
  text "\x7b" ++ body ++ text "\x7d"

/-- The text of a document that is not broken at all. -/
def flat : Doc → String
  | nil => ""
  | text s => s
  | line => " "
  | lineOrNothing => ""
  | append a b => a.flat ++ b.flat
  | nest _ d => d.flat
  | group d => d.flat

end Doc

end SemiringParsing
