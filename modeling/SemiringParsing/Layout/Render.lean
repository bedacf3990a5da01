import SemiringParsing.Layout.Doc

/-!
# Laying out documents

A document is laid out from left to right. Outside groups lines are broken; a group is kept on
one line if its text, with everything up to the next line that is broken anyway, ends within
the width. What follows the group counts with it, so the layout of a group depends on the rest
of the document. Columns are counted in bytes of UTF-8.
-/

namespace SemiringParsing

/-- What a layout consists of: texts, and newlines with the indentation after them. -/
inductive Piece
  | text (s : String)
  | newline (indent : Nat)
  deriving DecidableEq, Repr

namespace Piece

/-- The characters of a piece. -/
def toString : Piece → String
  | text s => s
  | newline indent => "\n" ++ String.ofList (List.replicate indent ' ')

end Piece

/-- How a look along a line ends: past the width, at a newline, or in a column with nothing
left to look at. -/
inductive Lookahead
  | exceeded
  | broken
  | reached (column : Nat)
  deriving DecidableEq, Repr

namespace Lookahead

/-- Goes on from the reached column. -/
def andThen (l : Lookahead) (next : Nat → Lookahead) : Lookahead :=
  match l with
  | reached column => next column
  | exceeded => exceeded
  | broken => broken

/-- A text of so many bytes, which has to end within the width. -/
def advance (width column bytes : Nat) : Lookahead :=
  if column + bytes ≤ width then reached (column + bytes) else exceeded

end Lookahead

namespace Doc

open Lookahead

/-- Looks along a document from a column, either on one line or with its lines broken. -/
def look (width : Nat) (onOneLine : Bool) : Doc → Nat → Lookahead
  | nil, column => reached column
  | text s, column => advance width column s.utf8ByteSize
  | line, column => if onOneLine then advance width column 1 else broken
  | lineOrNothing, column => if onOneLine then reached column else broken
  | append a b, column => (a.look width onOneLine column).andThen (b.look width onOneLine)
  | nest _ d, column => d.look width onOneLine column
  | group d, column => d.look width onOneLine column

/-- Looks along the documents that follow, with their lines broken. -/
def lookAll (width : Nat) : List Doc → Nat → Lookahead
  | [], column => reached column
  | d :: ds, column => (d.look width false column).andThen (lookAll width ds)

/-- Whether a document stays within the width on one line, up to the first newline in what
follows it. -/
def fits (width : Nat) (d : Doc) (column : Nat) (rest : List Doc) : Bool :=
  (d.look width true column).andThen (lookAll width rest) != exceeded

/-- The pieces of a document that starts in a column with other documents to follow, and the
column where it ends. -/
def place (width : Nat) : Doc → (onOneLine : Bool) → (indent column : Nat) → (rest : List Doc) →
    List Piece × Nat
  | nil, _, _, column, _ => ([], column)
  | text s, _, _, column, _ => ([.text s], column + s.utf8ByteSize)
  | line, onOneLine, indent, column, _ =>
    if onOneLine then ([.text " "], column + 1) else ([.newline indent], indent)
  | lineOrNothing, onOneLine, indent, column, _ =>
    if onOneLine then ([], column) else ([.newline indent], indent)
  | append a b, onOneLine, indent, column, rest =>
    let first := a.place width onOneLine indent column (b :: rest)
    let second := b.place width onOneLine indent first.2 rest
    (first.1 ++ second.1, second.2)
  | nest n d, onOneLine, indent, column, rest =>
    d.place width onOneLine (indent + n) column rest
  | group d, onOneLine, indent, column, rest =>
    d.place width (onOneLine || d.fits width column rest) indent column rest

/-- The layout of a document: a text of at most `width` columns where that is possible. -/
def render (width : Nat) (d : Doc) : String :=
  String.join ((d.place width false 0 0 []).1.map Piece.toString)

end Doc

end SemiringParsing
