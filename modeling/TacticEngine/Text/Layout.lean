/-
# TacticEngine.Text.Layout -- documents laid out within a line width.

A document is text with places where a line may end.  A group is laid out flat, with a blank at each
of those places, exactly if its flat layout together with whatever follows it up to the next line
end fits on the current line; otherwise its own lines end there, and the groups inside it decide for
themselves.  What follows a document is passed along as the question `rest`: from this column, does
the remainder of the line fit?  So both the question `fits` and the answer `lay` are structural
recursions on the document.

A new line starts at the indentation of the document that stands first on it, which need not be the
indentation of the line end: a closing bracket directly after the last line end of a list stands
below the opening one, not below the items.  Pieces without any text are no documents in this sense,
so the constructors `ofText` and `++` drop them.

The engine builds its documents with a library for such layouts, which is no part of the engine; what is said
here stands for as much of it as the engine uses.
-/
import TacticEngine.Text.Columns

namespace TacticEngine.Text

/-- A document. -/
inductive Doc where
  /-- Nothing. -/
  | empty
  /-- A piece of text that is never broken. -/
  | text (s : String)
  /-- A blank when flat, the end of a line when broken. -/
  | line
  /-- One document after the other. -/
  | append (first second : Doc)
  /-- Lines broken inside are indented by so much more. -/
  | nest (amount : Nat) (body : Doc)
  /-- Laid out flat if there is room. -/
  | group (body : Doc)
  deriving Repr, DecidableEq

namespace Doc

/-- One document after the other; nothing is dropped. -/
def followedBy : Doc → Doc → Doc
  | .empty, d => d
  | d, .empty => d
  | d, e => .append d e

instance : Append Doc := ⟨followedBy⟩

/-- A piece of text as a document; a piece without characters is nothing. -/
def ofText (s : String) : Doc :=
  if s.isEmpty then .empty else .text s

/-- Documents separated by `line`. -/
def lines : List Doc → Doc
  | [] => .empty
  | [d] => d
  | d :: ds => d ++ .line ++ lines ds

/-- A parenthesised list: items after the first are indented by two when the list is broken. -/
def paren (items : List Doc) : Doc :=
  .text "(" ++ .group (.nest 2 (lines items)) ++ .text ")"

/-- Does the document, starting at column `col`, fit within `width` columns up to its first line
end, or, if it has none, together with the `rest` of the line?  Flat documents have no line end;
with `flat` false every `line` is one, in groups too. -/
def fits (width : Nat) (flat : Bool) : Doc → (rest : Nat → Bool) → (col : Nat) → Bool
  | .empty, rest, col => rest col
  | .text s, rest, col => col + columns s ≤ width && rest (col + columns s)
  | .line, rest, col => if flat then col + 1 ≤ width && rest (col + 1) else true
  | .append a b, rest, col => a.fits width flat (b.fits width flat rest) col
  | .nest _ d, rest, col => d.fits width flat rest col
  | .group d, rest, col => d.fits width flat rest col

/-- The layout of a document from column `col` on, and the column at which it ends.  `indent` is
the indentation of the document, `next?` that of the document after it, if there is one. -/
def lay (width : Nat) (flat : Bool) :
    Doc → (indent : Nat) → (next? : Option Nat) → (rest : Nat → Bool) → (col : Nat) → String × Nat
  | .empty, _, _, _, col => ("", col)
  | .text s, _, _, _, col => (s, col + columns s)
  | .line, indent, next?, _, col =>
    if flat then (" ", col + 1)
    else
      let start := next?.getD indent
      ("\n" ++ "".pushn ' ' start, start)
  | .append a b, indent, next?, rest, col =>
    let (left, col) := a.lay width flat indent (some indent) (b.fits width false rest) col
    let (right, col) := b.lay width flat indent next? rest col
    (left ++ right, col)
  | .nest n d, indent, next?, rest, col => d.lay width flat (indent + n) next? rest col
  | .group d, indent, next?, rest, col =>
    d.lay width (flat || d.fits width true rest col) indent next? rest col

/-- A document laid out on lines of `width` columns. -/
def render (width : Nat) (d : Doc) : String :=
  (d.lay width false 0 none (fun _ => true) 0).1

end Doc

end TacticEngine.Text
