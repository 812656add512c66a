import FeatherScript.Source.Lines
import FeatherScript.Source.Span

/-!
# Source lines with marks under them

A label is shown under the line on which its span starts. The mark begins under the column of that
start and covers as many characters as the span has on the line, at least one, and never runs past
the end of the line; a start beyond the shown text is marked just behind it.

* `Listing.indent` and `Listing.width` say where the mark lies, by columns of the shown line.
* `Listing.snippet?` collects what is shown for a span.
-/

namespace FeatherScript

open Text

/-- A source text with its path and its lines. -/
structure Listing where
  path : String
  text : List Char
  lines : LineTable

def Listing.ofText (path : String) (text : List Char) : Listing :=
  ⟨path, text, .ofText text⟩

/-- A line of the source with a mark under part of it. -/
structure Snippet where
  line : UInt32
  text : List Char
  indent : Nat
  width : Nat
deriving DecidableEq

namespace Listing

/-- The characters of a span up to the end of its first line; a span that cuts no text counts as
one. -/
def spanChars (l : Listing) (span : Span) : Nat :=
  match slice? span.start span.stop l.text with
  | some cs => (cs.takeWhile (· ≠ '\n')).length
  | none => 1

/-- The number of characters before the mark, for a column of a line of the given length. -/
def indent (column : UInt32) (lineLength : Nat) : Nat := min (column.toNat - 1) lineLength

/-- The width of the mark: at least one, and within the line if there is room. -/
def width (chars indent lineLength : Nat) : Nat := min (max chars 1) (max (lineLength - indent) 1)

/-- The line on which a span starts, with the mark of the span. -/
def snippet? (l : Listing) (span : Span) : Option Snippet :=
  let (line, column) := l.lines.position l.text span.start
  (l.lines.lineText? l.text line).map fun text =>
    let before := indent column text.length
    { line, text, indent := before, width := width (l.spanChars span) before text.length }

end Listing

end FeatherScript
