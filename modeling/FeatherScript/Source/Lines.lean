import FeatherScript.Source.Text

/-!
# Lines and columns

Lines are numbered from one and end at a line feed. A column is one more than the number of
characters between the start of the line and the offset, so it counts characters and not bytes.
Starts of lines, lines and columns are words of 32 bits, while lengths of texts are not bounded.

* `ordinal` numbers what has some others before it; the sum in it wraps around at the last word.
* `LineTable.lineAt` finds the last line start up to an offset, and is total: an offset past the end
  lies on the last line.
* `LineTable.position` adds the column; an offset inside a character has column one.
* `LineTable.lineText?` is the text of a line without the line feed and the carriage returns before
  it.
-/

namespace FeatherScript

open Text

/-- The number, counted from one, of a line or a column with some others before it. Where these are
too many for a word, two less than there are words stands for them, so that one can be added. Where
they are one less than there are words, this is not so: the sum wraps around to zero, or the program
stops if it checks for overflows. -/
def ordinal (before : Nat) : UInt32 :=
  (if before < UInt32.size then .ofNat before else 4294967294) + 1

/-- The byte offsets at which the lines of a text start, in increasing order. Those that fit no word
are replaced by the last word. -/
structure LineTable where
  starts : List UInt32
deriving DecidableEq

namespace LineTable

/-- The offsets just past each line feed of a text whose first byte has the given offset. -/
def startsAfter : Nat → List Char → List Nat
  | _, [] => []
  | offset, c :: cs =>
    if c = '\n' then (offset + 1) :: startsAfter (offset + 1) cs
    else startsAfter (offset + c.utf8Size) cs

/-- The line table of a text: the first line starts at zero. -/
def ofText (cs : List Char) : LineTable := ⟨0 :: (startsAfter 0 cs).map .ofNatClamp⟩

/-- The number of lines, which is one more than the number of line feeds. -/
def count (t : LineTable) : Nat := t.starts.length

/-- The number of the line on which an offset lies, that with the last start up to the offset. -/
def lineAt (t : LineTable) (offset : Nat) : UInt32 :=
  ordinal (t.starts.countP (·.toNat ≤ offset) - 1)

/-- The offset at which a numbered line starts, if there is such a line. -/
def lineStart? (t : LineTable) (line : UInt32) : Option UInt32 :=
  if line = 0 then none else t.starts[(line - 1).toNat]?

/-- Line and column of an offset in the text that the table was made from. -/
def position (t : LineTable) (cs : List Char) (offset : Nat) : UInt32 × UInt32 :=
  let line := t.lineAt offset
  let start := ((t.lineStart? line).getD 0).toNat
  let stop := max start (min offset (byteLength cs))
  (line, ordinal ((slice? start stop cs).elim 0 List.length))

/-- The text of a numbered line without the characters that end it. -/
def lineText? (t : LineTable) (cs : List Char) (line : UInt32) : Option (List Char) :=
  (t.lineStart? line).bind fun start =>
    let stop := (t.lineStart? (line + 1)).elim (byteLength cs) UInt32.toNat
    (slice? start.toNat stop cs).map (trimEnd fun c => c = '\n' || c = '\r')

end LineTable

end FeatherScript
