import FeatherScript.Proofs.Diagnostic.Emission
import FeatherScript.Proofs.Token.Covering

/-!
# Marks under the labelled text

A label in a listing takes four rows: the place, an empty row, the line on which the span starts,
and a row of marks. The shown line and the marks stand behind margins of the same width, so that
they can be compared column by column. If the span fits the source, the marks stand under those
characters of the shown line that lie in the span, and if there are none, one mark stands under the
start, or behind the end of the shown line. A span that does not fit is shown all the same.

* `markRow_eq_some_iff`: the columns of the marks in a row.
* `InSpan`, `Marked`: the columns under which marks belong.
* `marked_iff`: the marks of a span that fits.
* `marks_exact`: the theorem.
-/

namespace FeatherScript

open Text Styled

/-! ## Rows of marks -/

theorem markRow_eq_some_iff {stroke : Char} {indent width i : Nat} (h : stroke ≠ ' ') :
    (markRow stroke indent width)[i]? = some stroke ↔ indent ≤ i ∧ i < indent + width := by
  rw [markRow]
  rcases Nat.lt_or_ge i indent with hLt | hLe
  · rw [List.getElem?_append_left (by simpa using hLt), List.getElem?_replicate_of_lt hLt]
    simp only [Option.some.injEq, h.symm, false_iff]
    omega
  · rw [List.getElem?_append_right (by simpa using hLe), List.getElem?_replicate,
      List.length_replicate]
    split
    · simp only [true_iff]
      omega
    · simp only [reduceCtorEq, false_iff]
      omega

theorem Label.stroke_ne_blank (l : Label) : l.stroke ≠ ' ' := by
  unfold Label.stroke
  split <;> decide

/-! ## Columns under a span -/

/-- The character in a column of a shown line, whose first byte has the given offset, lies in a
span: the offset of the character is one of those that the span covers. -/
def InSpan (span : Span) (first : Nat) (shown : List Char) (column : Nat) : Prop :=
  column < shown.length ∧ span.start ≤ first + byteLength (shown.take column) ∧
    first + byteLength (shown.take column) < span.stop

/-- The columns under which marks belong: those of the characters in the span, or, if there is no
such character, the column of the start of the span, clipped to the end of the shown line. -/
def Marked (span : Span) (first : Nat) (shown : List Char) (start column : Nat) : Prop :=
  InSpan span first shown column ∨
    (∀ other, ¬ InSpan span first shown other) ∧ column = min start shown.length

/-- First parts of a text of different lengths have different lengths in bytes. -/
theorem byteLength_take_lt {cs : List Char} {i j : Nat} (h : i < j) (hj : j ≤ cs.length) :
    byteLength (cs.take i) < byteLength (cs.take j) := by
  obtain ⟨k, rfl⟩ := Nat.exists_eq_add_of_lt h
  have hRest : (cs.drop i).take (k + 1) ≠ [] := by
    rw [Ne, ← List.length_eq_zero_iff, List.length_take, List.length_drop]
    omega
  have hPos := byteLength_pos hRest
  rw [Nat.add_assoc, List.take_add, byteLength_append]
  omega

theorem byteLength_take_lt_iff {cs : List Char} {i j : Nat} (hi : i ≤ cs.length)
    (hj : j ≤ cs.length) : byteLength (cs.take i) < byteLength (cs.take j) ↔ i < j := by
  constructor
  · intro h
    by_contra hNot
    rcases Nat.lt_or_eq_of_le (Nat.le_of_not_lt hNot) with hLt | rfl
    · exact absurd h (Nat.lt_asymm (byteLength_take_lt hLt hi))
    · exact absurd h (Nat.lt_irrefl _)
  · intro h
    exact byteLength_take_lt h hj

/-- A span that fits the source, together with the line on which it starts: the part of the line
before it, its text, and the rest of the line. -/
structure LabelledLine (cs head before inside more : List Char) : Prop where
  line : ∃ rest, LineIn cs head (before ++ more) rest
  text : ∃ rest, cs = head ++ (before ++ (inside ++ rest))

theorem exists_labelledLine {cs : List Char} {span : Span} (h : span.Fits cs) :
    ∃ head before inside more, LabelledLine cs head before inside more ∧
      span.start = byteLength (head ++ before) ∧
      span.stop = byteLength (head ++ before) + byteLength inside := by
  obtain ⟨before, inside, rest, rfl, hStart, hStop⟩ :=
    exists_between h.startBoundary h.stopBoundary h.ordered
  obtain ⟨head, line, more, rest', rfl, -, hLine⟩ := exists_lineIn before (inside ++ rest)
  exact ⟨head, line, inside, more, ⟨⟨rest', hLine⟩, ⟨rest, by simp⟩⟩, hStart.symm,
    by rw [← hStop]⟩

namespace LabelledLine

variable {cs head before inside more : List Char} {span : Span}

/-- The characters of the span on its first line are those that the rest of the line has in common
with it. -/
theorem length_takeWhile (h : LabelledLine cs head before inside more) :
    (inside.takeWhile (· ≠ '\n')).length = min inside.length more.length := by
  obtain ⟨rest, hLine⟩ := h.line
  obtain ⟨rest', hText⟩ := h.text
  have hMore : ∀ c ∈ more, (decide (c ≠ '\n')) = true := by
    intro c hMem
    simp only [decide_eq_true_eq]
    rintro rfl
    exact hLine.inside (List.mem_append_right before hMem)
  have hBoth : inside ++ rest' = more ++ rest := by
    have hSame := hText.symm.trans hLine.text
    simpa using hSame
  rcases List.append_eq_append_iff.mp hBoth with ⟨tail, rfl, -⟩ | ⟨tail, rfl, hRest⟩
  · rw [List.takeWhile_eq_self_iff.mpr fun c hMem => hMore c (List.mem_append_left tail hMem)]
    simp
  · have hTail : tail.takeWhile (· ≠ '\n') = [] := by
      cases tail with
      | nil => rfl
      | cons c tail =>
        rw [hRest] at hLine
        cases hLine.ends
        simp
    rw [List.takeWhile_append_of_pos hMore, hTail]
    simp

/-- The columns of the characters in the span. -/
theorem inSpan_iff (h : LabelledLine cs head before inside more)
    (hStart : span.start = byteLength (head ++ before))
    (hStop : span.stop = byteLength (head ++ before) + byteLength inside) {shown : List Char}
    (hShown : shown <+: before ++ more) {i : Nat} :
    InSpan span (byteLength head) shown i ↔
      i < shown.length ∧ before.length ≤ i ∧ i < before.length + inside.length := by
  obtain ⟨rest, hLine⟩ := h.line
  obtain ⟨rest', hText⟩ := h.text
  rw [InSpan]
  refine and_congr_right fun hi => ?_
  -- The line and the span are first parts of the same text, the one from the line's start on.
  obtain ⟨u, hu⟩ : ∃ u, u = before ++ (inside ++ rest') := ⟨_, rfl⟩
  have hFromLine : u = before ++ more ++ rest := by
    have hSame := hText.symm.trans hLine.text
    simpa [hu] using hSame
  have hLength : before.length + inside.length ≤ u.length := by simp [hu]
  have hColumn : shown.take i = u.take i := by
    obtain ⟨tail, hTail⟩ := hShown
    rw [hFromLine, ← hTail, List.append_assoc, List.take_append_of_le_length (Nat.le_of_lt hi)]
  have hIndex : i ≤ u.length := by
    have hLe := hShown.length_le
    rw [hFromLine, List.length_append]
    omega
  have hBefore : u.take before.length = before := by simp [hu]
  have hInside : u.take (before.length + inside.length) = before ++ inside := by
    simp [hu, ← List.append_assoc, ← List.length_append]
  have hFrom : byteLength (u.take i) < byteLength before ↔ i < before.length := by
    rw [← byteLength_take_lt_iff hIndex (by omega), hBefore]
  have hUpTo : byteLength (u.take i) < byteLength before + byteLength inside ↔
      i < before.length + inside.length := by
    rw [← byteLength_take_lt_iff hIndex hLength, hInside, byteLength_append]
  rw [hColumn, hStart, hStop, byteLength_append]
  omega

end LabelledLine

/-! ## The marks of a span -/

/-- The marks of a span that fits stand where they belong. -/
theorem marked_iff {cs head before inside more : List Char} {span : Span}
    (h : LabelledLine cs head before inside more)
    (hStart : span.start = byteLength (head ++ before))
    (hStop : span.stop = byteLength (head ++ before) + byteLength inside) {shown : List Char}
    (hShown : shown <+: before ++ more) {i : Nat} :
    Marked span (byteLength head) shown before.length i ↔
      min before.length shown.length ≤ i ∧
        i < min before.length shown.length + Listing.width
          (inside.takeWhile (· ≠ '\n')).length (min before.length shown.length) shown.length := by
  have hIn : ∀ j, InSpan span (byteLength head) shown j ↔
      j < shown.length ∧ before.length ≤ j ∧ j < before.length + inside.length :=
    fun j => h.inSpan_iff hStart hStop hShown
  have hLength : shown.length ≤ before.length + more.length := by
    simpa using hShown.length_le
  rw [Marked, Listing.width, h.length_takeWhile]
  simp only [hIn]
  by_cases hSome : before.length < shown.length ∧ 0 < inside.length
  · -- The span has a character on the line, namely the one at its start.
    have hNotNone : ¬ ∀ other, ¬ (other < shown.length ∧ before.length ≤ other ∧
        other < before.length + inside.length) :=
      fun hNone => hNone before.length ⟨hSome.1, Nat.le_refl _, by omega⟩
    simp only [hNotNone, false_and, or_false]
    omega
  · have hNone : ∀ other, ¬ (other < shown.length ∧ before.length ≤ other ∧
        other < before.length + inside.length) := by
      intro other
      omega
    simp only [hNone, not_false_eq_true, implies_true, true_and, false_or]
    omega

/-- On the line of a span that fits, what is shown is the start of the line. -/
theorem ShownAt.of_fits {cs : List Char} {span : Span} {line column first : UInt32}
    {shown : List Char} (h : ShownAt cs span.start line column first shown)
    (hNumbered : Numbered cs) (hFits : span.Fits cs) (path : String) :
    ∃ head before inside more, LabelledLine cs head before inside more ∧
      span.start = byteLength (head ++ before) ∧
      span.stop = byteLength (head ++ before) + byteLength inside ∧
      shown <+: before ++ more ∧ first.toNat = byteLength head ∧
      column.toNat = before.length + 1 ∧
      (Listing.ofText path cs).spanChars span = (inside.takeWhile (· ≠ '\n')).length := by
  obtain ⟨head, before, inside, more, hLabelled, hStart, hStop⟩ := exists_labelledLine hFits
  refine ⟨head, before, inside, more, hLabelled, hStart, hStop, ?_⟩
  obtain ⟨rest, hLine⟩ := hLabelled.line
  obtain ⟨rest', hText⟩ := hLabelled.text
  have hSize := hNumbered.size
  have hCount := hLine.count_lt hNumbered
  have hPosition := h.position
  rw [hStart, hLine.position_eq hSize hCount, Prod.mk.injEq] at hPosition
  obtain ⟨rfl, rfl⟩ := hPosition
  obtain rfl := Option.some.inj ((hLine.lineStart?_eq hCount).symm.trans h.start)
  obtain rfl := Option.some.inj ((hLine.lineText?_eq hSize hNumbered.count_lt).symm.trans h.text)
  refine ⟨List.rdropWhile_prefix _ _, hLine.toNat_start hSize,
    toNat_ordinal (hLine.column_lt hNumbered), ?_⟩
  have hSlice := slice?_append (head ++ before) inside rest'
  rw [List.append_assoc, ← hText, ← hStop, ← hStart] at hSlice
  rw [Listing.spanChars, Listing.ofText, hSlice]

/-- Marks are under the labelled text, where all lines and columns have numbers. Every label in a
listing is shown by its rows, with a row of marks that has at least one mark and nothing else but
blanks; the column is not before the first one, and the marks start within the shown line or right
behind it. If the span fits the source, the marks are in those columns in which they belong. -/
theorem marks_exact (path : String) {cs : List Char} (hNumbered : Numbered cs) (l : Label) :
    ∃ line column first shown row, ShownAt cs l.span.start line column first shown ∧
      ((Emitter.start (some (.ofText path cs))).writeLabel l).text false
        = l.rows path line column shown row ∧
      (∃ width, 1 ≤ width ∧ row = markRow l.stroke (Listing.indent column shown.length) width) ∧
      1 ≤ column.toNat ∧ Listing.indent column shown.length ≤ shown.length ∧
      (l.span.Fits cs →
        ∀ i, row[i]? = some l.stroke ↔ Marked l.span first.toNat shown (column.toNat - 1) i) := by
  obtain ⟨line, column, first, shown, hShown⟩ := exists_shownAt hNumbered l.span.start
  have hRows := l.writeAll_pieces_of_position hShown.position hShown.text path
  rw [← Emitter.text_writeLabel_start] at hRows
  refine ⟨line, column, first, shown, _, hShown, hRows, ⟨_, Listing.width_pos _ _ _, rfl⟩,
    hShown.column_pos, Nat.min_le_right _ _, ?_⟩
  intro hFits i
  obtain ⟨head, before, inside, more, hLabelled, hStart, hStop, hPrefix, hFirst, hColumn, hChars⟩ :=
    hShown.of_fits hNumbered hFits path
  rw [markRow_eq_some_iff l.stroke_ne_blank, hChars, hFirst, Listing.indent, hColumn,
    Nat.add_sub_cancel]
  exact (marked_iff hLabelled hStart hStop hPrefix).symm

/-- A label from the second character of a line to the next line. -/
def labelOverTwoLines : Label := ⟨true, ⟨2, 7⟩, "here"⟩

/-- The mark is under the one character of the label on the first line, and not under the carriage
return behind it. -/
theorem marks_exact_twoLines :
    let cs := ['é', 'b', '\r', '\n', 'c', 'd']
    byteLength cs + 2 < UInt32.size ∧ labelOverTwoLines.span.Fits cs ∧
    ((Emitter.start (some (.ofText "p" cs))).writeLabel labelOverTwoLines).text false
      = "  --> p:1:2\n    |\n  1 | éb\n    |  ^ here\n" ∧
    ∃ line column first shown row, ShownAt cs 2 line column first shown ∧
      ((Emitter.start (some (.ofText "p" cs))).writeLabel labelOverTwoLines).text false
        = labelOverTwoLines.rows "p" line column shown row ∧
      ∀ i, row[i]? = some '^' ↔ Marked ⟨2, 7⟩ first.toNat shown (column.toNat - 1) i := by
  intro cs
  have hSize : byteLength cs + 2 < UInt32.size := by decide
  have hFits : labelOverTwoLines.span.Fits cs :=
    ⟨by decide, by decide, by decide, by decide⟩
  obtain ⟨line, column, first, shown, row, hShown, hRows, -, -, -, hMarks⟩ :=
    marks_exact "p" (numbered_of_byteLength hSize) labelOverTwoLines
  exact ⟨hSize, hFits, by decide +kernel, line, column, first, shown, row, hShown, hRows,
    hMarks hFits⟩

/-! ## One column too many -/

/-- A label at an offset, without a remark. -/
def pointLabel (offset : Nat) : Label := ⟨true, .point offset, ""⟩

/-- A label at the end of a line of letters, where their number is the last word, is marked in the
first column. -/
theorem rows_replicate {n : Nat} {c : Char} (h : n + 1 = UInt32.size) (hFeed : c ≠ '\n')
    (hReturn : c ≠ '\r') (hByte : c.utf8Size = 1) (path : String) :
    ((Emitter.start (some (.ofText path (List.replicate n c)))).writeLabel (pointLabel n)).text
        false
      = (pointLabel n).rows path 1 0 (List.replicate n c) ['^'] := by
  have hPosition := position_replicate h hFeed hByte
  have hText := lineText?_replicate h hFeed hByte hReturn
  have hRows := (pointLabel n).writeAll_pieces_of_position hPosition hText path
  have hEnd : slice? n n (List.replicate n c) = some [] := by
    have hSlice := slice?_append (List.replicate n c) [] []
    rwa [byteLength_nil, byteLength_replicate hByte, List.append_nil, List.append_nil] at hSlice
  have hChars : (Listing.ofText path (List.replicate n c)).spanChars (pointLabel n).span = 0 := by
    rw [Listing.spanChars, Listing.ofText, pointLabel, Span.point, hEnd]
    rfl
  have hIndent : Listing.indent 0 n = 0 := Nat.zero_min n
  have hWidth : Listing.width 0 0 n = 1 := by
    rw [Listing.width]
    omega
  rw [Emitter.text_writeLabel_start, hRows, hChars, List.length_replicate, hIndent, hWidth]
  rfl

/-- The mark belongs behind the line. -/
theorem marked_replicate {n i : Nat} {c : Char} :
    Marked (pointLabel n).span 0 (List.replicate n c) n i ↔ i = n := by
  have hNone : ∀ j, ¬ InSpan (pointLabel n).span 0 (List.replicate n c) j := by
    rintro j ⟨-, hStart, hStop⟩
    exact Nat.lt_irrefl _ (Nat.lt_of_lt_of_le hStop hStart)
  rw [Marked, List.length_replicate, Nat.min_self]
  simp only [hNone, false_or, not_false_eq_true, implies_true, true_and]

theorem fits_replicate {n : Nat} {c : Char} (hByte : c.utf8Size = 1) :
    (pointLabel n).span.Fits (List.replicate n c) := by
  have hLength : byteLength (List.replicate n c) = n := byteLength_replicate hByte n
  have hEnd : IsBoundary (List.replicate n c) n :=
    isBoundary_iff.mpr ⟨List.replicate n c, [], (List.append_nil _).symm, hLength⟩
  exact ⟨Nat.le_refl n, Nat.le_of_eq hLength.symm, hEnd, hEnd⟩

/-- Behind 4294967295 letters on one line the mark belongs behind the line, but there is no number
for its column, and it is under the first letter. -/
theorem marks_wrap_around :
    let cs := List.replicate 4294967295 'a'
    let l := pointLabel 4294967295
    l.span.Fits cs ∧ Marked l.span 0 cs 4294967295 4294967295 ∧ ¬ Marked l.span 0 cs 4294967295 0 ∧
      ((Emitter.start (some (.ofText "p" cs))).writeLabel l).text false
        = l.rows "p" 1 0 cs ['^'] :=
  ⟨fits_replicate rfl, marked_replicate.mpr rfl,
    fun hMarked => absurd (marked_replicate.mp hMarked) (by decide),
    rows_replicate rfl (by decide) (by decide) rfl "p"⟩

end FeatherScript
