import FeatherScript.Proofs.Source.Lines
import Mathlib.Data.Prod.Lex

/-!
# Lines and columns are exact

The line of an offset counts the line feeds among the bytes before it; at a boundary the column
counts the characters since the start of the line, and both together lead back to the offset. The
numbered lines are the pieces between line feeds, without the carriage returns at their ends. All
this is so where the numbers fit words, and positions are exact only there.

* `LineTable.Locates`: a line and a column that belong to an offset.
* `LineTable.numbers_fit_of_locates`: where positions do not belong to their offsets.
* `ShownAt`: the line that is shown for an offset, with the column of the offset.
* `positions_exact`: the theorem.
* `positions_wrap_around`: texts with one line or column too many.
-/

namespace FeatherScript

open Text

/-! ## Positions and lines -/

/-- Behind the start of a line, the characters up to the last line feed are those of the line. -/
theorem rtakeWhile_of_lineStart {head line : List Char} (hHead : LineStart head)
    (hLine : '\n' ∉ line) : (head ++ line).rtakeWhile (· ≠ '\n') = line := by
  induction line using List.reverseRecOn with
  | nil =>
    cases hHead with
    | first => rfl
    | feed before => simp
  | append_singleton line c ih =>
    simp only [List.mem_append, List.mem_singleton, not_or] at hLine
    rw [← List.append_assoc, List.rtakeWhile_concat_pos _ _ _ (by simp [Ne.symm hLine.2]),
      ih hLine.1]

theorem LineIn.rtakeWhile_left {cs head before after rest : List Char}
    (h : LineIn cs head (before ++ after) rest) :
    (head ++ before).rtakeWhile (· ≠ '\n') = before :=
  rtakeWhile_of_lineStart h.starts h.not_mem_left

namespace LineTable

/-- A line and a column belong to an offset at a boundary. The line counts the line feeds before
the offset, the column counts the characters behind the last one, and as many characters from the
start of the line on lead to the offset. -/
structure Locates (cs : List Char) (offset : Nat) (line column : UInt32) : Prop where
  line_eq : line.toNat = lineFeedsBefore cs offset + 1
  column_eq : ∃ before after, cs = before ++ after ∧ byteLength before = offset ∧
    column.toNat = (before.rtakeWhile (· ≠ '\n')).length + 1
  back : ∃ start rest, (ofText cs).lineStart? line = some start ∧
    dropBytes? start.toNat cs = some rest ∧ column.toNat - 1 ≤ rest.length ∧
    start.toNat + byteLength (rest.take (column.toNat - 1)) = offset

variable {cs before after : List Char} {offset : Nat}

/-- The position of the end of a first part of a text. -/
theorem position_append (hNumbered : Numbered (before ++ after)) :
    (ofText (before ++ after)).position (before ++ after) (byteLength before)
      = (ordinal (before.count '\n'), ordinal (before.rtakeWhile (· ≠ '\n')).length) := by
  obtain ⟨head, line, more, rest, rfl, rfl, hLine⟩ := exists_lineIn before after
  rw [hLine.position_eq hNumbered.size (hLine.count_lt hNumbered), hLine.count_left,
    hLine.rtakeWhile_left]

theorem line_lt (hNumbered : Numbered (before ++ after)) :
    before.count '\n' + 1 < UInt32.size := by
  obtain ⟨head, line, more, rest, rfl, rfl, hLine⟩ := exists_lineIn before after
  rw [hLine.count_left]
  exact hLine.count_lt hNumbered

theorem column_lt (hNumbered : Numbered (before ++ after)) :
    (before.rtakeWhile (· ≠ '\n')).length + 1 < UInt32.size := by
  obtain ⟨head, line, more, rest, rfl, rfl, hLine⟩ := exists_lineIn before after
  rw [hLine.rtakeWhile_left]
  exact hLine.column_lt hNumbered

theorem locates_position (hNumbered : Numbered cs) (h : IsBoundary cs offset) :
    Locates cs offset ((ofText cs).position cs offset).1 ((ofText cs).position cs offset).2 := by
  obtain ⟨before, after, rfl, rfl⟩ := isBoundary_iff.mp h
  have hLines := toNat_ordinal (line_lt hNumbered)
  have hColumns := toNat_ordinal (column_lt hNumbered)
  rw [position_append hNumbered]
  refine ⟨by rw [lineFeedsBefore_append, hLines], ⟨before, after, rfl, rfl, hColumns⟩, ?_⟩
  rw [hColumns, Nat.add_sub_cancel]
  obtain ⟨head, line, more, rest, rfl, rfl, hLine⟩ := exists_lineIn before after
  rw [hLine.rtakeWhile_left, hLine.count_left]
  refine ⟨_, line ++ (more ++ rest), hLine.lineStart?_eq (hLine.count_lt hNumbered), ?_⟩
  rw [hLine.toNat_start hNumbered.size]
  refine ⟨dropBytes?_eq_some_iff.mpr ⟨head, List.append_assoc _ _ _, rfl⟩, ?_, ?_⟩
  · simp
  · simp

/-- A later boundary has a later position. -/
theorem position_lt {a b : Nat} (hNumbered : Numbered cs) (ha : IsBoundary cs a)
    (hb : IsBoundary cs b) (h : a < b) :
    toLex ((ofText cs).position cs a) < toLex ((ofText cs).position cs b) := by
  obtain ⟨before, between, rest, rfl, rfl, rfl⟩ := exists_between ha hb (Nat.le_of_lt h)
  have hLines := line_lt hNumbered
  have hColumns := column_lt hNumbered
  have hEarlier := position_append hNumbered
  rw [← List.append_assoc] at hNumbered
  have hLines' := line_lt hNumbered
  have hColumns' := column_lt hNumbered
  have hLater := position_append hNumbered
  rw [byteLength_append, List.append_assoc] at hLater
  rw [hEarlier, hLater, Prod.Lex.toLex_lt_toLex, UInt32.lt_iff_toNat_lt, UInt32.lt_iff_toNat_lt,
    toNat_ordinal hLines, toNat_ordinal hLines', toNat_ordinal hColumns, toNat_ordinal hColumns']
  by_cases hFeed : '\n' ∈ between
  · left
    have hPos : 0 < between.count '\n' := List.count_pos_iff.mpr hFeed
    rw [List.count_append]
    omega
  · right
    obtain ⟨head, line, rfl, hHead, hLine⟩ := exists_lineStart before
    have hBoth : '\n' ∉ line ++ between := by simp [hLine, hFeed]
    have hPos : 0 < between.length := by
      refine List.length_pos_of_ne_nil ?_
      rintro rfl
      simp at h
    rw [List.append_assoc head, rtakeWhile_of_lineStart hHead hLine,
      rtakeWhile_of_lineStart hHead hBoth]
    simp only [List.count_append, List.count_eq_zero_of_not_mem hFeed, List.length_append]
    exact ⟨rfl, by omega⟩

/-- A slice without line feeds is part of one line. -/
theorem length_lt {text rest : List Char} (hNumbered : Numbered (before ++ (text ++ rest)))
    (hInside : '\n' ∉ text) : text.length + 1 < UInt32.size := by
  obtain ⟨head, line, rfl, hHead, hLine⟩ := exists_lineStart before
  have hBoth : '\n' ∉ line ++ text := by simp [hLine, hInside]
  rw [List.append_assoc head, ← List.append_assoc line, ← List.append_assoc head] at hNumbered
  have hColumn := column_lt hNumbered
  rw [rtakeWhile_of_lineStart hHead hBoth, List.length_append] at hColumn
  omega

/-- From the start of its line up to an offset there is no line feed. -/
theorem not_mem_of_slice? {start stop : Nat} {text : List Char}
    (hStart : lineFeedsBefore cs start = lineFeedsBefore cs offset)
    (hStop : stop = start ∨ stop ≤ offset) (hSlice : slice? start stop cs = some text) :
    '\n' ∉ text := by
  obtain ⟨before, rest, rfl, rfl, rfl⟩ := slice?_eq_some_iff.mp hSlice
  rcases hStop with hNone | hLe
  · have hEmpty : text = [] := by
      have hLength := length_le_byteLength text
      exact List.length_eq_zero_iff.mp (by omega)
    rw [hEmpty]
    exact List.not_mem_nil
  · have hFeeds := lineFeedsBefore_mono (before ++ (text ++ rest)) hLe
    have hEnd := lineFeedsBefore_append (before ++ text) rest
    rw [List.append_assoc, byteLength_append, List.count_append] at hEnd
    rw [lineFeedsBefore_append] at hStart
    exact List.count_eq_zero.mp (by omega)

/-- The column of any offset is counted from one. -/
theorem column_pos (hNumbered : Numbered cs) (offset : Nat) :
    1 ≤ ((ofText cs).position cs offset).2.toNat := by
  obtain ⟨head, line, rest, hLine, hCount⟩ := exists_lineIn_of_le (lineFeedsBefore_le cs offset)
  have hLineStart := hLine.lineStart?_eq (hLine.count_lt hNumbered)
  have hStart : lineFeedsBefore cs (byteLength head) = lineFeedsBefore cs offset := by
    rw [hLine.text, lineFeedsBefore_append, hCount, hLine.text]
  rw [position, lineAt_eq hNumbered.size, ← hCount, hLineStart, Option.getD_some,
    hLine.toNat_start hNumbered.size]
  dsimp only
  generalize hStop : max (byteLength head) (min offset (byteLength cs)) = stop
  cases hSlice : slice? (byteLength head) stop cs with
  | none =>
    rw [Option.elim_none, toNat_ordinal (by decide)]
  | some text =>
    have hInside := not_mem_of_slice? hStart (by omega) hSlice
    obtain ⟨before, rest', hText, -⟩ := slice?_eq_some_iff.mp hSlice
    rw [Option.elim_some, toNat_ordinal (length_lt (hText ▸ hNumbered) hInside)]
    exact Nat.le_add_left 1 _

/-- The numbered lines are the pieces between line feeds. -/
theorem lineText?_eq_piece {k : Nat} (hNumbered : Numbered cs) (h : k < (ofText cs).count) :
    ∃ piece, (cs.splitOn '\n')[k]? = some piece ∧
      (ofText cs).lineText? cs (ordinal k) = some (piece.rdropWhile (· = '\r')) := by
  rw [count_eq] at h
  obtain ⟨head, line, rest, hLine, rfl⟩ := exists_lineIn_of_le (Nat.le_of_lt_succ h)
  exact ⟨line, hLine.splitOn_eq, hLine.lineText?_eq hNumbered.size hNumbered.count_lt⟩

/-- Positions belong to their offsets only where the numbers of lines and columns fit words. -/
theorem numbers_fit_of_locates (hLocates : ∀ offset, IsBoundary cs offset →
      Locates cs offset ((ofText cs).position cs offset).1 ((ofText cs).position cs offset).2) :
    cs.count '\n' + 1 < UInt32.size ∧
      ∀ line ∈ cs.splitOn '\n', line.length + 1 < UInt32.size := by
  constructor
  · have hEnd : IsBoundary cs (byteLength cs) :=
      isBoundary_iff.mpr ⟨cs, [], (List.append_nil cs).symm, rfl⟩
    have hLine := (hLocates _ hEnd).line_eq
    have hFeeds := lineFeedsBefore_append cs []
    rw [List.append_nil] at hFeeds
    rw [← hFeeds, ← hLine]
    exact UInt32.toNat_lt_size _
  · intro line hMem
    obtain ⟨head, rest, hLine⟩ := exists_lineIn_of_mem hMem
    have hEnd : IsBoundary cs (byteLength (head ++ line)) :=
      isBoundary_iff.mpr ⟨head ++ line, rest, by simp [hLine.text], rfl⟩
    obtain ⟨before, after, hText, hBefore, hColumn⟩ := (hLocates _ hEnd).column_eq
    have hSame : before = head ++ line := by
      have hCut := takeBytes?_append before after
      rw [hBefore, ← hText, hLine.text, ← List.append_assoc, takeBytes?_append] at hCut
      exact (Option.some.inj hCut).symm
    rw [hSame, rtakeWhile_of_lineStart hLine.starts hLine.inside] at hColumn
    rw [← hColumn]
    exact UInt32.toNat_lt_size _

end LineTable

/-! ## What is shown for an offset -/

/-- What is shown for an offset, whatever the offset is: the line on which it lies, with the place
in the source at which the shown text starts, and the column of the offset. -/
structure ShownAt (cs : List Char) (offset : Nat) (line column first : UInt32)
    (shown : List Char) : Prop where
  position : (LineTable.ofText cs).position cs offset = (line, column)
  start : (LineTable.ofText cs).lineStart? line = some first
  text : (LineTable.ofText cs).lineText? cs line = some shown
  stands : ∃ more, dropBytes? first.toNat cs = some (shown ++ more)
  column_pos : 1 ≤ column.toNat

theorem exists_shownAt {cs : List Char} (hNumbered : Numbered cs) (offset : Nat) :
    ∃ line column first shown, ShownAt cs offset line column first shown := by
  obtain ⟨head, line, rest, hLine, hCount⟩ := exists_lineIn_of_le (lineFeedsBefore_le cs offset)
  have hLineAt : ((LineTable.ofText cs).position cs offset).1 = ordinal (head.count '\n') := by
    rw [hCount]
    exact LineTable.lineAt_eq hNumbered.size offset
  have hStart := hLine.lineStart?_eq (hLine.count_lt hNumbered)
  obtain ⟨gone, hGone⟩ := List.rdropWhile_prefix (· = '\r') line
  refine ⟨ordinal (head.count '\n'), ((LineTable.ofText cs).position cs offset).2, _,
    line.rdropWhile (· = '\r'), Prod.ext hLineAt rfl, hStart,
    hLine.lineText?_eq hNumbered.size hNumbered.count_lt, ⟨gone ++ rest, ?_⟩,
    LineTable.column_pos hNumbered offset⟩
  rw [hLine.toNat_start hNumbered.size]
  refine dropBytes?_eq_some_iff.mpr ⟨head, ?_, rfl⟩
  rw [hLine.text, ← List.append_assoc (line.rdropWhile (· = '\r')), hGone]

/-! ## The theorem -/

/-- Lines and columns are exact where their numbers fit words. The line of an offset counts line
feeds, and is the one found by searching the starts. At a boundary line and column belong to the
offset, and both together increase strictly. The lines with the numbers from one on are the pieces
between line feeds, without the carriage returns at their ends, and there are no others. -/
theorem positions_exact {cs : List Char} (hNumbered : Numbered cs) :
    (∀ offset, ((LineTable.ofText cs).lineAt offset).toNat = lineFeedsBefore cs offset + 1) ∧
    (∀ offset i start, (LineTable.ofText cs).starts[i]? = some start → start.toNat ≤ offset →
      (∀ next, (LineTable.ofText cs).starts[i + 1]? = some next → offset < next.toNat) →
      ((LineTable.ofText cs).lineAt offset).toNat = i + 1) ∧
    (∀ offset line column, IsBoundary cs offset →
      (LineTable.ofText cs).position cs offset = (line, column) →
      LineTable.Locates cs offset line column) ∧
    (∀ a b, IsBoundary cs a → IsBoundary cs b → a < b →
      toLex ((LineTable.ofText cs).position cs a) < toLex ((LineTable.ofText cs).position cs b)) ∧
    (∀ line : UInt32, 1 ≤ line.toNat → line.toNat ≤ (LineTable.ofText cs).count →
      ∃ piece, (cs.splitOn '\n')[line.toNat - 1]? = some piece ∧
        (LineTable.ofText cs).lineText? cs line = some (piece.rdropWhile (· = '\r'))) ∧
    ∀ line : UInt32, ¬ (1 ≤ line.toNat ∧ line.toNat ≤ (LineTable.ofText cs).count) →
      (LineTable.ofText cs).lineText? cs line = none := by
  have hSize := hNumbered.size
  refine ⟨fun offset => ?_, fun offset i start hStart hLe hNext => ?_, ?_,
    fun a b => LineTable.position_lt hNumbered, fun line hPos hLe => ?_, fun line hOutside => ?_⟩
  · have hFeeds := lineFeedsBefore_le cs offset
    rw [LineTable.lineAt_eq hSize, toNat_ordinal]
    exact Nat.lt_of_le_of_lt (Nat.succ_le_succ hFeeds) hNumbered.count_lt
  · obtain ⟨hIndex, -⟩ := List.getElem?_eq_some_iff.mp hStart
    have hCount : i + 1 ≤ (LineTable.ofText cs).count := hIndex
    rw [LineTable.count_eq] at hCount
    rw [LineTable.lineAt_of_start hSize hStart hLe hNext, toNat_ordinal]
    exact Nat.lt_of_le_of_lt hCount hNumbered.count_lt
  · intro offset line column hBoundary hPosition
    have hLocates := LineTable.locates_position hNumbered hBoundary
    rwa [hPosition] at hLocates
  · obtain ⟨piece, hPiece, hText⟩ :=
      LineTable.lineText?_eq_piece hNumbered (Nat.lt_of_lt_of_le (Nat.sub_one_lt (by omega)) hLe)
    rw [ordinal_toNat_sub_one hPos] at hText
    exact ⟨piece, hPiece, hText⟩
  · have hStart : (LineTable.ofText cs).lineStart? line = none := by
      by_cases hZero : line = 0
      · rw [hZero]
        rfl
      · have hPos : 1 ≤ line.toNat :=
          Nat.one_le_iff_ne_zero.mpr fun h => hZero (UInt32.toNat_inj.mp h)
        have hBehind : (LineTable.ofText cs).count ≤ line.toNat - 1 := by omega
        rw [LineTable.lineStart?_of_ne_zero _ hZero, List.getElem?_eq_none hBehind]
    rw [LineTable.lineText?, hStart, Option.bind_none]

/-- A line with a carriage return, an empty line, and a line without a line feed. -/
def threeLines : List Char := ['é', '\r', '\n', '\n', 'a', 'b']

/-- The line feed behind the carriage return and the second character of the last line. -/
theorem positions_exact_threeLines :
    byteLength threeLines + 2 < UInt32.size ∧ IsBoundary threeLines 3 ∧ IsBoundary threeLines 6 ∧
    (LineTable.ofText threeLines).lineAt 1 = 1 ∧ (LineTable.ofText threeLines).lineAt 4 = 2 ∧
    (LineTable.ofText threeLines).position threeLines 6 = (3, 2) ∧
    LineTable.Locates threeLines 6 3 2 ∧
    toLex ((LineTable.ofText threeLines).position threeLines 3)
      < toLex ((LineTable.ofText threeLines).position threeLines 6) ∧
    (∃ piece, (threeLines.splitOn '\n')[0]? = some piece ∧
      (LineTable.ofText threeLines).lineText? threeLines 1
        = some (piece.rdropWhile (· = '\r'))) ∧
    (LineTable.ofText threeLines).lineText? threeLines 4 = none := by
  have hSize : byteLength threeLines + 2 < UInt32.size := by decide
  obtain ⟨hLine, hSearch, hLocates, hLater, hPiece, hNone⟩ :=
    positions_exact (numbered_of_byteLength hSize)
  have hFeed : IsBoundary threeLines 3 := by decide
  have hLast : IsBoundary threeLines 6 := by decide
  have hPosition : (LineTable.ofText threeLines).position threeLines 6 = (3, 2) := by decide
  have hSecond : ((LineTable.ofText threeLines).lineAt 4).toNat = 2 := by
    refine hSearch 4 1 4 (by decide) (by decide) ?_
    intro next hNext
    obtain rfl : 5 = next := Option.some.inj hNext
    decide
  exact ⟨hSize, hFeed, hLast, UInt32.toNat_inj.mp (hLine 1), UInt32.toNat_inj.mp hSecond,
    hPosition, hLocates 6 3 2 hLast hPosition, hLater 3 6 hFeed hLast (by decide),
    hPiece 1 (by decide) (by decide), hNone 4 (by decide)⟩

/-! ## One number too many -/

theorem byteLength_replicate {c : Char} (h : c.utf8Size = 1) (n : Nat) :
    byteLength (List.replicate n c) = n := by
  induction n with
  | zero => rfl
  | succ n ih => rw [List.replicate_succ, byteLength_cons, ih, h, Nat.add_comm]

/-- The end of a text of line feeds, where their number is the last word. -/
theorem lineAt_replicate {n : Nat} (h : n + 1 = UInt32.size) :
    let cs := List.replicate n '\n'
    byteLength cs < UInt32.size ∧ IsBoundary cs n ∧ lineFeedsBefore cs n = n ∧
      (LineTable.ofText cs).lineAt n = 0 := by
  intro cs
  have hLength : byteLength cs = n := byteLength_replicate rfl n
  have hSize : byteLength cs < UInt32.size := by omega
  have hFeeds := lineFeedsBefore_append cs []
  rw [List.append_nil, hLength, List.count_replicate_self] at hFeeds
  refine ⟨hSize, isBoundary_iff.mpr ⟨cs, [], (List.append_nil cs).symm, hLength⟩, hFeeds, ?_⟩
  rw [LineTable.lineAt_eq hSize, hFeeds, ordinal_eq_zero h]

section Letters

variable {n : Nat} {c : Char} (h : n + 1 = UInt32.size) (hFeed : c ≠ '\n')
  (hByte : c.utf8Size = 1)

theorem lineIn_replicate (n : Nat) (hFeed : c ≠ '\n') :
    LineIn (List.replicate n c) [] (List.replicate n c) [] :=
  ⟨(List.append_nil _).symm, .first, fun hMem => hFeed (List.eq_of_mem_replicate hMem).symm, .last⟩

include h hFeed hByte

/-- The end of a line of letters, where their number is the last word. -/
theorem position_replicate :
    (LineTable.ofText (List.replicate n c)).position (List.replicate n c) n = (1, 0) := by
  have hLength : byteLength (List.replicate n c) = n := byteLength_replicate hByte n
  have hLine := lineIn_replicate n hFeed
  rw [← List.append_nil (List.replicate n c)] at hLine
  have hPosition := hLine.position_eq (by simp [hLength]; omega) (by decide)
  rw [List.append_nil, List.nil_append, hLength, List.length_replicate, ordinal_eq_zero h]
    at hPosition
  exact hPosition

/-- The text of such a line. -/
theorem lineText?_replicate (hReturn : c ≠ '\r') :
    (LineTable.ofText (List.replicate n c)).lineText? (List.replicate n c) 1
      = some (List.replicate n c) := by
  have hLength : byteLength (List.replicate n c) = n := byteLength_replicate hByte n
  have hLine := lineIn_replicate n hFeed
  have hNone : (List.replicate n c).count '\n' = 0 := List.count_eq_zero_of_not_mem hLine.inside
  have hText := hLine.lineText?_eq (by omega) (by rw [hNone]; decide)
  have hTrim : (List.replicate n c).rdropWhile (· = '\r') = List.replicate n c := by
    refine List.rdropWhile_eq_self_iff.mpr fun hSome => ?_
    rw [List.eq_of_mem_replicate (List.getLast_mem hSome)]
    simpa using hReturn
  rw [hTrim] at hText
  exact hText

end Letters

/-- Behind 4294967295 line feeds the line has no number that fits a word, and behind as many letters
on one line the column has none; both wrap around to zero. -/
theorem positions_wrap_around :
    (let cs := List.replicate 4294967295 '\n'
    byteLength cs < UInt32.size ∧ IsBoundary cs 4294967295 ∧
      lineFeedsBefore cs 4294967295 = 4294967295 ∧
      (LineTable.ofText cs).lineAt 4294967295 = 0) ∧
    (LineTable.ofText (List.replicate 4294967295 'a')).position (List.replicate 4294967295 'a')
      4294967295 = (1, 0) :=
  ⟨lineAt_replicate rfl, position_replicate rfl (by decide) rfl⟩

end FeatherScript
