import FeatherScript.Proofs.Source.Bytes
import FeatherScript.Source.Lines
import Mathlib.Data.List.DropRight

/-!
# Lines of a text

A line table is read off the places of the line feeds, and holds words. In a text of less than four
gigabytes its starts are exact, and numbers of lines and columns are exact as long as they fit
words. So a text is cut around one of its lines, and what the table says about that line is read off
the cut.

* `toNat_ordinal`, `ordinal_eq_zero`: numbers that fit words, and the one that does not.
* `LineTable.map_toNat_starts`, `LineTable.lineAt_eq`: the starts, and the line that is found among
  them.
* `LineIn`: a text is cut around one of its lines.
* `Numbered`: all lines and columns of a text have numbers that fit words.
* `LineIn.position_eq`, `LineIn.lineText?_eq`: what the table says about a line.
-/

namespace FeatherScript

open Text

/-! ## Numbers in words -/

theorem ordinal_eq {n : Nat} (h : n < UInt32.size) : ordinal n = UInt32.ofNat (n + 1) := by
  rw [ordinal, if_pos h, UInt32.ofNat_add]
  rfl

theorem toNat_ordinal {n : Nat} (h : n + 1 < UInt32.size) : (ordinal n).toNat = n + 1 := by
  rw [ordinal_eq (Nat.lt_of_succ_lt h), UInt32.toNat_ofNat_of_lt' h]

/-- The first number that is too large for a word. -/
theorem ordinal_eq_zero {n : Nat} (h : n + 1 = UInt32.size) : ordinal n = 0 := by
  rw [ordinal_eq (h ▸ Nat.lt_succ_self n), h, UInt32.ofNat_size]

theorem ordinal_toNat_sub_one {line : UInt32} (h : 1 ≤ line.toNat) :
    ordinal (line.toNat - 1) = line := by
  have hLt := line.toNat_lt_size
  rw [← UInt32.toNat_inj, toNat_ordinal (by omega), Nat.sub_add_cancel h]

theorem ordinal_add_one {n : Nat} (h : n + 1 < UInt32.size) : ordinal n + 1 = ordinal (n + 1) := by
  rw [ordinal_eq (Nat.lt_of_succ_lt h), ordinal, if_pos h]

/-! ## The starts of the lines -/

namespace LineTable

theorem startsAfter_append (offset : Nat) (xs ys : List Char) :
    startsAfter offset (xs ++ ys)
      = startsAfter offset xs ++ startsAfter (offset + byteLength xs) ys := by
  induction xs generalizing offset with
  | nil => rfl
  | cons c cs ih =>
    rw [List.cons_append, startsAfter, startsAfter, byteLength_cons, ← Nat.add_assoc]
    split
    · next hFeed =>
      subst hFeed
      rw [ih, List.cons_append]
      rfl
    · rw [ih]

theorem length_startsAfter (offset : Nat) (cs : List Char) :
    (startsAfter offset cs).length = cs.count '\n' := by
  induction cs generalizing offset with
  | nil => rfl
  | cons c cs ih =>
    rw [startsAfter]
    split
    · next hFeed =>
      subst hFeed
      rw [List.length_cons, ih, List.count_cons_self]
    · next hOther => rw [ih, List.count_cons_of_ne hOther]

/-- The starts up to an offset are as many as the line feeds among the bytes up to there. -/
theorem countP_startsAfter (first offset : Nat) (cs : List Char) :
    (startsAfter first cs).countP (· ≤ offset) = lineFeedsBefore cs (offset - first) := by
  unfold lineFeedsBefore
  induction cs generalizing first with
  | nil => simp [startsAfter, bytes]
  | cons c cs ih =>
    rw [startsAfter, bytes_cons]
    split
    · next hFeed =>
      subst hFeed
      rw [List.countP_cons, ih, encode_lineFeed, List.singleton_append]
      obtain hBefore | ⟨k, hBehind⟩ : offset ≤ first ∨ ∃ k, offset = first + 1 + k := by
        rcases Nat.lt_or_ge first offset with hLt | hLe
        · exact .inr ⟨offset - (first + 1), by omega⟩
        · exact .inl hLe
      · have hNot : ¬ first + 1 ≤ offset := by omega
        simp [hNot, show offset - (first + 1) = 0 by omega, show offset - first = 0 by omega]
      · have hLe : first + 1 ≤ offset := by omega
        rw [show offset - (first + 1) = k by omega, show offset - first = k + 1 by omega,
          List.take_succ_cons, List.count_cons_self]
        simp [hLe]
    · next hOther =>
      have hNone : lineFeed ∉ (String.utf8EncodeChar c).take (offset - first) :=
        fun hMem => lineFeed_not_mem_encode hOther (List.mem_of_mem_take hMem)
      rw [ih, List.take_append, List.count_append, List.count_eq_zero_of_not_mem hNone,
        String.length_utf8EncodeChar, Nat.zero_add, Nat.sub_sub]

theorem lt_of_mem_startsAfter {first start : Nat} {cs : List Char}
    (h : start ∈ startsAfter first cs) : first < start := by
  induction cs generalizing first with
  | nil => cases h
  | cons c cs ih =>
    rw [startsAfter] at h
    split at h
    · rcases List.mem_cons.mp h with rfl | hMem
      · exact Nat.lt_succ_self first
      · exact Nat.lt_of_succ_lt (ih hMem)
    · exact Nat.lt_of_le_of_lt (Nat.le_add_right _ _) (ih h)

theorem pairwise_startsAfter (first : Nat) (cs : List Char) :
    (startsAfter first cs).Pairwise (· < ·) := by
  induction cs generalizing first with
  | nil => exact .nil
  | cons c cs ih =>
    rw [startsAfter]
    split
    · exact .cons (fun start => lt_of_mem_startsAfter) (ih _)
    · exact ih _

theorem le_of_mem_startsAfter {first start : Nat} {cs : List Char}
    (h : start ∈ startsAfter first cs) : start ≤ first + byteLength cs := by
  induction cs generalizing first with
  | nil => cases h
  | cons c cs ih =>
    have hPos := c.utf8Size_pos
    rw [byteLength_cons]
    rw [startsAfter] at h
    split at h
    · rcases List.mem_cons.mp h with rfl | hMem
      · omega
      · have hLe := ih hMem
        omega
    · have hLe := ih h
      omega

/-! ## A table in words -/

variable {cs : List Char} {k : Nat}

theorem lineStart?_of_ne_zero (t : LineTable) {line : UInt32} (h : line ≠ 0) :
    t.lineStart? line = t.starts[line.toNat - 1]? := by
  have hPos : 1 ≤ line.toNat :=
    Nat.one_le_iff_ne_zero.mpr fun hZero => h (UInt32.toNat_inj.mp hZero)
  have hOne : 1 ≤ line := UInt32.le_iff_toNat_le.mpr hPos
  rw [lineStart?, if_neg h, UInt32.toNat_sub_of_le _ _ hOne]
  rfl

theorem lineStart?_ordinal (t : LineTable) (h : k + 1 < UInt32.size) :
    t.lineStart? (ordinal k) = t.starts[k]? := by
  have hValue := toNat_ordinal h
  rw [lineStart?_of_ne_zero t, hValue, Nat.add_sub_cancel]
  rintro hZero
  rw [hZero] at hValue
  cases hValue

/-- Behind the last line there is no other, whether its number fits a word or wraps around. -/
theorem lineStart?_eq_none {t : LineTable} (h : t.starts.length ≤ k) (hSize : k < UInt32.size) :
    t.lineStart? (ordinal k) = none := by
  rcases Nat.lt_or_eq_of_le (Nat.succ_le_of_lt hSize) with hLt | hEq
  · rw [lineStart?_ordinal t hLt, List.getElem?_eq_none h]
  · rw [ordinal_eq_zero hEq]
    rfl

/-- In a text of less than four gigabytes the starts are exact. -/
theorem map_toNat_starts (h : byteLength cs < UInt32.size) :
    (ofText cs).starts.map UInt32.toNat = 0 :: startsAfter 0 cs := by
  have hExact : ∀ start ∈ startsAfter 0 cs, (UInt32.ofNatClamp start).toNat = start := by
    intro start hMem
    have hLe := le_of_mem_startsAfter hMem
    exact UInt32.toNat_ofNatClamp_of_lt (by omega)
  have hMap : (startsAfter 0 cs).map (UInt32.toNat ∘ UInt32.ofNatClamp) = startsAfter 0 cs :=
    (List.map_congr_left hExact).trans (List.map_id _)
  rw [ofText, List.map_cons, List.map_map, hMap]
  rfl

theorem count_eq (cs : List Char) : (ofText cs).count = cs.count '\n' + 1 := by
  rw [count, ofText, List.length_cons, List.length_map, length_startsAfter]

/-- The starts increase, so that they can be searched by halving. -/
theorem pairwise_starts (h : byteLength cs < UInt32.size) :
    (ofText cs).starts.Pairwise fun a b => a.toNat < b.toNat := by
  rw [← List.pairwise_map (f := UInt32.toNat) (R := (· < ·)), map_toNat_starts h]
  exact .cons (fun _ => lt_of_mem_startsAfter) (pairwise_startsAfter 0 cs)

/-- The line of an offset is the one behind as many line feeds as there are up to there. -/
theorem lineAt_eq (h : byteLength cs < UInt32.size) (offset : Nat) :
    (ofText cs).lineAt offset = ordinal (lineFeedsBefore cs offset) := by
  have hCount : (ofText cs).starts.countP (·.toNat ≤ offset) = lineFeedsBefore cs offset + 1 := by
    have hMap := List.countP_map (p := fun start => decide (start ≤ offset)) (f := UInt32.toNat)
      (l := (ofText cs).starts)
    rw [map_toNat_starts h, List.countP_cons_of_pos (by simp), countP_startsAfter,
      Nat.sub_zero] at hMap
    exact hMap.symm
  rw [lineAt, hCount, Nat.add_sub_cancel]

/-- The line of an offset is the one with the last start up to the offset, wherever a search finds
that start. -/
theorem lineAt_of_start {offset i : Nat} {start : UInt32} (h : byteLength cs < UInt32.size)
    (hStart : (ofText cs).starts[i]? = some start) (hLe : start.toNat ≤ offset)
    (hNext : ∀ next, (ofText cs).starts[i + 1]? = some next → offset < next.toNat) :
    (ofText cs).lineAt offset = ordinal i := by
  obtain ⟨hIndex, hGet⟩ := List.getElem?_eq_some_iff.mp hStart
  have hSorted := List.pairwise_iff_getElem.mp (pairwise_starts h)
  rw [lineAt, ← List.take_append_drop (i + 1) (ofText cs).starts, List.countP_append]
  have hEarly : ((ofText cs).starts.take (i + 1)).countP (·.toNat ≤ offset) = i + 1 := by
    rw [List.countP_eq_length.mpr]
    · exact List.length_take_of_le (Nat.succ_le_of_lt hIndex)
    · intro s hMem
      obtain ⟨j, hj, rfl⟩ := List.mem_take_iff_getElem.mp hMem
      have hUpTo : (ofText cs).starts[j].toNat ≤ start.toNat := by
        rcases Nat.lt_or_eq_of_le (Nat.le_of_lt_succ (Nat.lt_min.mp hj).1) with hLt | rfl
        · exact Nat.le_of_lt (hGet ▸ hSorted j i _ hIndex hLt)
        · exact Nat.le_of_eq (congrArg UInt32.toNat hGet)
      simpa using Nat.le_trans hUpTo hLe
  have hLate : ((ofText cs).starts.drop (i + 1)).countP (·.toNat ≤ offset) = 0 := by
    rw [List.countP_eq_zero]
    intro s hMem
    obtain ⟨j, hj, rfl⟩ := List.mem_drop_iff_getElem.mp hMem
    have hFirst := hNext _ (List.getElem?_eq_getElem (by omega))
    have hFrom : (ofText cs).starts[i + 1].toNat ≤ (ofText cs).starts[i + 1 + j].toNat := by
      rcases Nat.eq_zero_or_pos j with rfl | hPos
      · exact Nat.le_refl _
      · exact Nat.le_of_lt (hSorted _ _ _ _ (by omega))
    simpa using Nat.lt_of_lt_of_le hFirst hFrom
  rw [hEarly, hLate, Nat.add_zero, Nat.add_sub_cancel]

end LineTable

/-! ## Lines of a text -/

/-- A text in front of which or behind whose last line feed a line starts. -/
inductive LineStart : List Char → Prop
  | first : LineStart []
  | feed (before : List Char) : LineStart (before ++ ['\n'])

/-- A text before which a line ends. -/
inductive LineEnd : List Char → Prop
  | last : LineEnd []
  | feed (more : List Char) : LineEnd ('\n' :: more)

/-- A text is cut around one of its lines. -/
structure LineIn (cs head line rest : List Char) : Prop where
  text : cs = head ++ (line ++ rest)
  starts : LineStart head
  inside : '\n' ∉ line
  ends : LineEnd rest

theorem exists_lineStart (before : List Char) :
    ∃ head line, before = head ++ line ∧ LineStart head ∧ '\n' ∉ line := by
  induction before using List.reverseRecOn with
  | nil => exact ⟨[], [], rfl, .first, by simp⟩
  | append_singleton before c ih =>
    by_cases hFeed : c = '\n'
    · subst hFeed
      exact ⟨before ++ ['\n'], [], by simp, .feed before, by simp⟩
    · obtain ⟨head, line, rfl, hHead, hLine⟩ := ih
      refine ⟨head, line ++ [c], by simp, hHead, ?_⟩
      simp [hLine, Ne.symm hFeed]

theorem exists_lineEnd (after : List Char) :
    ∃ line rest, after = line ++ rest ∧ '\n' ∉ line ∧ LineEnd rest := by
  induction after with
  | nil => exact ⟨[], [], rfl, by simp, .last⟩
  | cons c after ih =>
    by_cases hFeed : c = '\n'
    · subst hFeed
      exact ⟨[], '\n' :: after, rfl, by simp, .feed after⟩
    · obtain ⟨line, rest, rfl, hLine, hRest⟩ := ih
      exact ⟨c :: line, rest, rfl, by simp [hLine, Ne.symm hFeed], hRest⟩

/-- The line on which a first part of a text ends. -/
theorem exists_lineIn (before after : List Char) :
    ∃ head line more rest, before = head ++ line ∧ after = more ++ rest ∧
      LineIn (before ++ after) head (line ++ more) rest := by
  obtain ⟨head, line, rfl, hHead, hLine⟩ := exists_lineStart before
  obtain ⟨more, rest, rfl, hMore, hRest⟩ := exists_lineEnd after
  exact ⟨head, line, more, rest, rfl, rfl, by simp, hHead, by simp [hLine, hMore], hRest⟩

/-- There is one piece more than there are line feeds between them. -/
theorem length_splitOn (cs : List Char) : (cs.splitOn '\n').length = cs.count '\n' + 1 := by
  rw [List.splitOn]
  induction cs with
  | nil => rfl
  | cons c cs ih =>
    rw [List.splitOnP_cons_eq_if_modifyHead]
    by_cases hFeed : c = '\n'
    · simp [hFeed, ih]
    · simp [hFeed, ih]

/-- A text has a line behind each number of line feeds that it contains. -/
theorem exists_lineIn_of_le {cs : List Char} {k : Nat} (h : k ≤ cs.count '\n') :
    ∃ head line rest, LineIn cs head line rest ∧ head.count '\n' = k := by
  obtain ⟨head, tail, rfl, hHead, hCount⟩ :
      ∃ head tail, cs = head ++ tail ∧ LineStart head ∧ head.count '\n' = k := by
    induction k with
    | zero => exact ⟨[], cs, rfl, .first, rfl⟩
    | succ k ih =>
      obtain ⟨head, tail, rfl, -, hCount⟩ := ih (Nat.le_of_succ_le h)
      have hFeed : '\n' ∈ tail := by
        rw [List.count_append] at h
        exact List.count_pos_iff.mp (by omega)
      obtain ⟨line, rest, rfl, hLine⟩ := List.eq_append_cons_of_mem hFeed
      refine ⟨head ++ line ++ ['\n'], rest, by simp, .feed _, ?_⟩
      simp [List.count_eq_zero_of_not_mem hLine, hCount]
  obtain ⟨line, rest, rfl, hLine, hRest⟩ := exists_lineEnd tail
  exact ⟨head, line, rest, ⟨rfl, hHead, hLine, hRest⟩, hCount⟩

/-- Of a text without line feeds, those characters are trimmed that are carriage returns. -/
theorem trimEnd_line {line : List Char} (h : '\n' ∉ line) :
    trimEnd (fun c => c = '\n' || c = '\r') line = line.rdropWhile (· = '\r') := by
  change line.rdropWhile (fun c => c = '\n' || c = '\r') = _
  induction line using List.reverseRecOn with
  | nil => rfl
  | append_singleton line c ih =>
    simp only [List.mem_append, List.mem_singleton, not_or] at h
    rw [List.rdropWhile_concat, List.rdropWhile_concat]
    by_cases hReturn : c = '\r'
    · simpa [hReturn] using ih h.1
    · simp [hReturn, Ne.symm h.2]

/-! ## Texts whose lines and columns have numbers -/

namespace LineIn

variable {cs head line rest : List Char}

/-- A line is the piece of the text behind as many line feeds. -/
theorem splitOn_eq (h : LineIn cs head line rest) :
    (cs.splitOn '\n')[head.count '\n']? = some line := by
  have hOther : ∀ c ∈ line, (c == '\n') = false := by
    intro c hMem
    simp only [beq_eq_false_iff_ne]
    rintro rfl
    exact h.inside hMem
  have hFirst : ((line ++ rest).splitOn '\n')[0]? = some line := by
    cases h.ends with
    | last => simp [List.splitOn, List.splitOnP_eq_singleton hOther]
    | feed more => simp [List.splitOn, List.splitOnP_append_cons_of_forall_mem hOther]
  rw [h.text]
  cases h.starts with
  | first => exact hFirst
  | feed before =>
    have hSplit : (before ++ '\n' :: (line ++ rest)).splitOn '\n'
        = before.splitOn '\n' ++ (line ++ rest).splitOn '\n' :=
      List.splitOnP_append_cons before (line ++ rest) (beq_self_eq_true '\n')
    rw [List.append_assoc, List.singleton_append, hSplit, List.count_append,
      List.count_singleton_self, ← length_splitOn,
      List.getElem?_append_right (Nat.le_refl _), Nat.sub_self]
    exact hFirst

theorem mem_splitOn (h : LineIn cs head line rest) : line ∈ cs.splitOn '\n' :=
  List.mem_of_getElem? h.splitOn_eq

variable {before after : List Char}

theorem not_mem_left (h : LineIn cs head (before ++ after) rest) : '\n' ∉ before :=
  fun hMem => h.inside (List.mem_append_left after hMem)

/-- The line feeds before a place on a line are those before the line. -/
theorem count_left (h : LineIn cs head (before ++ after) rest) :
    (head ++ before).count '\n' = head.count '\n' := by
  rw [List.count_append, List.count_eq_zero_of_not_mem h.not_mem_left, Nat.add_zero]

end LineIn

/-- The pieces of a text are its lines. -/
theorem exists_lineIn_of_mem {cs line : List Char} (h : line ∈ cs.splitOn '\n') :
    ∃ head rest, LineIn cs head line rest := by
  obtain ⟨k, hPiece⟩ := List.mem_iff_getElem?.mp h
  obtain ⟨hIndex, -⟩ := List.getElem?_eq_some_iff.mp hPiece
  rw [length_splitOn] at hIndex
  obtain ⟨head, own, rest, hLine, rfl⟩ := exists_lineIn_of_le (Nat.le_of_lt_succ hIndex)
  obtain rfl := Option.some.inj (hLine.splitOn_eq.symm.trans hPiece)
  exact ⟨head, rest, hLine⟩

/-- All lines and columns of a text have numbers that fit words, and so have all offsets. The column
behind a line is among them, and so is the line behind the last one, whose start is asked for to
find the end of the last one. So no sum of numbers overflows. -/
structure Numbered (cs : List Char) : Prop where
  size : byteLength cs < UInt32.size
  lines : cs.count '\n' + 2 < UInt32.size
  columns : ∀ line ∈ cs.splitOn '\n', line.length + 1 < UInt32.size

theorem Numbered.count_lt {cs : List Char} (h : Numbered cs) :
    cs.count '\n' + 1 < UInt32.size :=
  Nat.lt_of_succ_lt h.lines

/-- This is so in any text of less than 4294967294 bytes. -/
theorem numbered_of_byteLength {cs : List Char} (h : byteLength cs + 2 < UInt32.size) :
    Numbered cs := by
  have hLength := length_le_byteLength cs
  refine ⟨by omega, ?_, fun line hMem => ?_⟩
  · have hCount : cs.count '\n' ≤ cs.length := List.count_le_length
    omega
  · obtain ⟨head, rest, hLine⟩ := exists_lineIn_of_mem hMem
    have hWhole := congrArg List.length hLine.text
    rw [List.length_append, List.length_append] at hWhole
    omega

/-! ## What a table says about a line -/

namespace LineTable

/-- Behind as many line feeds as a text has starts the next line. -/
theorem getElem?_starts {head : List Char} (h : LineStart head) (rest : List Char) :
    (ofText (head ++ rest)).starts[head.count '\n']? = some (.ofNatClamp (byteLength head)) := by
  cases h with
  | first => rfl
  | feed before =>
    have hCount : (before ++ ['\n']).count '\n' = before.count '\n' + 1 := by simp
    have hFeed : startsAfter 0 (before ++ ['\n'])
        = startsAfter 0 before ++ [byteLength before + 1] := by
      rw [startsAfter_append, Nat.zero_add]
      rfl
    rw [ofText, hCount, List.getElem?_cons_succ, List.getElem?_map, startsAfter_append, hFeed,
      ← length_startsAfter 0 before, List.append_assoc,
      List.getElem?_append_right (Nat.le_refl _), Nat.sub_self, byteLength_append]
    rfl

end LineTable

namespace LineIn

open LineTable

variable {cs head line rest : List Char}

theorem count_le (h : LineIn cs head line rest) : head.count '\n' ≤ cs.count '\n' := by
  rw [h.text, List.count_append]
  exact Nat.le_add_right _ _

theorem count_lt (h : LineIn cs head line rest) (hNumbered : Numbered cs) :
    head.count '\n' + 1 < UInt32.size :=
  Nat.lt_of_le_of_lt (Nat.succ_le_succ h.count_le) hNumbered.count_lt

theorem column_lt {before after : List Char} (h : LineIn cs head (before ++ after) rest)
    (hNumbered : Numbered cs) : before.length + 1 < UInt32.size := by
  have hColumns := hNumbered.columns _ h.mem_splitOn
  rw [List.length_append] at hColumns
  omega

theorem lineStart?_eq (h : LineIn cs head line rest) (hCount : head.count '\n' + 1 < UInt32.size) :
    (ofText cs).lineStart? (ordinal (head.count '\n')) = some (.ofNatClamp (byteLength head)) := by
  rw [lineStart?_ordinal _ hCount, h.text]
  exact getElem?_starts h.starts _

/-- A first part of a short text ends at a word. -/
theorem toNat_start (h : LineIn cs head line rest) (hSize : byteLength cs < UInt32.size) :
    (UInt32.ofNatClamp (byteLength head)).toNat = byteLength head := by
  rw [h.text, byteLength_append] at hSize
  exact UInt32.toNat_ofNatClamp_of_lt (by omega)

/-- The position of a boundary on a line. -/
theorem position_eq {before after : List Char} (h : LineIn cs head (before ++ after) rest)
    (hSize : byteLength cs < UInt32.size) (hCount : head.count '\n' + 1 < UInt32.size) :
    (ofText cs).position cs (byteLength (head ++ before))
      = (ordinal (head.count '\n'), ordinal before.length) := by
  have hText : cs = head ++ before ++ (after ++ rest) := by simp [h.text]
  have hLine : (ofText cs).lineAt (byteLength (head ++ before)) = ordinal (head.count '\n') := by
    rw [lineAt_eq hSize, hText, lineFeedsBefore_append, h.count_left]
  have hStop : max (byteLength head) (min (byteLength (head ++ before)) (byteLength cs))
      = byteLength head + byteLength before := by
    rw [hText]
    simp only [byteLength_append]
    omega
  have hSlice := slice?_append head before (after ++ rest)
  rw [← List.append_assoc, ← hText] at hSlice
  simp only [position, hLine, h.lineStart?_eq hCount, Option.getD_some, h.toNat_start hSize, hStop,
    hSlice, Option.elim_some]

/-- The text of a line, without the carriage returns at its end. -/
theorem lineText?_eq (h : LineIn cs head line rest) (hSize : byteLength cs < UInt32.size)
    (hLines : cs.count '\n' + 1 < UInt32.size) :
    (ofText cs).lineText? cs (ordinal (head.count '\n')) = some (line.rdropWhile (· = '\r')) := by
  have hText := h.text
  have hCount := h.count_le
  have hLine : trimEnd (fun c => c = '\n' || c = '\r') line = line.rdropWhile (· = '\r') :=
    trimEnd_line h.inside
  rw [lineText?, h.lineStart?_eq (by omega), Option.bind_some, h.toNat_start hSize,
    ordinal_add_one (by omega)]
  cases h.ends with
  | last =>
    have hLast : (ofText cs).lineStart? (ordinal (head.count '\n' + 1)) = none := by
      have hStarts : (ofText cs).starts.length = head.count '\n' + 1 := by
        rw [← LineTable.count, count_eq, hText]
        simp [List.count_eq_zero_of_not_mem h.inside]
      exact lineStart?_eq_none (Nat.le_of_eq hStarts) (by omega)
    have hSlice := slice?_append head line []
    rw [← hText] at hSlice
    have hLength : byteLength cs = byteLength head + byteLength line := by simp [hText]
    simp only [hLast, Option.elim_none, hLength, hSlice, Option.map_some, hLine]
  | feed more =>
    obtain ⟨next, hNext⟩ : ∃ next, next = head ++ (line ++ ['\n']) := ⟨_, rfl⟩
    have hWhole : cs = next ++ more := by simp [hText, hNext]
    have hFeeds : next.count '\n' = head.count '\n' + 1 := by
      simp [hNext, List.count_eq_zero_of_not_mem h.inside]
    have hStart : (ofText cs).lineStart? (ordinal (head.count '\n' + 1))
        = some (.ofNatClamp (byteLength next)) := by
      have hMore : next.count '\n' ≤ cs.count '\n' := by
        rw [hWhole, List.count_append]
        exact Nat.le_add_right _ _
      rw [← hFeeds, lineStart?_ordinal _ (by omega), hWhole]
      exact getElem?_starts (hNext ▸ List.append_assoc head line _ ▸ .feed (head ++ line)) more
    have hStop : (UInt32.ofNatClamp (byteLength next)).toNat = byteLength next := by
      rw [hWhole, byteLength_append] at hSize
      exact UInt32.toNat_ofNatClamp_of_lt (by omega)
    have hSlice := slice?_append head (line ++ ['\n']) more
    rw [← byteLength_append, ← hNext, List.append_assoc, List.singleton_append, ← hText] at hSlice
    simp only [hStart, Option.elim_some, hStop, hSlice, Option.map_some, Option.some.injEq]
    rw [← hLine]
    exact List.rdropWhile_concat_pos _ _ _ (by simp)

end LineIn

end FeatherScript
