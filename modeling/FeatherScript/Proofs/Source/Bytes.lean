import FeatherScript.Source.Text
import Mathlib.Data.List.Basic
import Mathlib.Tactic.SplitIfs

/-!
# Boundaries and bytes of a text

A boundary of a text is the end of a first part of it, and what lies between two boundaries is a
slice. In the encoding of a text the byte of the line feed stands for line feeds only, so the line
feeds before an offset can be counted among bytes or, at a boundary, among characters.

* `slice?_eq_some_iff`, `isBoundary_iff`, `exists_between`: cuts as first parts of the text.
* `bytes`: the encoding of a text.
* `lineFeedsBefore`: the line feeds among the first bytes of a text.
-/

namespace FeatherScript

/-! ## Cuts at boundaries -/

namespace Text

theorem dropBytes?_eq_some_iff {n : Nat} {cs rest : List Char} :
    dropBytes? n cs = some rest ↔ ∃ before, cs = before ++ rest ∧ byteLength before = n := by
  constructor
  · intro h
    induction cs generalizing n with
    | nil =>
      cases n with
      | zero => exact ⟨[], by simpa using h, rfl⟩
      | succ n => simp [dropBytes?] at h
    | cons c cs ih =>
      cases n with
      | zero => exact ⟨[], by simpa using h, rfl⟩
      | succ n =>
        rw [dropBytes?] at h
        obtain ⟨hFits, h⟩ := Option.ite_none_right_eq_some.mp h
        obtain ⟨before, rfl, hBefore⟩ := ih h
        refine ⟨c :: before, rfl, ?_⟩
        rw [byteLength_cons]
        omega
  · rintro ⟨before, rfl, rfl⟩
    exact dropBytes?_append before rest

theorem takeBytes?_eq_some_iff {n : Nat} {cs before : List Char} :
    takeBytes? n cs = some before ↔ ∃ rest, cs = before ++ rest ∧ byteLength before = n := by
  constructor
  · intro h
    induction cs generalizing n before with
    | nil =>
      cases n with
      | zero =>
        cases h
        exact ⟨[], rfl, rfl⟩
      | succ n => simp [takeBytes?] at h
    | cons c cs ih =>
      cases n with
      | zero =>
        cases h
        exact ⟨c :: cs, rfl, rfl⟩
      | succ n =>
        rw [takeBytes?] at h
        obtain ⟨hFits, h⟩ := Option.ite_none_right_eq_some.mp h
        obtain ⟨tail, hTail, rfl⟩ := Option.map_eq_some_iff.mp h
        obtain ⟨rest, rfl, hLength⟩ := ih hTail
        refine ⟨rest, rfl, ?_⟩
        rw [byteLength_cons]
        omega
  · rintro ⟨rest, rfl, rfl⟩
    exact takeBytes?_append before rest

/-- A slice is what lies between two boundaries. -/
theorem slice?_eq_some_iff {a b : Nat} {cs text : List Char} :
    slice? a b cs = some text ↔ ∃ before rest, cs = before ++ (text ++ rest) ∧
      byteLength before = a ∧ byteLength before + byteLength text = b := by
  constructor
  · intro h
    obtain ⟨hLe, h⟩ := Option.ite_none_right_eq_some.mp h
    obtain ⟨tail, hDrop, hTake⟩ := Option.bind_eq_some_iff.mp h
    obtain ⟨before, rfl, rfl⟩ := dropBytes?_eq_some_iff.mp hDrop
    obtain ⟨rest, rfl, hLength⟩ := takeBytes?_eq_some_iff.mp hTake
    exact ⟨before, rest, rfl, rfl, by omega⟩
  · rintro ⟨before, rest, rfl, rfl, rfl⟩
    exact slice?_append before text rest

theorem length_le_byteLength (cs : List Char) : cs.length ≤ byteLength cs := by
  induction cs with
  | nil => exact Nat.le_refl 0
  | cons c cs ih =>
    have hPos := c.utf8Size_pos
    rw [List.length_cons, byteLength_cons]
    omega

/-- The boundaries of a text are the ends of its first parts. -/
theorem isBoundary_iff {cs : List Char} {n : Nat} :
    IsBoundary cs n ↔ ∃ before rest, cs = before ++ rest ∧ byteLength before = n := by
  rw [IsBoundary, Option.isSome_iff_exists]
  constructor
  · rintro ⟨rest, h⟩
    obtain ⟨before, hText, hBefore⟩ := dropBytes?_eq_some_iff.mp h
    exact ⟨before, rest, hText, hBefore⟩
  · rintro ⟨before, rest, hText, hBefore⟩
    exact ⟨rest, dropBytes?_eq_some_iff.mpr ⟨before, hText, hBefore⟩⟩

/-- Of two boundaries the smaller one ends a part of what ends at the other. -/
theorem exists_between {cs : List Char} {a b : Nat} (ha : IsBoundary cs a) (hb : IsBoundary cs b)
    (h : a ≤ b) : ∃ before between rest, cs = before ++ (between ++ rest) ∧
      byteLength before = a ∧ byteLength before + byteLength between = b := by
  obtain ⟨before, rest, rfl, rfl⟩ := isBoundary_iff.mp ha
  obtain ⟨before', rest', hText, rfl⟩ := isBoundary_iff.mp hb
  rcases List.append_eq_append_iff.mp hText with ⟨between, rfl, rfl⟩ | ⟨tail, rfl, rfl⟩
  · exact ⟨before, between, rest', rfl, rfl, (byteLength_append _ _).symm⟩
  · rw [byteLength_append] at h
    have hTail : byteLength tail = 0 := by omega
    refine ⟨before' ++ tail, [], rest, by simp, rfl, ?_⟩
    simp [hTail]

/-! ## The bytes of a text -/

/-- The bytes of a text in UTF-8. -/
def bytes (cs : List Char) : List UInt8 := cs.flatMap String.utf8EncodeChar

/-- The byte that encodes the line feed. -/
def lineFeed : UInt8 := 10

theorem bytes_cons (c : Char) (cs : List Char) :
    bytes (c :: cs) = String.utf8EncodeChar c ++ bytes cs := List.flatMap_cons

theorem bytes_append (xs ys : List Char) : bytes (xs ++ ys) = bytes xs ++ bytes ys :=
  List.flatMap_append

theorem length_bytes (cs : List Char) : (bytes cs).length = byteLength cs := by
  induction cs with
  | nil => rfl
  | cons c cs ih => rw [bytes_cons, List.length_append, ih, String.length_utf8EncodeChar,
      byteLength_cons]

theorem encode_lineFeed : String.utf8EncodeChar '\n' = [lineFeed] := rfl

/-- Only the line feed is encoded with its byte. -/
theorem lineFeed_not_mem_encode {c : Char} (h : c ≠ '\n') :
    lineFeed ∉ String.utf8EncodeChar c := by
  have hValue : c.val.toNat ≠ 10 := by
    intro hEq
    exact h (Char.ext (UInt32.toNat_inj.mp hEq))
  have hTen : (10 : UInt8).toNat = 10 := rfl
  intro hMem
  unfold String.utf8EncodeChar lineFeed at hMem
  dsimp only at hMem
  -- In a longer encoding every byte is at least 128.
  split_ifs at hMem
  all_goals
    simp only [List.mem_cons, List.not_mem_nil, or_false, ← UInt8.toNat_inj, UInt8.toNat_ofNat',
      hTen] at hMem
    omega

theorem count_lineFeed_bytes (cs : List Char) : (bytes cs).count lineFeed = cs.count '\n' := by
  induction cs with
  | nil => rfl
  | cons c cs ih =>
    rw [bytes_cons, List.count_append, ih]
    by_cases hFeed : c = '\n'
    · subst hFeed
      rw [encode_lineFeed, List.count_singleton_self, List.count_cons_self, Nat.add_comm]
    · rw [List.count_eq_zero_of_not_mem (lineFeed_not_mem_encode hFeed),
        List.count_cons_of_ne hFeed,
        Nat.zero_add]

/-- The number of line feeds among the bytes before an offset. -/
def lineFeedsBefore (cs : List Char) (offset : Nat) : Nat :=
  ((bytes cs).take offset).count lineFeed

/-- At a boundary they are the line feeds among the characters before it. -/
theorem lineFeedsBefore_append (before rest : List Char) :
    lineFeedsBefore (before ++ rest) (byteLength before) = before.count '\n' := by
  rw [lineFeedsBefore, bytes_append, ← length_bytes, List.take_left, count_lineFeed_bytes]

theorem lineFeedsBefore_le (cs : List Char) (offset : Nat) :
    lineFeedsBefore cs offset ≤ cs.count '\n' := by
  rw [← count_lineFeed_bytes]
  exact (List.take_sublist offset (bytes cs)).count_le lineFeed

theorem lineFeedsBefore_mono (cs : List Char) {a b : Nat} (h : a ≤ b) :
    lineFeedsBefore cs a ≤ lineFeedsBefore cs b :=
  (List.take_sublist_take_left h).count_le lineFeed

end Text

end FeatherScript
