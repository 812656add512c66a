/-!
# Interned names

Identifiers are compared by number. A name table lists the texts seen so far, each once, in the
order of their first appearance, with the empty text at number zero; interning a text answers its
number, adding the text at the end if it is new.

* `NameTable.intern` answers the same number for the same text and a fresh one for a new text.
* `NameTable.lookup` reads a number back; a number that was never issued reads as the empty text.
-/

namespace FeatherScript

/-- An identifier, by its number in a name table. -/
structure Name where
  index : Nat
deriving DecidableEq, Inhabited

def Name.debug (n : Name) : String := s!"Name({n.index})"

/-- The texts of all names, in the order of their numbers. -/
structure NameTable where
  texts : Array String
deriving DecidableEq

namespace NameTable

/-- The table that knows only the empty text. -/
def initial : NameTable := ⟨#[""]⟩

def size (t : NameTable) : Nat := t.texts.size

/-- The name of a text, and the table that has it. -/
def intern (t : NameTable) (text : String) : Name × NameTable :=
  match t.texts.idxOf? text with
  | some index => (⟨index⟩, t)
  | none => (⟨t.texts.size⟩, ⟨t.texts.push text⟩)

/-- The text of a name; the empty text for an unknown one. -/
def lookup (t : NameTable) (n : Name) : String := t.texts.getD n.index ""

/-! ## Small laws -/

/-- Interning a text gives a name that reads back as the text. -/
theorem lookup_intern (t : NameTable) (text : String) :
    (t.intern text).2.lookup (t.intern text).1 = text := by
  unfold intern
  split
  · next index hIndex =>
    rw [Array.idxOf?_eq_map_finIdxOf?_val] at hIndex
    obtain ⟨i, hFound, hVal⟩ := Option.map_eq_some_iff.mp hIndex
    have hText : t.texts[i] = text := (Array.finIdxOf?_eq_some_iff.mp hFound).1
    rw [lookup, ← hVal, Array.getD_eq_getD_getElem?, Array.getElem?_eq_getElem i.isLt]
    exact hText
  · simp [lookup]

/-- Names issued before keep their texts. -/
theorem lookup_intern_of_lt {t : NameTable} {n : Name} (text : String)
    (hIssued : n.index < t.size) : (t.intern text).2.lookup n = t.lookup n := by
  have hSize : n.index < t.texts.size := hIssued
  unfold intern
  split
  · rfl
  · simp [lookup, Array.getElem?_push_lt hSize, hSize]

end NameTable

end FeatherScript
