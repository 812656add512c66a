import FeatherScript.Name

/-!
# The names that texts have

A table has each text under one name, that of its first appearance. Interning never moves a text,
so a name that a text once has is its name in every later table.

* `NameTable.Has`: a table has a text under a name.
* `has_intern`: a text that was interned is in the table, under the name it was given.
* `Has.unique`, `Has.intern`: a text has one name only, which stays.
* `Has.lookup`: the name of a text reads back as the text.
* `has_lookup`: the names of a table that lists each text once are the names of their texts.
-/

namespace FeatherScript.NameTable

/-- A table has a text under a name, where the text appears first. -/
def Has (t : NameTable) (text : String) (n : Name) : Prop :=
  t.texts[n.index]? = some text ∧ ∀ j < n.index, t.texts[j]? ≠ some text

variable {t : NameTable} {text : String} {n : Name}

theorem has_iff_idxOf? : t.Has text n ↔ t.texts.idxOf? text = some n.index := by
  rw [Array.idxOf?_eq_map_finIdxOf?_val, Option.map_eq_some_iff]
  constructor
  · rintro ⟨hFound, hFirst⟩
    obtain ⟨hIndex, hText⟩ := Array.getElem?_eq_some_iff.mp hFound
    refine ⟨⟨n.index, hIndex⟩, Array.finIdxOf?_eq_some_iff.mpr
      ⟨hText, fun j hLess hEqual => ?_⟩, rfl⟩
    exact hFirst j hLess (Array.getElem?_eq_some_iff.mpr ⟨j.isLt, hEqual⟩)
  · rintro ⟨i, hFound, hIndex⟩
    obtain ⟨hText, hFirst⟩ := Array.finIdxOf?_eq_some_iff.mp hFound
    rw [Has, ← hIndex]
    refine ⟨Array.getElem?_eq_some_iff.mpr ⟨i.isLt, hText⟩, fun j hLess hEqual => ?_⟩
    obtain ⟨hSize, hText⟩ := Array.getElem?_eq_some_iff.mp hEqual
    exact hFirst ⟨j, hSize⟩ hLess hText

theorem Has.mem (h : t.Has text n) : text ∈ t.texts := Array.mem_of_getElem? h.1

/-- A text has one name only. -/
theorem Has.unique {m : Name} (h : t.Has text n) (h' : t.Has text m) : n = m := by
  have hIndex := (has_iff_idxOf?.mp h).symm.trans (has_iff_idxOf?.mp h')
  cases n
  cases m
  cases hIndex
  rfl

/-- A text that the table has keeps its name when it is interned again, and adds nothing. -/
theorem intern_of_has (h : t.Has text n) : t.intern text = (n, t) := by
  rw [intern, has_iff_idxOf?.mp h]

/-- A text that the table does not have comes last. -/
theorem intern_of_not_mem (h : text ∉ t.texts) :
    t.intern text = (⟨t.size⟩, ⟨t.texts.push text⟩) := by
  rw [intern, Array.idxOf?_eq_none_iff.mpr h]
  rfl

theorem exists_has (h : text ∈ t.texts) : ∃ n, t.Has text n := by
  have hFound : (t.texts.idxOf? text).isSome = true := Array.isSome_idxOf?.mpr h
  obtain ⟨index, hIndex⟩ := Option.isSome_iff_exists.mp hFound
  exact ⟨⟨index⟩, has_iff_idxOf?.mpr hIndex⟩

/-- A text that was interned is in the table, under the name it was given. -/
theorem has_intern (t : NameTable) (text : String) :
    (t.intern text).2.Has text (t.intern text).1 := by
  by_cases hMem : text ∈ t.texts
  · obtain ⟨n, hHas⟩ := exists_has hMem
    rwa [intern_of_has hHas]
  · rw [intern_of_not_mem hMem]
    refine ⟨by simp [size], fun j hLess hEqual => hMem ?_⟩
    have hSize : j < t.texts.size := hLess
    rw [Array.getElem?_push_lt hSize] at hEqual
    exact Option.some.inj hEqual ▸ Array.getElem_mem hSize

/-- The name of a text stays. -/
theorem Has.intern (h : t.Has text n) (other : String) : (t.intern other).2.Has text n := by
  by_cases hMem : other ∈ t.texts
  · obtain ⟨m, hOther⟩ := exists_has hMem
    rwa [intern_of_has hOther]
  · obtain ⟨hFound, hFirst⟩ := h
    have hSize : n.index < t.texts.size := (Array.getElem?_eq_some_iff.mp hFound).1
    have hKept : ∀ j ≤ n.index, (t.texts.push other)[j]? = t.texts[j]? := by
      intro j hLe
      rw [Array.getElem?_push_lt (by omega), Array.getElem?_eq_getElem]
    rw [intern_of_not_mem hMem, Has, hKept _ (Nat.le_refl _)]
    exact ⟨hFound, fun j hLess => hKept j (Nat.le_of_lt hLess) ▸ hFirst j hLess⟩

/-- What a table has after a text was interned. -/
theorem has_intern_iff {other : String} : (t.intern text).2.Has other n ↔
    t.Has other n ∨ (other = text ∧ n = (t.intern text).1) := by
  constructor
  · intro h
    by_cases hSame : other = text
    · subst hSame
      exact .inr ⟨rfl, h.unique (t.has_intern other)⟩
    · have hMem : other ∈ t.texts := by
        by_cases hText : text ∈ t.texts
        · obtain ⟨m, hHas⟩ := exists_has hText
          rw [intern_of_has hHas] at h
          exact h.mem
        · rw [intern_of_not_mem hText] at h
          exact (Array.mem_push.mp h.mem).resolve_right hSame
      obtain ⟨m, hHas⟩ := exists_has hMem
      obtain rfl := (hHas.intern text).unique h
      exact .inl hHas
  · rintro (hBefore | ⟨rfl, rfl⟩)
    · exact hBefore.intern text
    · exact t.has_intern other

/-- The name of a text reads back as the text. -/
theorem Has.lookup (h : t.Has text n) : t.lookup n = text := by
  rw [NameTable.lookup, Array.getD_eq_getD_getElem?, h.1, Option.getD_some]

/-- Where no text is listed twice, a text that is read from a name is under that name. -/
theorem has_lookup (hOnce : t.texts.toList.Nodup) (hText : t.lookup n ≠ "") :
    t.Has (t.lookup n) n := by
  have hIssued : n.index < t.texts.size := by
    refine Nat.lt_of_not_le fun hLe => hText ?_
    rw [NameTable.lookup, Array.getD_eq_getD_getElem?, Array.getElem?_eq_none hLe, Option.getD_none]
  have hFound : t.texts[n.index]? = some (t.lookup n) := by
    rw [NameTable.lookup, Array.getD_eq_getD_getElem?, Array.getElem?_eq_getElem hIssued,
      Option.getD_some]
  refine ⟨hFound, fun j hLess hEqual => ?_⟩
  obtain ⟨hOther, hSame⟩ := Array.getElem?_eq_some_iff.mp hEqual
  obtain ⟨_, hOwn⟩ := Array.getElem?_eq_some_iff.mp hFound
  have hDiffer := List.pairwise_iff_getElem.mp hOnce j n.index hOther hIssued hLess
  rw [Array.getElem_toList, Array.getElem_toList, hSame, hOwn] at hDiffer
  exact hDiffer rfl

end FeatherScript.NameTable
