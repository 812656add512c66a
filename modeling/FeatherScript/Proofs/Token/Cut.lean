import FeatherScript.Token.Lexeme
import Mathlib.Data.List.TakeWhile

/-!
# Which pieces a text is cut into

Whether a piece of text is a lexeme depends on its own characters and on the one that follows: a
word is not followed by a character that continues it, a symbol not by one with which it is another
symbol or opens a comment, and a comment ends at its first closing mark. These conditions leave a
text no choice, so they determine its lexemes.

* `Lexeme.Fits`: a lexeme may stand before a text.
* `Lexeme.next_eq_iff`: the lexeme at the start of a text is the only one that fits there.
* `Cuts`: a text is cut into lexemes, each of which fits before the rest.
* `lexemes_eq_iff`: every text is cut in one way only, which is that of `lexemes`.
-/

namespace FeatherScript

/-- The end of a text, or a text whose first character does not satisfy `p`. -/
def StopsAt (p : Char → Prop) (rest : List Char) : Prop := ∀ c ∈ rest.head?, ¬ p c

theorem stopsAt_nil (p : Char → Prop) : StopsAt p [] := nofun

theorem stopsAt_cons {p : Char → Prop} {c : Char} {rest : List Char} :
    StopsAt p (c :: rest) ↔ ¬ p c := by
  simp [StopsAt]

/-- Where a text stops, the characters that satisfy `p` are those before it. -/
theorem takeWhile_of_stopsAt {p : Char → Bool} {body rest : List Char} (hBody : ∀ c ∈ body, p c)
    (hRest : StopsAt (p · = true) rest) :
    (body ++ rest).takeWhile p = body ∧ (body ++ rest).dropWhile p = rest := by
  rw [List.takeWhile_append_of_pos hBody, List.dropWhile_append_of_pos hBody]
  cases rest with
  | nil => simp
  | cons c rest =>
    have hHead : ¬ p c = true := stopsAt_cons.mp hRest
    simp [hHead]

theorem stopsAt_dropWhile (p : Char → Bool) (cs : List Char) :
    StopsAt (p · = true) (cs.dropWhile p) := by
  intro c hHead
  have hNot := List.head?_dropWhile_not p cs
  rw [Option.mem_def.mp hHead] at hNot
  simpa using hNot

/-! ## Symbols -/

namespace Symbol

/-- The characters after which a symbol is the start of a longer one, or of a comment. -/
def ContinuedBy : Symbol → Char → Prop
  | assign, c | less, c | greater, c => c = '='
  | slash, c => c = '/' ∨ c = '*'
  | _, _ => False

theorem ofChars?_eq_some_iff {cs : List Char} {sign : Symbol} :
    ofChars? cs = some sign ↔ sign.spelling.toList = cs := by
  constructor
  · exact Lexeme.ofChars?_eq_some
  · rintro rfl
    cases sign <;> decide

theorem spelling_inj {sign sign' : Symbol} (h : sign.spelling.toList = sign'.spelling.toList) :
    sign = sign' := by
  have hFirst := ofChars?_eq_some_iff.mpr h
  have hSecond : ofChars? sign'.spelling.toList = some sign' := ofChars?_eq_some_iff.mpr rfl
  exact Option.some.inj (hFirst.symm.trans hSecond)

/-- A symbol has one or two characters, the first of which is no blank, letter or digit. -/
theorem spelling_cases (sign : Symbol) : ∃ c,
    (isBlank c = false ∧ isWordStart c = false ∧ c.isDigit = false) ∧
      (sign.spelling.toList = [c] ∨ ∃ d, sign.spelling.toList = [c, d]) := by
  cases sign with
  | equal | lessEqual | greaterEqual => exact ⟨_, by decide, .inr ⟨_, rfl⟩⟩
  | _ => exact ⟨_, by decide, .inl rfl⟩

/-- What a symbol of two characters is made of. -/
theorem spelling_pair {sign : Symbol} {c d : Char} (h : sign.spelling.toList = [c, d]) :
    (c = '=' ∨ c = '<' ∨ c = '>') ∧ d = '=' := by
  cases sign <;> simp [spelling] at h
  all_goals
    obtain ⟨rfl, rfl⟩ := h
    simp

theorem not_continuedBy_of_pair {sign : Symbol} {c d e : Char}
    (h : sign.spelling.toList = [c, d]) : ¬ sign.ContinuedBy e := by
  cases sign <;> simp [spelling] at h <;> exact id

/-- Two symbols can start with the same character only if the second one continues the first. -/
theorem continuedBy_iff {sign : Symbol} {c d : Char} (h : sign.spelling.toList = [c]) :
    sign.ContinuedBy d ↔ (∃ longer : Symbol, longer.spelling.toList = [c, d]) ∨
      (c = '/' ∧ (d = '/' ∨ d = '*')) := by
  constructor
  · intro hContinued
    cases sign <;> simp [spelling] at h <;> simp only [ContinuedBy] at hContinued
    case assign => exact .inl ⟨equal, by rw [hContinued, ← h]; rfl⟩
    case less => exact .inl ⟨lessEqual, by rw [hContinued, ← h]; rfl⟩
    case greater => exact .inl ⟨greaterEqual, by rw [hContinued, ← h]; rfl⟩
    case slash => exact .inr ⟨h.symm, hContinued⟩
  · rintro (⟨longer, hLonger⟩ | ⟨rfl, hMark⟩)
    · obtain ⟨rfl | rfl | rfl, rfl⟩ := spelling_pair hLonger
      · rw [(spelling_inj h : sign = assign)]
        rfl
      · rw [(spelling_inj h : sign = less)]
        rfl
      · rw [(spelling_inj h : sign = greater)]
        rfl
    · rw [(spelling_inj h : sign = slash)]
      exact hMark

end Symbol

/-! ## Comments -/

/-- A text with a mark in it that closes comments. -/
def HasMark (cs : List Char) : Prop := ['*', '/'] <:+: cs

theorem not_hasMark_nil : ¬ HasMark [] := by simp [HasMark]

theorem hasMark_cons {c : Char} {cs : List Char} :
    HasMark (c :: cs) ↔ (c = '*' ∧ ∃ rest, cs = '/' :: rest) ∨ HasMark cs := by
  unfold HasMark
  rw [List.infix_cons_iff, List.cons_prefix_cons]
  refine or_congr_left (and_congr eq_comm ?_)
  constructor
  · rintro ⟨rest, hRest⟩
    exact ⟨rest, hRest.symm⟩
  · rintro ⟨rest, rfl⟩
    exact ⟨rest, rfl⟩

namespace Lexeme

/-- A comment is closed by the first mark in the text. -/
theorem splitComment?_eq_some_iff {cs body rest : List Char} :
    splitComment? cs = some (body, rest) ↔
      cs = body ++ '*' :: '/' :: rest ∧ ¬ HasMark body := by
  constructor
  · intro h
    refine ⟨(splitComment?_eq_some h).symm, ?_⟩
    fun_induction splitComment? cs generalizing body rest with
    | case1 => cases h
    | case2 tail =>
      cases h
      exact not_hasMark_nil
    | case3 c cs hOpen ih =>
      obtain ⟨⟨inner, after⟩, hSplit, hParts⟩ := Option.map_eq_some_iff.mp h
      cases hParts
      rw [hasMark_cons]
      rintro (⟨rfl, tail, rfl⟩ | hMark)
      · -- The mark would be at the start of the whole text.
        exact hOpen _ rfl (splitComment?_eq_some hSplit).symm
      · exact ih hSplit hMark
  · rintro ⟨rfl, hNone⟩
    induction body with
    | nil => rfl
    | cons c body ih =>
      rw [hasMark_cons, not_or] at hNone
      have hSplit := ih hNone.2
      rw [List.cons_append, splitComment?]
      · rw [hSplit]
        rfl
      · rintro tail rfl hTail
        refine hNone.1 ⟨rfl, ?_⟩
        cases body with
        | nil => cases hTail
        | cons d body =>
          cases hTail
          exact ⟨_, rfl⟩

theorem splitComment?_eq_none_iff {cs : List Char} : splitComment? cs = none ↔ ¬ HasMark cs := by
  fun_induction splitComment? cs with
  | case1 => simp [not_hasMark_nil]
  | case2 tail => simp [hasMark_cons]
  | case3 c cs hOpen ih =>
    rw [Option.map_eq_none_iff, ih, hasMark_cons, not_or]
    refine (and_iff_right ?_).symm
    rintro ⟨rfl, rest, rfl⟩
    exact hOpen rest rfl rfl

/-! ## Lexemes that fit -/

/-- A character that is no part of a word, a digit string, a symbol or a comment. -/
def Stray (c : Char) : Prop :=
  isBlank c = false ∧ isWordStart c = false ∧ c.isDigit = false ∧
    ∀ sign : Symbol, sign.spelling.toList.head? ≠ some c

/-- A lexeme may stand before a text: its characters are right, and no longer lexeme begins
there. -/
def Fits : Lexeme → List Char → Prop
  | blank c, _ => isBlank c = true
  | lineComment body, rest => (∀ c ∈ body, c ≠ '\n') ∧ StopsAt (· ≠ '\n') rest
  | blockComment body, _ => ¬ HasMark body
  | openComment body, rest => ¬ HasMark body ∧ rest = []
  | word first more, rest =>
    isWordStart first = true ∧ (∀ c ∈ more, isWordPart c) ∧ StopsAt (isWordPart · = true) rest
  | digits first more, rest =>
    first.isDigit = true ∧ (∀ c ∈ more, c.isDigit) ∧ StopsAt (Char.isDigit · = true) rest
  | symbol sign, rest => StopsAt sign.ContinuedBy rest
  | stray c, _ => Stray c

/-! ## The lexeme at the start of a text -/

/-- A blank continues no word and no digit string, and is part of no symbol. -/
theorem classes_of_isBlank {c : Char} (h : isBlank c = true) :
    isWordStart c = false ∧ isWordPart c = false ∧ c.isDigit = false ∧
      ∀ sign : Symbol, ¬ sign.ContinuedBy c := by
  have hCases : c = ' ' ∨ c = '\t' ∨ c = '\r' ∨ c = '\n' ∨ c = '\x0c' := by
    simpa only [isBlank, Bool.or_eq_true, decide_eq_true_eq, or_assoc] using h
  refine ⟨?_, ?_, ?_, fun sign => ?_⟩
  case refine_4 =>
    rcases hCases with rfl | rfl | rfl | rfl | rfl <;> cases sign <;> simp [Symbol.ContinuedBy]
  all_goals rcases hCases with rfl | rfl | rfl | rfl | rfl <;> decide

theorem not_isWordStart_of_isDigit {c : Char} (h : c.isDigit = true) : isWordStart c = false := by
  have hDigit : 48 ≤ c.toNat ∧ c.toNat ≤ 57 := Char.isDigit_iff_toNat.mp h
  have hUpper : c.isUpper = true ↔ 65 ≤ c.toNat ∧ c.toNat ≤ 90 := by
    change decide (65 ≤ c.val ∧ c.val ≤ 90) = true ↔ _
    simp [UInt32.le_iff_toNat_le, ← Char.toNat_val]
  have hLower : c.isLower = true ↔ 97 ≤ c.toNat ∧ c.toNat ≤ 122 := by
    change (decide (97 ≤ c.val) && decide (c.val ≤ 122)) = true ↔ _
    simp [UInt32.le_iff_toNat_le, ← Char.toNat_val]
  refine Bool.eq_false_iff.mpr fun hStart => ?_
  change (c.isUpper || c.isLower || decide (c = '_')) = true at hStart
  rw [Bool.or_eq_true, Bool.or_eq_true, hUpper, hLower, decide_eq_true_eq] at hStart
  rcases hStart with (hUpper | hLower) | rfl
  · omega
  · omega
  · exact absurd h (by decide)

theorem not_isBlank {c : Char} (h : isWordStart c = true ∨ c.isDigit = true) :
    isBlank c = false := by
  refine Bool.eq_false_iff.mpr fun hBlank => ?_
  obtain ⟨hStart, -, hDigit, -⟩ := classes_of_isBlank hBlank
  rcases h with h | h
  · exact Bool.eq_false_iff.mp hStart h
  · exact Bool.eq_false_iff.mp hDigit h

/-- A comment starts with a slash and another mark. -/
theorem nextComment?_eq_none_iff {c : Char} {cs : List Char} :
    nextComment? c cs = none ↔ ¬ (c = '/' ∧ ∃ d ∈ cs.head?, d = '/' ∨ d = '*') := by
  unfold nextComment?
  split
  · simp
  · split <;> simp
  · next hSlash hStar =>
    simp only [true_iff]
    rintro ⟨rfl, d, hHead, hMark⟩
    cases cs with
    | nil => cases hHead
    | cons e es =>
      cases hHead
      rcases hMark with rfl | rfl
      · exact hSlash es rfl rfl
      · exact hStar es rfl rfl

theorem fits_of_nextComment? {c : Char} {cs rest : List Char} {found : Lexeme}
    (h : nextComment? c cs = some (found, rest)) : found.Fits rest := by
  unfold nextComment? at h
  split at h
  · cases h
    refine ⟨fun d hMem => ?_, ?_⟩
    · simpa using List.mem_takeWhile_imp hMem
    · simpa using stopsAt_dropWhile (· ≠ '\n') _
  · split at h
    · next hSplit =>
      cases h
      exact (splitComment?_eq_some_iff.mp hSplit).2
    · next hSplit =>
      cases h
      exact ⟨splitComment?_eq_none_iff.mp hSplit, rfl⟩
  · cases h

/-- A symbol that is not at the start of a comment is as long as it can be. -/
theorem fits_of_nextSymbol? {c : Char} {cs rest : List Char} {sign : Symbol}
    (hComment : nextComment? c cs = none) (h : nextSymbol? c cs = some (sign, rest)) :
    StopsAt sign.ContinuedBy rest := by
  unfold nextSymbol? at h
  cases cs with
  | nil =>
    obtain ⟨s, -, hPair⟩ := Option.map_eq_some_iff.mp h
    cases hPair
    exact stopsAt_nil _
  | cons d ds =>
    dsimp only at h
    split at h
    · next s hPair =>
      cases h
      exact fun e _ => Symbol.not_continuedBy_of_pair (Symbol.ofChars?_eq_some_iff.mp hPair)
    · next hNone =>
      obtain ⟨s, hSingle, hPair⟩ := Option.map_eq_some_iff.mp h
      cases hPair
      rw [Symbol.ofChars?_eq_some_iff] at hSingle
      rw [stopsAt_cons, Symbol.continuedBy_iff hSingle]
      rintro (⟨longer, hLonger⟩ | ⟨rfl, hMark⟩)
      · exact absurd (Symbol.ofChars?_eq_some_iff.mpr hLonger) (by simp [hNone])
      · exact nextComment?_eq_none_iff.mp hComment ⟨rfl, d, rfl, hMark⟩

/-- No symbol is found exactly where none starts. -/
theorem nextSymbol?_eq_none_iff {c : Char} {cs : List Char} :
    nextSymbol? c cs = none ↔ ∀ sign : Symbol, sign.spelling.toList.head? ≠ some c := by
  constructor
  · intro hNone sign hHead
    have hSingle : Symbol.ofChars? [c] = none := by
      unfold nextSymbol? at hNone
      split at hNone
      · exact Option.map_eq_none_iff.mp hNone
      · split at hNone
        · cases hNone
        · exact Option.map_eq_none_iff.mp hNone
    obtain ⟨d, -, hOne | ⟨e, hTwo⟩⟩ := sign.spelling_cases
    · rw [hOne] at hHead
      cases hHead
      cases hSingle.symm.trans (Symbol.ofChars?_eq_some_iff.mpr hOne)
    · rw [hTwo] at hHead
      cases hHead
      obtain ⟨rfl | rfl | rfl, -⟩ := Symbol.spelling_pair hTwo <;> exact absurd hSingle (by decide)
  · intro hNone
    have hChars : ∀ more, Symbol.ofChars? (c :: more) = none := by
      intro more
      refine Option.eq_none_iff_forall_ne_some.mpr fun sign hSign => hNone sign ?_
      rw [Symbol.ofChars?_eq_some_iff.mp hSign]
      rfl
    unfold nextSymbol?
    split <;> simp [hChars]

/-- Where no blank, word or digit string starts, a comment is looked for, and then a symbol. -/
theorem next_eq_of_other {c : Char} {cs : List Char} (hBlank : isBlank c = false)
    (hStart : isWordStart c = false) (hDigit : c.isDigit = false) :
    next c cs = (nextComment? c cs).getD
      (((nextSymbol? c cs).map fun found => (symbol found.1, found.2)).getD (stray c, cs)) := by
  rw [next, hBlank, hStart, hDigit]
  cases nextComment? c cs with
  | some found => rfl
  | none =>
    cases nextSymbol? c cs <;> rfl

/-- The lexeme at the start of a text fits before the rest. -/
theorem fits_next (c : Char) (cs : List Char) : (next c cs).1.Fits (next c cs).2 := by
  -- The cases are those of `next`, in its order.
  by_cases hBlank : isBlank c = true
  · rw [next, if_pos hBlank]
    exact hBlank
  by_cases hStart : isWordStart c = true
  · rw [next, if_neg hBlank, if_pos hStart]
    exact ⟨hStart, fun _ hMem => List.mem_takeWhile_imp hMem, stopsAt_dropWhile isWordPart cs⟩
  by_cases hDigit : c.isDigit = true
  · rw [next, if_neg hBlank, if_neg hStart, if_pos hDigit]
    exact ⟨hDigit, fun _ hMem => List.mem_takeWhile_imp hMem, stopsAt_dropWhile Char.isDigit cs⟩
  rw [Bool.not_eq_true] at hBlank hStart hDigit
  rw [next_eq_of_other hBlank hStart hDigit]
  cases hComment : nextComment? c cs with
  | some found => exact fits_of_nextComment? hComment
  | none =>
    cases hSymbol : nextSymbol? c cs with
    | some found => exact fits_of_nextSymbol? hComment hSymbol
    | none => exact ⟨hBlank, hStart, hDigit, nextSymbol?_eq_none_iff.mp hSymbol⟩

/-- A symbol of one character that is not continued opens no comment, and is the one found. -/
theorem nextSymbol?_of_single {sign : Symbol} {c : Char} {rest : List Char}
    (hText : sign.spelling.toList = [c]) (hStop : StopsAt sign.ContinuedBy rest) :
    nextComment? c rest = none ∧ nextSymbol? c rest = some (sign, rest) := by
  constructor
  · rw [nextComment?_eq_none_iff]
    rintro ⟨rfl, d, hHead, hMark⟩
    exact hStop d hHead ((Symbol.continuedBy_iff hText).mpr (.inr ⟨rfl, hMark⟩))
  · cases rest with
    | nil =>
      rw [nextSymbol?, Symbol.ofChars?_eq_some_iff.mpr hText]
      rfl
    | cons d ds =>
      -- A longer symbol at this place would continue the one that stands there.
      have hNone : Symbol.ofChars? [c, d] = none := by
        refine Option.eq_none_iff_forall_ne_some.mpr fun longer hLonger => ?_
        rw [Symbol.ofChars?_eq_some_iff] at hLonger
        exact stopsAt_cons.mp hStop ((Symbol.continuedBy_iff hText).mpr (.inl ⟨longer, hLonger⟩))
      simp [nextSymbol?, hNone, Symbol.ofChars?_eq_some_iff.mpr hText]

/-- A symbol of two characters opens no comment, and is the one found. -/
theorem nextSymbol?_of_pair {sign : Symbol} {c d : Char} {rest : List Char}
    (hText : sign.spelling.toList = [c, d]) :
    nextComment? c (d :: rest) = none ∧ nextSymbol? c (d :: rest) = some (sign, rest) := by
  obtain ⟨hHead, rfl⟩ := Symbol.spelling_pair hText
  constructor
  · rw [nextComment?_eq_none_iff]
    rintro ⟨rfl, -⟩
    exact absurd hHead (by decide)
  · rw [nextSymbol?, Symbol.ofChars?_eq_some_iff.mpr hText]

theorem next_symbol {sign : Symbol} {c : Char} {cs rest : List Char}
    (hText : sign.spelling.toList ++ rest = c :: cs) (hStop : StopsAt sign.ContinuedBy rest) :
    next c cs = (symbol sign, rest) := by
  obtain ⟨d, ⟨hBlank, hStart, hDigit⟩, hOne | ⟨e, hTwo⟩⟩ := sign.spelling_cases
  · rw [hOne, List.singleton_append] at hText
    cases hText
    obtain ⟨hComment, hSymbol⟩ := nextSymbol?_of_single hOne hStop
    rw [next_eq_of_other hBlank hStart hDigit, hComment, hSymbol]
    rfl
  · rw [hTwo, List.cons_append, List.singleton_append] at hText
    cases hText
    obtain ⟨hComment, hSymbol⟩ := nextSymbol?_of_pair hTwo
    rw [next_eq_of_other hBlank hStart hDigit, hComment, hSymbol]
    rfl

/-- A comment at the start of a text is the lexeme there. -/
theorem next_of_nextComment? {d : Char} {cs : List Char} {found : Lexeme × List Char}
    (h : nextComment? '/' (d :: cs) = some found) : next '/' (d :: cs) = found := by
  rw [next_eq_of_other (by decide) (by decide) (by decide), h]
  rfl

/-- A lexeme that fits before the rest of a text is the one at its start. -/
theorem next_of_fits {l : Lexeme} {c : Char} {cs rest : List Char}
    (hText : l.text ++ rest = c :: cs) (hFits : l.Fits rest) : next c cs = (l, rest) := by
  cases l with
  | blank d =>
    cases hText
    exact if_pos hFits
  | lineComment body =>
    change '/' :: '/' :: (body ++ rest) = c :: cs at hText
    cases hText
    obtain ⟨hBody, hRest⟩ := hFits
    have hLine : ∀ c ∈ body, decide (c ≠ '\n') = true := by simpa using hBody
    have hStop : StopsAt (fun c => decide (c ≠ '\n') = true) rest := by simpa using hRest
    obtain ⟨hTake, hDrop⟩ := takeWhile_of_stopsAt hLine hStop
    exact next_of_nextComment? (by rw [nextComment?, hTake, hDrop])
  | blockComment body =>
    change '/' :: '*' :: (body ++ ['*', '/'] ++ rest) = c :: cs at hText
    cases hText
    have hSplit : splitComment? (body ++ ['*', '/'] ++ rest) = some (body, rest) :=
      splitComment?_eq_some_iff.mpr ⟨by simp, hFits⟩
    exact next_of_nextComment? (by rw [nextComment?, hSplit])
  | openComment body =>
    change '/' :: '*' :: (body ++ rest) = c :: cs at hText
    cases hText
    obtain ⟨hNone, rfl⟩ := hFits
    rw [List.append_nil]
    exact next_of_nextComment? (by rw [nextComment?, splitComment?_eq_none_iff.mpr hNone])
  | word first more =>
    change first :: (more ++ rest) = c :: cs at hText
    cases hText
    obtain ⟨hStart, hMore, hRest⟩ := hFits
    obtain ⟨hTake, hDrop⟩ := takeWhile_of_stopsAt hMore hRest
    simp [next, not_isBlank (.inl hStart), hStart, hTake, hDrop]
  | digits first more =>
    change first :: (more ++ rest) = c :: cs at hText
    cases hText
    obtain ⟨hDigit, hMore, hRest⟩ := hFits
    obtain ⟨hTake, hDrop⟩ := takeWhile_of_stopsAt hMore hRest
    simp [next, not_isBlank (.inr hDigit), not_isWordStart_of_isDigit hDigit, hDigit, hTake, hDrop]
  | symbol sign => exact next_symbol hText hFits
  | stray d =>
    change d :: rest = c :: cs at hText
    obtain ⟨rfl, rfl⟩ := List.cons.inj hText
    obtain ⟨hBlank, hStart, hDigit, hSymbol⟩ := hFits
    have hComment : nextComment? d rest = none := by
      rw [nextComment?_eq_none_iff]
      rintro ⟨rfl, -⟩
      exact hSymbol .slash rfl
    rw [next_eq_of_other hBlank hStart hDigit, hComment, nextSymbol?_eq_none_iff.mpr hSymbol]
    rfl

/-- The lexeme at the start of a text is the only one that fits there. -/
theorem next_eq_iff {l : Lexeme} {c : Char} {cs rest : List Char} :
    next c cs = (l, rest) ↔ l.text ++ rest = c :: cs ∧ l.Fits rest := by
  constructor
  · intro h
    have hText := text_next c cs
    have hFits := fits_next c cs
    rw [h] at hText hFits
    exact ⟨hText, hFits⟩
  · rintro ⟨hText, hFits⟩
    exact next_of_fits hText hFits

end Lexeme

/-! ## The lexemes of a text -/

/-- A text is cut into lexemes, each of which fits before the rest. -/
inductive Cuts : List Char → List Lexeme → Prop
  | nil : Cuts [] []
  | cons {l rest ls} (hFits : l.Fits rest) (h : Cuts rest ls) : Cuts (l.text ++ rest) (l :: ls)

theorem cuts_lexemes (cs : List Char) : Cuts cs (lexemes cs) := by
  fun_induction lexemes cs with
  | case1 => exact .nil
  | case2 c cs ih =>
    have h := Cuts.cons (Lexeme.fits_next c cs) ih
    rwa [Lexeme.text_next] at h

/-- A text is cut in one way only. -/
theorem lexemes_eq_iff {cs : List Char} {ls : List Lexeme} : lexemes cs = ls ↔ Cuts cs ls := by
  constructor
  · rintro rfl
    exact cuts_lexemes cs
  · intro h
    induction h with
    | nil => rw [lexemes]
    | @cons l rest ls hFits _ ih =>
      obtain ⟨c, cs, hText⟩ := List.exists_cons_of_ne_nil (l.text_ne_nil)
      have hNext : Lexeme.next c (cs ++ rest) = (l, rest) :=
        Lexeme.next_eq_iff.mpr ⟨by rw [hText, List.cons_append], hFits⟩
      rw [hText, List.cons_append, lexemes, hNext, ih]

theorem cuts_cons_iff {l : Lexeme} {rest : List Char} {ls : List Lexeme} :
    Cuts (l.text ++ rest) (l :: ls) ↔ l.Fits rest ∧ Cuts rest ls := by
  refine ⟨fun h => ?_, fun h => .cons h.1 h.2⟩
  generalize hText : l.text ++ rest = cs at h
  cases h with
  | cons hFits h =>
    obtain rfl := List.append_cancel_left hText
    exact ⟨hFits, h⟩

theorem Cuts.eq_nil {ls : List Lexeme} (h : Cuts [] ls) : ls = [] := by
  rw [← lexemes_eq_iff.mpr h, lexemes]

end FeatherScript
