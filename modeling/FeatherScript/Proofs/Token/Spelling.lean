import FeatherScript.Proofs.Token.Cut
import FeatherScript.Proofs.Token.Interning
import FeatherScript.Token.Lex

/-!
# What the tokens are spelled

The kind of a token is determined by the text under its span: reserved words and symbols have their
own spellings, other words are identifiers, digit strings are integers as long as their value is in
range, and no other text stands for a token but a single character that starts none.

* `Spells`: a text spells a kind, with identifiers read from a name table.
* `Continues`: a character with which a spelling would be longer, or open a comment.
* `Lexeme.read`: the kind that a lexeme leaves, with `ofLexemes_cons` for the tokens of a list.
* `spells_of_read`, `stopsAt_continues`: that kind is the one spelled, and the spelling is as long
  as it can be.
-/

namespace FeatherScript

open Text

/-! ## Classes of texts -/

/-- A letter or an underscore, and then letters, digits and underscores. -/
def IsWord (text : List Char) : Prop :=
  ∃ first more, text = first :: more ∧ isWordStart first = true ∧ ∀ c ∈ more, isWordPart c = true

/-- A text of one or more digits. -/
def IsNumeral (text : List Char) : Prop := text ≠ [] ∧ ∀ c ∈ text, c.isDigit = true

/-- A single character that is part of no other token. -/
def IsStray (text : List Char) : Prop := ∃ c, text = [c] ∧ Lexeme.Stray c

theorem isWord_cons {c : Char} {cs : List Char} :
    IsWord (c :: cs) ↔ isWordStart c = true ∧ ∀ d ∈ cs, isWordPart d = true := by
  constructor
  · rintro ⟨first, more, hText, hStart, hMore⟩
    cases hText
    exact ⟨hStart, hMore⟩
  · rintro ⟨hStart, hMore⟩
    exact ⟨c, cs, rfl, hStart, hMore⟩

theorem isNumeral_cons {c : Char} {cs : List Char} :
    IsNumeral (c :: cs) ↔ c.isDigit = true ∧ ∀ d ∈ cs, d.isDigit = true := by
  simp [IsNumeral]

theorem Keyword.isWord (word : Keyword) : IsWord word.spelling.toList := by
  cases word <;> exact ⟨_, _, rfl, by decide, List.all_eq_true.mp (by decide)⟩

theorem Keyword.spelling_inj {word word' : Keyword} :
    word.spelling.toList = word'.spelling.toList ↔ word = word' := by
  cases word <;> cases word' <;> decide

theorem Keyword.ofSpelling?_eq_some_iff {text : String} {word : Keyword} :
    ofSpelling? text = some word ↔ word.spelling = text := by
  constructor
  · intro h
    simpa using List.find?_some h
  · rintro rfl
    cases word <;> decide

/-- A symbol starts like no blank, no word and no numeral. -/
theorem Symbol.classes_of_spelling {sign : Symbol} {c : Char} {cs : List Char}
    (h : sign.spelling.toList = c :: cs) :
    isBlank c = false ∧ isWordStart c = false ∧ c.isDigit = false := by
  obtain ⟨d, hClasses, hOne | ⟨e, hTwo⟩⟩ := sign.spelling_cases
  · cases h.symm.trans hOne
    exact hClasses
  · cases h.symm.trans hTwo
    exact hClasses

/-- A text that starts like a word is no numeral, no symbol and no stray character. -/
theorem classes_of_isWordStart {c : Char} (cs : List Char) (h : isWordStart c = true) :
    ¬ IsNumeral (c :: cs) ∧ (∀ sign : Symbol, c :: cs ≠ sign.spelling.toList) ∧
      ¬ IsStray (c :: cs) := by
  refine ⟨fun hNumeral => ?_, fun sign hSign => ?_, ?_⟩
  · have hStart := Lexeme.not_isWordStart_of_isDigit (isNumeral_cons.mp hNumeral).1
    exact Bool.eq_false_iff.mp hStart h
  · obtain ⟨-, hStart, -⟩ := Symbol.classes_of_spelling hSign.symm
    exact Bool.eq_false_iff.mp hStart h
  · rintro ⟨d, hText, -, hStart, -⟩
    cases hText
    exact Bool.eq_false_iff.mp hStart h

/-- A text that starts with a digit is no word, no symbol and no stray character. -/
theorem classes_of_isDigit {c : Char} (cs : List Char) (h : c.isDigit = true) :
    ¬ IsWord (c :: cs) ∧ (∀ sign : Symbol, c :: cs ≠ sign.spelling.toList) ∧
      ¬ IsStray (c :: cs) := by
  refine ⟨fun hWord => ?_, fun sign hSign => ?_, ?_⟩
  · have hStart := Lexeme.not_isWordStart_of_isDigit h
    exact Bool.eq_false_iff.mp hStart (isWord_cons.mp hWord).1
  · obtain ⟨-, -, hDigit⟩ := Symbol.classes_of_spelling hSign.symm
    exact Bool.eq_false_iff.mp hDigit h
  · rintro ⟨d, hText, -, -, hDigit, -⟩
    cases hText
    exact Bool.eq_false_iff.mp hDigit h

/-- Any other text is no word and no numeral. -/
theorem classes_of_other {c : Char} (cs : List Char) (hStart : isWordStart c = false)
    (hDigit : c.isDigit = false) : ¬ IsWord (c :: cs) ∧ ¬ IsNumeral (c :: cs) := by
  rw [isWord_cons, isNumeral_cons, hStart, hDigit]
  simp

/-! ## What a text spells -/

/-- A text spells a kind. Each kind but the end of the source has its own texts, and the text of an
identifier is the one that the name table has for it. -/
structure Spells (names : NameTable) (text : List Char) (kind : TokenKind) : Prop where
  keyword : ∀ word, kind = .keyword word ↔ text = word.spelling.toList
  symbol : ∀ sign, kind = .symbol sign ↔ text = sign.spelling.toList
  int : ∀ value, kind = .int value ↔ IsNumeral text ∧ (decimalValue text : Int) = value.toInt
  ident : (∃ name, kind = .ident name) ↔
    IsWord text ∧ ∀ word : Keyword, text ≠ word.spelling.toList
  name : ∀ name, kind = .ident name → names.lookup name = String.ofList text
  invalid : kind = .invalid ↔
    (IsNumeral text ∧ Integer.largest < decimalValue text) ∨ IsStray text
  notEnd : kind ≠ .endOfFile

section

variable {names : NameTable} {c : Char} {cs : List Char}

theorem ne_keyword_of_not_isWord (h : ¬ IsWord cs) (word : Keyword) :
    cs ≠ word.spelling.toList := by
  rintro rfl
  exact h word.isWord

theorem spells_keyword {word : Keyword} (hText : c :: cs = word.spelling.toList) :
    Spells names (c :: cs) (.keyword word) := by
  have hWord : IsWord (c :: cs) := hText ▸ word.isWord
  obtain ⟨hNumeral, hSymbol, hStray⟩ := classes_of_isWordStart cs (isWord_cons.mp hWord).1
  constructor
  case keyword =>
    intro other
    rw [hText, Keyword.spelling_inj, TokenKind.keyword.injEq]
  case ident =>
    have hReserved : ¬ ∀ other : Keyword, c :: cs ≠ other.spelling.toList := fun h => h word hText
    simp [hReserved]
  all_goals simp [hNumeral, hSymbol, hStray]

theorem spells_ident {name : Name} (hWord : IsWord (c :: cs))
    (hFree : ∀ word : Keyword, c :: cs ≠ word.spelling.toList)
    (hName : names.lookup name = String.ofList (c :: cs)) :
    Spells names (c :: cs) (.ident name) := by
  obtain ⟨hNumeral, hSymbol, hStray⟩ := classes_of_isWordStart cs (isWord_cons.mp hWord).1
  constructor
  case name =>
    rintro _ ⟨⟩
    exact hName
  all_goals simp [hWord, hFree, hNumeral, hSymbol, hStray]

theorem spells_int {value : Int64} (hNumeral : IsNumeral (c :: cs))
    (hValue : (decimalValue (c :: cs) : Int) = value.toInt) :
    Spells names (c :: cs) (.int value) := by
  obtain ⟨hWord, hSymbol, hStray⟩ := classes_of_isDigit cs (isNumeral_cons.mp hNumeral).1
  have hFree := ne_keyword_of_not_isWord hWord
  constructor
  case int =>
    intro other
    rw [hValue, Int64.toInt_inj, TokenKind.int.injEq]
    exact (and_iff_right hNumeral).symm
  case invalid =>
    have hRange : ¬ Integer.largest < decimalValue (c :: cs) := by
      have hHigh := value.toInt_lt
      rw [hValue, Integer.largest]
      omega
    simp [hRange, hStray]
  all_goals simp [hWord, hFree, hSymbol]

theorem spells_large (hNumeral : IsNumeral (c :: cs))
    (hValue : Integer.largest < decimalValue (c :: cs)) : Spells names (c :: cs) .invalid := by
  obtain ⟨hWord, hSymbol, -⟩ := classes_of_isDigit cs (isNumeral_cons.mp hNumeral).1
  have hFree := ne_keyword_of_not_isWord hWord
  constructor
  case int =>
    intro value
    have hHigh := value.toInt_lt
    have hRange : (decimalValue (c :: cs) : Int) ≠ value.toInt := by
      rw [Integer.largest] at hValue
      omega
    simp [hRange]
  all_goals simp [hWord, hFree, hSymbol, hNumeral, hValue]

theorem spells_symbol {sign : Symbol} (hText : c :: cs = sign.spelling.toList) :
    Spells names (c :: cs) (.symbol sign) := by
  obtain ⟨-, hStart, hDigit⟩ := Symbol.classes_of_spelling hText.symm
  obtain ⟨hWord, hNumeral⟩ := classes_of_other cs hStart hDigit
  have hFree := ne_keyword_of_not_isWord hWord
  have hStray : ¬ IsStray (c :: cs) := by
    rintro ⟨d, hChar, -, -, -, hNone⟩
    exact hNone sign (by rw [← hText, hChar]; rfl)
  constructor
  case symbol =>
    intro other
    rw [hText, TokenKind.symbol.injEq]
    exact ⟨fun h => h ▸ rfl, Symbol.spelling_inj⟩
  all_goals simp [hWord, hFree, hNumeral, hStray]

theorem spells_stray (hStray : Lexeme.Stray c) : Spells names [c] .invalid := by
  have hSingle : IsStray [c] := ⟨c, rfl, hStray⟩
  obtain ⟨-, hStart, hDigit, hNone⟩ := hStray
  obtain ⟨hWord, hNumeral⟩ := classes_of_other [] hStart hDigit
  have hFree := ne_keyword_of_not_isWord hWord
  have hSymbol : ∀ sign : Symbol, [c] ≠ sign.spelling.toList := fun sign hText =>
    hNone sign (by rw [← hText]; rfl)
  constructor
  all_goals simp [hWord, hFree, hNumeral, hSymbol, hSingle]

end

/-! ## Lexemes and what they leave -/

namespace Lexeme

/-- The kind of the token that a lexeme leaves, if it leaves one, and the name table afterwards. -/
def read (names : NameTable) : Lexeme → Option TokenKind × NameTable
  | blank _ | lineComment _ | blockComment _ | openComment _ => (none, names)
  | word first more => (wordKind names (String.ofList (first :: more))).map some id
  | digits first more =>
    (some ((Integer.ofInt? (decimalValue (first :: more))).elim .invalid .int), names)
  | symbol sign => (some (.symbol sign), names)
  | stray _ => (some .invalid, names)

/-- The error of a lexeme that starts at a byte offset, if there is one. -/
def error? (start : Nat) (l : Lexeme) : Option LexError :=
  let span : Span := ⟨start, start + byteLength l.text⟩
  match l with
  | openComment _ => some (.unterminatedComment ⟨start, start + 2⟩)
  | digits first more =>
    if Integer.ofInt? (decimalValue (first :: more)) = none then
      some (.intOutOfRange (String.ofList (first :: more)) span)
    else none
  | stray c => some (.invalidChar c span)
  | _ => none

/-! ## The kind is the one spelled -/

theorem spells_wordKind {names final : NameTable} {c : Char} {cs : List Char}
    (hWord : IsWord (c :: cs))
    (hKept : ∀ text name, (wordKind names (String.ofList (c :: cs))).2.Has text name →
      final.Has text name) :
    Spells final (c :: cs) (wordKind names (String.ofList (c :: cs))).1 := by
  rw [wordKind] at hKept ⊢
  cases hReserved : Keyword.ofSpelling? (String.ofList (c :: cs)) with
  | some word =>
    have hText := congrArg String.toList (Keyword.ofSpelling?_eq_some_iff.mp hReserved)
    rw [String.toList_ofList] at hText
    exact spells_keyword hText.symm
  | none =>
    rw [hReserved] at hKept
    refine spells_ident hWord (fun word hText => ?_) (hKept _ _ (names.has_intern _)).lookup
    have hSome : Keyword.ofSpelling? (String.ofList (c :: cs)) = some word :=
      Keyword.ofSpelling?_eq_some_iff.mpr (by rw [hText, String.ofList_toList])
    cases hReserved.symm.trans hSome

/-- The kind that a lexeme leaves is the one its text spells. -/
theorem spells_of_read {l : Lexeme} {rest : List Char} {names final : NameTable} {kind : TokenKind}
    (hFits : l.Fits rest) (hRead : (l.read names).1 = some kind)
    (hKept : ∀ text name, (l.read names).2.Has text name → final.Has text name) :
    Spells final l.text kind := by
  cases l with
  | blank | lineComment | blockComment | openComment => cases hRead
  | word first more =>
    obtain ⟨hStart, hMore, -⟩ := hFits
    cases hRead
    exact spells_wordKind (isWord_cons.mpr ⟨hStart, hMore⟩) hKept
  | digits first more =>
    obtain ⟨hDigit, hMore, -⟩ := hFits
    have hNumeral : IsNumeral (first :: more) := isNumeral_cons.mpr ⟨hDigit, hMore⟩
    cases hRead
    cases hValue : Integer.ofInt? (decimalValue (first :: more)) with
    | some value => exact spells_int hNumeral (Integer.ofInt?_eq_some_iff.mp hValue)
    | none =>
      obtain hLow | hHigh := (Integer.ofInt?_eq_none_iff _).mp hValue
      · rw [Integer.least] at hLow
        omega
      · exact spells_large hNumeral hHigh
  | symbol sign =>
    cases hRead
    obtain ⟨c, cs, hText⟩ := List.exists_cons_of_ne_nil (symbol sign).text_ne_nil
    rw [hText]
    exact spells_symbol hText.symm
  | stray c =>
    cases hRead
    exact spells_stray hFits

end Lexeme

/-! ## Spellings that could be longer -/

/-- A character with which a spelling would be longer, or open a comment. -/
inductive Continues : List Char → Char → Prop
  | word {text c} (hText : IsWord text) (hPart : isWordPart c = true) : Continues text c
  | numeral {text c} (hText : IsNumeral text) (hDigit : c.isDigit = true) : Continues text c
  | symbol {sign : Symbol} {c} (h : sign.ContinuedBy c) : Continues sign.spelling.toList c

/-- What continues a text depends on how the text starts. -/
theorem Continues.cases_first {c d : Char} {cs : List Char} (h : Continues (c :: cs) d) :
    (isWordStart c = true ∧ isWordPart d = true) ∨ (c.isDigit = true ∧ d.isDigit = true) ∨
      ∃ sign : Symbol, c :: cs = sign.spelling.toList ∧ sign.ContinuedBy d := by
  generalize hText : c :: cs = text at h
  cases h with
  | word hWord hPart => exact .inl ⟨(isWord_cons.mp (hText ▸ hWord)).1, hPart⟩
  | numeral hNumeral hDigit => exact .inr (.inl ⟨(isNumeral_cons.mp (hText ▸ hNumeral)).1, hDigit⟩)
  | @symbol sign _ hSign => exact .inr (.inr ⟨sign, rfl, hSign⟩)

/-- The spelling of a token is as long as it can be. -/
theorem Lexeme.stopsAt_continues {l : Lexeme} {rest : List Char} {names : NameTable}
    {kind : TokenKind} (hFits : l.Fits rest) (hRead : (l.read names).1 = some kind) :
    StopsAt (Continues l.text) rest := by
  intro d hHead hContinues
  cases l with
  | blank | lineComment | blockComment | openComment => cases hRead
  | word first more =>
    obtain ⟨hStart, -, hStop⟩ := hFits
    obtain ⟨-, hPart⟩ | ⟨hDigit, -⟩ | ⟨sign, hText, -⟩ := hContinues.cases_first
    · exact hStop d hHead hPart
    · exact Bool.eq_false_iff.mp (not_isWordStart_of_isDigit hDigit) hStart
    · exact (classes_of_isWordStart more hStart).2.1 sign hText
  | digits first more =>
    obtain ⟨hDigit, -, hStop⟩ := hFits
    obtain ⟨hStart, -⟩ | ⟨-, hPart⟩ | ⟨sign, hText, -⟩ := hContinues.cases_first
    · exact Bool.eq_false_iff.mp (not_isWordStart_of_isDigit hDigit) hStart
    · exact hStop d hHead hPart
    · exact (classes_of_isDigit more hDigit).2.1 sign hText
  | symbol sign =>
    obtain ⟨c, cs, hText⟩ := List.exists_cons_of_ne_nil (symbol sign).text_ne_nil
    obtain ⟨-, hStart, hDigit⟩ := Symbol.classes_of_spelling hText
    rw [hText] at hContinues
    obtain ⟨hOther, -⟩ | ⟨hOther, -⟩ | ⟨other, hOther, hSign⟩ := hContinues.cases_first
    · exact Bool.eq_false_iff.mp hStart hOther
    · exact Bool.eq_false_iff.mp hDigit hOther
    · rw [Symbol.spelling_inj (hOther.symm.trans hText.symm)] at hSign
      exact hFits d hHead hSign
  | stray c =>
    obtain ⟨-, hStart, hDigit, hNone⟩ := hFits
    obtain ⟨hOther, -⟩ | ⟨hOther, -⟩ | ⟨sign, hText, -⟩ := hContinues.cases_first
    · exact Bool.eq_false_iff.mp hStart hOther
    · exact Bool.eq_false_iff.mp hDigit hOther
    · exact hNone sign (by rw [← hText]; rfl)

/-! ## The tokens of a list of lexemes -/

/-- What the first lexeme of a list leaves comes before what the others leave. -/
theorem ofLexemes_cons (start : Nat) (names : NameTable) (l : Lexeme) (ls : List Lexeme) :
    let stop := start + byteLength l.text
    let after := Lexed.ofLexemes stop (l.read names).2 ls
    Lexed.ofLexemes start names (l :: ls) =
      { tokens := (l.read names).1.toList.map (⟨·, ⟨start, stop⟩⟩) ++ after.tokens
        errors := (l.error? start).toList ++ after.errors
        names := after.names } := by
  cases l with
  | digits first more =>
    cases hValue : Integer.ofInt? (decimalValue (first :: more)) <;>
      simp [Lexed.ofLexemes, Lexeme.read, Lexeme.error?, hValue, Lexed.withToken, Lexed.withError]
  | _ => simp [Lexed.ofLexemes, Lexeme.read, Lexeme.error?, Lexed.withToken, Lexed.withError]

theorem Lexeme.has_read {names : NameTable} {text : String} {name : Name} (h : names.Has text name)
    (l : Lexeme) : (l.read names).2.Has text name := by
  cases l with
  | word first more =>
    simp only [read, wordKind]
    split
    · exact h
    · exact h.intern _
  | _ => exact h

/-- The names that a table has stay. -/
theorem has_ofLexemes {names : NameTable} {text : String} {name : Name} (start : Nat)
    (ls : List Lexeme) (h : names.Has text name) :
    (Lexed.ofLexemes start names ls).names.Has text name := by
  induction ls generalizing start names with
  | nil => exact h
  | cons l ls ih =>
    rw [ofLexemes_cons]
    exact ih _ (l.has_read h)

end FeatherScript
