import FeatherScript.Proofs.Token.Layout
import Mathlib.Data.List.Forall2

/-!
# Reading written tokens back

Tokens that are written one after the other, with separators between them, are read back as they
were written. A separator is trivia that starts with a blank, so that no spelling is continued by
it; every such separator does, whatever comments it has.

* `Written`: the tokens that have a spelling, which are all but the invalid one and the end.
* `joined`, `spans`: the text of written tokens with separators between them, and where each of
  them stands in it.
* `lex_joined`: reading that text finds the tokens and no errors.
-/

namespace FeatherScript

open Text

/-! ## Written tokens and separators -/

/-- A token that is written: an integer that is not negative, an identifier that is not reserved, a
keyword or a symbol. -/
inductive Written
  | int (value : Int64) (hValue : 0 ≤ value.toInt)
  | ident (text : String) (hWord : IsWord text.toList)
      (hFree : ∀ word : Keyword, text.toList ≠ word.spelling.toList)
  | keyword (word : Keyword)
  | symbol (sign : Symbol)

namespace Written

def spelling : Written → List Char
  | int value _ => (Integer.text value).toList
  | ident text .. => text.toList
  | keyword word => word.spelling.toList
  | symbol sign => sign.spelling.toList

/-- The kind that a written token has, with identifiers by their names in a table. -/
inductive Denotes (names : NameTable) : Written → TokenKind → Prop
  | int (value hValue) : Denotes names (.int value hValue) (.int value)
  | ident {text hWord hFree name} (h : names.Has text name) :
      Denotes names (.ident text hWord hFree) (.ident name)
  | keyword (word) : Denotes names (.keyword word) (.keyword word)
  | symbol (sign) : Denotes names (.symbol sign) (.symbol sign)

end Written

/-- Trivia that starts with a blank. -/
structure Separator where
  text : List Char
  trivia : Trivia text
  startsBlank : ∃ c cs, text = c :: cs ∧ isBlank c = true

/-- Written tokens, each separated from the next one. -/
def joined : (Nat → Separator) → List Written → List Char
  | _, [] => []
  | _, [w] => w.spelling
  | seps, w :: v :: ws =>
    w.spelling ++ ((seps 0).text ++ joined (fun n => seps (n + 1)) (v :: ws))

/-- The spans of separated written tokens, the first of which starts at a byte offset. -/
def spans (start : Nat) : (Nat → Separator) → List Written → List Span
  | _, [] => []
  | seps, w :: ws =>
    let stop := start + byteLength w.spelling
    ⟨start, stop⟩ :: spans (stop + byteLength (seps 0).text) (fun n => seps (n + 1)) ws

/-! ## The lexeme of a written token -/

/-- A blank continues no spelling. -/
theorem not_continues_of_isBlank {text : List Char} {c : Char} (h : isBlank c = true) :
    ¬ Continues text c := by
  obtain ⟨-, hPart, hDigit, hSymbol⟩ := Lexeme.classes_of_isBlank h
  intro hContinues
  cases hContinues with
  | word _ hOther => exact Bool.eq_false_iff.mp hPart hOther
  | numeral _ hOther => exact Bool.eq_false_iff.mp hDigit hOther
  | symbol hOther => exact hSymbol _ hOther

/-- The decimal form of an integer that is not negative is a digit string of its value. -/
theorem isNumeral_text {value : Int64} (h : 0 ≤ value.toInt) :
    IsNumeral (Integer.text value).toList ∧
      (decimalValue (Integer.text value).toList : Int) = value.toInt := by
  have hText : (Integer.text value).toList = Nat.toDigits 10 value.toInt.toNat := by
    rw [Integer.text, Int.toString_eq_repr, Int.repr_eq_if, if_pos h, Nat.toList_repr]
  have hValue : decimalValue (Nat.toDigits 10 value.toInt.toNat) = value.toInt.toNat :=
    Nat.ofDigitChars_toDigits (by decide) (by decide)
  rw [hText, hValue]
  refine ⟨⟨Nat.toDigits_ne_nil, fun c hMem => ?_⟩, Int.toNat_of_nonneg h⟩
  exact Nat.isDigit_of_mem_toDigits (by decide) (by decide) hMem

/-- A lexeme is the one of a written token: it has the same text, it fits where the text is not
continued, it is no error, and it leaves the kind of the token. -/
structure Lexeme.IsOf (l : Lexeme) (w : Written) : Prop where
  text : l.text = w.spelling
  fits : ∀ rest, StopsAt (Continues w.spelling) rest → l.Fits rest
  error : ∀ start, l.error? start = none
  read : ∀ names, ∃ kind, (l.read names).1 = some kind ∧ w.Denotes (l.read names).2 kind

theorem Written.exists_lexeme (w : Written) : ∃ l : Lexeme, l.IsOf w := by
  cases w with
  | int value hValue =>
    obtain ⟨hNumeral, hDecimal⟩ := isNumeral_text hValue
    obtain ⟨first, more, hText⟩ := List.exists_cons_of_ne_nil hNumeral.1
    have hRead : Integer.ofInt? (decimalValue (first :: more)) = some value :=
      Integer.ofInt?_eq_some_iff.mpr (hText ▸ hDecimal)
    obtain ⟨hFirst, hMore⟩ := isNumeral_cons.mp (hText ▸ hNumeral)
    exact ⟨.digits first more,
      { text := hText.symm
        fits := fun rest hStop =>
          ⟨hFirst, hMore, fun c hHead hDigit => hStop c hHead (.numeral hNumeral hDigit)⟩
        error := fun start => by simp [Lexeme.error?, hRead]
        read := fun names => ⟨.int value, by simp [Lexeme.read, hRead], .int value hValue⟩ }⟩
  | ident text hWord hFree =>
    obtain ⟨first, more, hText, hStart, hMore⟩ := hWord
    have hString : String.ofList (first :: more) = text := by rw [← hText, String.ofList_toList]
    have hNone : Keyword.ofSpelling? text = none := by
      refine Option.eq_none_iff_forall_ne_some.mpr fun word hSome => hFree word ?_
      rw [Keyword.ofSpelling?_eq_some_iff.mp hSome]
    exact ⟨.word first more,
      { text := hText.symm
        fits := fun rest hStop =>
          ⟨hStart, hMore, fun c hHead hPart =>
            hStop c hHead (.word ⟨first, more, hText, hStart, hMore⟩ hPart)⟩
        error := fun start => rfl
        read := fun names => by
          rw [Lexeme.read, hString, wordKind, hNone]
          exact ⟨_, rfl, .ident (names.has_intern text)⟩ }⟩
  | keyword word =>
    obtain ⟨first, more, hText, hStart, hMore⟩ := word.isWord
    have hString : String.ofList (first :: more) = word.spelling := by
      rw [← hText, String.ofList_toList]
    exact ⟨.word first more,
      { text := hText.symm
        fits := fun rest hStop =>
          ⟨hStart, hMore, fun c hHead hPart => hStop c hHead (.word word.isWord hPart)⟩
        error := fun start => rfl
        read := fun names => by
          rw [Lexeme.read, hString, wordKind, Keyword.ofSpelling?_eq_some_iff.mpr rfl]
          exact ⟨_, rfl, .keyword word⟩ }⟩
  | symbol sign =>
    exact ⟨.symbol sign,
      { text := rfl
        fits := fun rest hStop c hHead hSign => hStop c hHead (.symbol hSign)
        error := fun start => rfl
        read := fun names => ⟨_, rfl, .symbol sign⟩ }⟩

/-! ## Reading back -/

theorem lexemes_append {l : Lexeme} {rest : List Char} (hFits : l.Fits rest) :
    lexemes (l.text ++ rest) = l :: lexemes rest :=
  lexemes_eq_iff.mpr (.cons hFits (cuts_lexemes rest))

/-- A lexeme that leaves no token and no error moves the start of the others. -/
theorem ofLexemes_of_silent {l : Lexeme} {rest : List Char} (hFits : l.Fits rest) (start : Nat)
    (names : NameTable) (hRead : l.read names = (none, names)) (hError : l.error? start = none) :
    Lexed.ofLexemes start names (lexemes (l.text ++ rest)) =
      .ofLexemes (start + byteLength l.text) names (lexemes rest) := by
  rw [lexemes_append hFits, ofLexemes_cons, hRead, hError]
  rfl

/-- Trivia leave no tokens and no errors. -/
theorem ofLexemes_trivia {gap : List Char} (hGap : Trivia gap) (start : Nat) (names : NameTable)
    (rest : List Char) :
    Lexed.ofLexemes start names (lexemes (gap ++ rest)) =
      .ofLexemes (start + byteLength gap) names (lexemes rest) := by
  have hBlank : ∀ {c : Char} (cs : List Char) (start : Nat), isBlank c = true →
      Lexed.ofLexemes start names (lexemes (c :: cs)) =
        .ofLexemes (start + c.utf8Size) names (lexemes cs) := fun {c} cs start hBlank =>
    ofLexemes_of_silent (l := .blank c) hBlank start names rfl rfl
  induction hGap generalizing start with
  | nil => rfl
  | @blank c cs hFirst h ih =>
    rw [List.cons_append, hBlank _ _ hFirst, ih, byteLength_cons, Nat.add_assoc]
  | @line body cs hBody h ih =>
    have hFits : (Lexeme.lineComment body).Fits ('\n' :: (cs ++ rest)) :=
      ⟨hBody, stopsAt_cons.mpr (not_not.mpr rfl)⟩
    have hComment := ofLexemes_of_silent hFits start names rfl rfl
    rw [hBlank _ _ (by decide), ih] at hComment
    simpa [Lexeme.text, Nat.add_assoc] using hComment
  | @block body cs hBody h ih =>
    have hFits : (Lexeme.blockComment body).Fits (cs ++ rest) := hBody
    have hComment := ofLexemes_of_silent hFits start names rfl rfl
    rw [ih] at hComment
    simpa [Lexeme.text, Nat.add_assoc] using hComment

theorem Written.Denotes.mono {names final : NameTable} {w : Written} {kind : TokenKind}
    (h : w.Denotes names kind) (hKept : ∀ text name, names.Has text name → final.Has text name) :
    w.Denotes final kind := by
  cases h with
  | int => exact .int _ _
  | ident hHas => exact .ident (hKept _ _ hHas)
  | keyword => exact .keyword _
  | symbol => exact .symbol _

/-- Written tokens were read back, each with its span: there are no errors, and the last token marks
the end of the text. -/
def Lexed.ReadsBack (out : Lexed) (ws : List Written) (places : List Span) (stop : Nat) : Prop :=
  out.errors = [] ∧ ∃ ts, out.tokens = ts ++ [⟨.endOfFile, .point stop⟩] ∧
    List.Forall₂ (fun w t => w.Denotes out.names t.kind) ws ts ∧ ts.map Token.span = places

/-- A written token that is not continued is read back before the others. -/
theorem Lexed.ReadsBack.cons {w : Written} {rest : List Char} {ws : List Written}
    {places : List Span} {start stop : Nat} (names : NameTable)
    (hStop : StopsAt (Continues w.spelling) rest)
    (h : ∀ names, (Lexed.ofLexemes (start + byteLength w.spelling) names
      (lexemes rest)).ReadsBack ws places stop) :
    (Lexed.ofLexemes start names (lexemes (w.spelling ++ rest))).ReadsBack (w :: ws)
      (⟨start, start + byteLength w.spelling⟩ :: places) stop := by
  obtain ⟨l, hText, hFits, hError, hRead⟩ := w.exists_lexeme
  obtain ⟨kind, hKind, hDenotes⟩ := hRead names
  obtain ⟨hErrors, ts, hTokens, hKinds, hSpans⟩ := h (l.read names).2
  rw [← hText] at hErrors hTokens hKinds ⊢
  rw [lexemes_append (hFits rest hStop), ofLexemes_cons, hKind, hError]
  refine ⟨hErrors, ⟨kind, start, start + byteLength l.text⟩ :: ts, congrArg _ hTokens, ?_, ?_⟩
  · have hFinal := hDenotes.mono fun text name hHas =>
      has_ofLexemes (start + byteLength l.text) (lexemes rest) hHas
    exact .cons hFinal hKinds
  · rw [List.map_cons, hSpans]

theorem readsBack_joined (seps : Nat → Separator) (ws : List Written) (start : Nat)
    (names : NameTable) :
    (Lexed.ofLexemes start names (lexemes (joined seps ws))).ReadsBack ws (spans start seps ws)
      (start + byteLength (joined seps ws)) := by
  induction ws generalizing seps start names with
  | nil =>
    rw [joined, lexemes]
    exact ⟨rfl, [], rfl, .nil, rfl⟩
  | cons w ws ih =>
    cases ws with
    | nil =>
      have hLast : ∀ names, (Lexed.ofLexemes (start + byteLength w.spelling) names
          (lexemes [])).ReadsBack [] [] (start + byteLength w.spelling) := by
        intro names
        rw [lexemes]
        exact ⟨rfl, [], rfl, .nil, rfl⟩
      have h := Lexed.ReadsBack.cons names (stopsAt_nil _) hLast
      rwa [List.append_nil] at h
    | cons v ws =>
      obtain ⟨c, cs, hSep, hBlank⟩ := (seps 0).startsBlank
      have hStop : StopsAt (Continues w.spelling)
          ((seps 0).text ++ joined (fun n => seps (n + 1)) (v :: ws)) := by
        rw [hSep, List.cons_append, stopsAt_cons]
        exact not_continues_of_isBlank hBlank
      refine .cons names hStop fun names => ?_
      rw [ofLexemes_trivia (seps 0).trivia]
      have h := ih (fun n => seps (n + 1))
        (start + byteLength w.spelling + byteLength (seps 0).text) names
      simpa [joined, Nat.add_assoc] using h

/-- Written tokens are read back as they were written, whatever separates them. -/
theorem lex_joined (seps : Nat → Separator) (ws : List Written) (names : NameTable) :
    let out := lex (String.ofList (joined seps ws)) names
    out.errors = [] ∧
      ∃ ts, out.tokens = ts ++ [⟨.endOfFile, .point (byteLength (joined seps ws))⟩] ∧
        List.Forall₂ (fun w t => w.Denotes out.names t.kind) ws ts ∧
        ts.map Token.span = spans 0 seps ws := by
  have h := readsBack_joined seps ws 0 names
  rw [Nat.zero_add] at h
  rw [lex, String.toList_ofList]
  exact h

end FeatherScript
