import FeatherScript.Proofs.Token.Concatenation
import FeatherScript.Proofs.Token.Covering

/-!
# Seams between lexemes

Where a source is cut between two lexemes, both parts are cut into the lexemes they had in the
whole: what stands before the seam is not continued at its end, and what stands behind it was read
from there. Blanks at the seam are lexemes of their own, or the end of a comment that runs up to
there.

* `Seam`: an offset that is not inside of a token or a comment.
* `Cuts.split`, `Cuts.insert`: the lexemes before and behind a seam, with or without blanks there.
* `lex_at_seam`: the theorem.
-/

namespace FeatherScript

open Text

/-! ## Seams -/

/-- An offset lies between the two ends of a span. -/
def Span.Surrounds (s : Span) (p : Nat) : Prop := s.start < p ∧ p < s.stop

instance (s : Span) (p : Nat) : Decidable (s.Surrounds p) := inferInstanceAs (Decidable (_ ∧ _))

/-- Whether a lexeme is a comment, closed or not. -/
def Lexeme.isComment : Lexeme → Bool
  | lineComment _ | blockComment _ | openComment _ => true
  | _ => false

/-- The spans of the comments among lexemes, the first of which starts at an offset. -/
def commentSpans (start : Nat) : List Lexeme → List Span
  | [] => []
  | l :: ls =>
    let stop := start + byteLength l.text
    if l.isComment then ⟨start, stop⟩ :: commentSpans stop ls else commentSpans stop ls

/-- Neither a token nor a comment of the lexemes, the first of which starts at an offset, surrounds
another offset. A comment that is not closed reaches up to the end. -/
structure Apart (start : Nat) (names : NameTable) (ls : List Lexeme) (p : Nat) : Prop where
  tokens : ∀ t ∈ (Lexed.ofLexemes start names ls).tokens, ¬ t.span.Surrounds p
  comments : ∀ s ∈ commentSpans start ls, ¬ s.Surrounds p

/-- An offset that is not inside of a token or a comment of a source. -/
def Seam (source : String) (names : NameTable) (p : Nat) : Prop :=
  Apart 0 names (lexemes source.toList) p

/-! ## The two sides of a seam -/

theorem StopsAt.of_append {p : Char → Prop} {rest more : List Char} (h : StopsAt p (rest ++ more)) :
    StopsAt p rest := by
  cases rest with
  | nil => exact stopsAt_nil p
  | cons c rest => exact stopsAt_cons.mpr (stopsAt_cons.mp h)

/-- A lexeme also fits before less text. -/
theorem Lexeme.Fits.of_append {l : Lexeme} {rest more : List Char} (h : l.Fits (rest ++ more)) :
    l.Fits rest := by
  cases l with
  | blank | blockComment | stray => exact h
  | lineComment => exact ⟨h.1, h.2.of_append⟩
  | openComment => exact ⟨h.1, (List.append_eq_nil_iff.mp h.2).1⟩
  | word | digits => exact ⟨h.1, h.2.1, h.2.2.of_append⟩
  | symbol => exact StopsAt.of_append h

/-- A lexeme fits before any text that starts with the same character. -/
theorem Lexeme.Fits.of_head {l : Lexeme} {c : Char} {rest more : List Char}
    (h : l.Fits (c :: rest)) : l.Fits (c :: more) := by
  cases l with
  | blank | blockComment | stray => exact h
  | lineComment => exact h
  | openComment => cases h.2
  | word | digits => exact h
  | symbol => exact h

/-- A lexeme is a blank, a comment or a token. -/
theorem Lexeme.kind_cases (l : Lexeme) (names : NameTable) :
    (∃ c, l = blank c) ∨ l.isComment = true ∨ ∃ kind, (l.read names).1 = some kind := by
  cases l with
  | blank c => exact .inl ⟨c, rfl⟩
  | lineComment | blockComment | openComment => exact .inr (.inl rfl)
  | word | digits | symbol | stray => exact .inr (.inr ⟨_, rfl⟩)

section

variable {start p : Nat} {names : NameTable} {l : Lexeme} {ls as bs : List Lexeme}
  {x y cs : List Char}

theorem Apart.tail (h : Apart start names (l :: ls) p) :
    Apart (start + byteLength l.text) (l.read names).2 ls p := by
  obtain ⟨hTokens, hComments⟩ := h
  rw [ofLexemes_cons] at hTokens
  refine ⟨fun t hMem => hTokens t (List.mem_append_right _ hMem), fun s hMem => hComments s ?_⟩
  rw [commentSpans]
  split
  · exact List.mem_cons_of_mem _ hMem
  · exact hMem

/-- A character boundary that no token and no comment surrounds is at an end of its lexeme. -/
theorem Apart.at_end (h : Apart start names (l :: ls) (start + byteLength x))
    (hText : l.text = x ++ y) : x = [] ∨ y = [] := by
  by_contra hInside
  obtain ⟨hBefore, hBehind⟩ := not_or.mp hInside
  have hSurrounds : Span.Surrounds ⟨start, start + byteLength l.text⟩ (start + byteLength x) := by
    have hx := byteLength_pos hBefore
    have hy := byteLength_pos hBehind
    rw [hText, byteLength_append]
    exact ⟨Nat.lt_add_of_pos_right hx, Nat.add_lt_add_left (Nat.lt_add_of_pos_right hy) start⟩
  rcases l.kind_cases names with ⟨c, rfl⟩ | hComment | ⟨kind, hRead⟩
  · -- A blank is one character.
    have hLength := congrArg List.length hText
    have hx := List.length_pos_iff.mpr hBefore
    have hy := List.length_pos_iff.mpr hBehind
    simp only [Lexeme.text, List.length_cons, List.length_nil, List.length_append] at hLength
    omega
  · refine h.comments _ ?_ hSurrounds
    rw [commentSpans, if_pos hComment]
    exact List.mem_cons_self
  · refine h.tokens ⟨kind, start, start + byteLength l.text⟩ ?_ hSurrounds
    rw [ofLexemes_cons, hRead]
    exact List.mem_cons_self

/-- At a seam the lexemes fall into those of the two parts of the text. -/
theorem Cuts.split (h : Cuts cs ls) (hText : cs = x ++ y)
    (hApart : Apart start names ls (start + byteLength x)) :
    ∃ as bs, ls = as ++ bs ∧ Cuts x as ∧ Cuts y bs := by
  induction h generalizing x start names with
  | nil =>
    obtain ⟨rfl, rfl⟩ := List.append_eq_nil_iff.mp hText.symm
    exact ⟨[], [], rfl, .nil, .nil⟩
  | @cons l rest ls hFits h ih =>
    have hCases : x = [] ∨ ∃ z, x = l.text ++ z ∧ rest = z ++ y := by
      rcases List.append_eq_append_iff.mp hText with hBehind | ⟨z, hInside, hRest⟩
      · exact .inr hBehind
      · rcases hApart.at_end hInside with rfl | rfl
        · exact .inl rfl
        · exact .inr ⟨[], by rw [hInside, List.append_nil, List.append_nil], hRest.symm⟩
    rcases hCases with rfl | ⟨z, rfl, rfl⟩
    · rw [List.nil_append] at hText
      exact ⟨[], l :: ls, rfl, .nil, hText ▸ .cons hFits h⟩
    · rw [byteLength_append, ← Nat.add_assoc] at hApart
      obtain ⟨as, bs, rfl, hFirst, hSecond⟩ := ih rfl hApart.tail
      exact ⟨l :: as, bs, rfl, .cons hFits.of_append hFirst, hSecond⟩

/-! ## Blanks at a seam -/

/-- A blank ends every lexeme but a comment that runs up to it. -/
theorem Lexeme.Fits.before_blank {c : Char} (hBlank : isBlank c = true) (h : l.Fits y) :
    (∀ rest, l.Fits (c :: rest)) ∨ (∃ body, l = lineComment body ∧ c ≠ '\n') ∨
      ∃ body, l = openComment body := by
  obtain ⟨-, hPart, hDigit, hSymbol⟩ := classes_of_isBlank hBlank
  cases l with
  | blank | blockComment | stray => exact .inl fun _ => h
  | lineComment body =>
    by_cases hLine : c = '\n'
    · exact .inl fun rest => ⟨h.1, stopsAt_cons.mpr (not_not.mpr hLine)⟩
    · exact .inr (.inl ⟨body, rfl, hLine⟩)
  | openComment body => exact .inr (.inr ⟨body, rfl⟩)
  | word => exact .inl fun rest => ⟨h.1, h.2.1, stopsAt_cons.mpr (Bool.eq_false_iff.mp hPart)⟩
  | digits => exact .inl fun rest => ⟨h.1, h.2.1, stopsAt_cons.mpr (Bool.eq_false_iff.mp hDigit)⟩
  | symbol sign => exact .inl fun rest => stopsAt_cons.mpr (hSymbol sign)

/-- A blank does not close a comment. -/
theorem not_hasMark_concat {body : List Char} {c : Char} (hBlank : isBlank c = true)
    (h : ¬ HasMark body) : ¬ HasMark (body ++ [c]) := by
  unfold HasMark
  rw [List.infix_concat_iff]
  rintro (⟨before, hLast⟩ | hInside)
  · have hSlash : '/' = c := by
      have hEnds := congrArg List.getLast? hLast
      simpa using hEnds
    rw [← hSlash] at hBlank
    exact absurd hBlank (by decide)
  · exact h hInside

/-- A blank behind the last lexeme before a seam. -/
theorem Lexeme.Fits.insert_blank {c : Char} (hBlank : isBlank c = true) (h : l.Fits y) :
    ∃ as, ReadAs as [l] ∧ Cuts (l.text ++ [c]) as ∧
      ∀ bs, Cuts y bs → Cuts (l.text ++ c :: y) (as ++ bs) := by
  rcases h.before_blank hBlank with hFits | ⟨body, rfl, hLine⟩ | ⟨body, rfl⟩
  · have hLast : ∀ {z bs}, Cuts z bs → Cuts (c :: z) (.blank c :: bs) := fun {z _} hMore =>
      have hFirst : (Lexeme.blank c).Fits z := hBlank
      .cons hFirst hMore
    have hSilent : ReadAs [.blank c] [] := fun _ _ => ⟨rfl, rfl, rfl⟩
    exact ⟨[l, .blank c], hSilent.cons l, .cons (hFits []) (hLast .nil),
      fun bs hMore => .cons (hFits y) (hLast hMore)⟩
  · obtain ⟨hBody, hStop⟩ := h
    have hFits : ∀ {z}, StopsAt (· ≠ '\n') z → (Lexeme.lineComment (body ++ [c])).Fits z :=
      fun hEnd => ⟨List.forall_mem_append.mpr ⟨hBody, List.forall_mem_singleton.mpr hLine⟩, hEnd⟩
    refine ⟨[.lineComment (body ++ [c])], fun _ _ => ⟨rfl, rfl, rfl⟩, ?_, fun bs hMore => ?_⟩
    · simpa [Lexeme.text] using Cuts.cons (hFits (stopsAt_nil _)) .nil
    · simpa [Lexeme.text] using Cuts.cons (hFits hStop) hMore
  · obtain ⟨hBody, rfl⟩ := h
    have hFits : (Lexeme.openComment (body ++ [c])).Fits [] :=
      ⟨not_hasMark_concat hBlank hBody, rfl⟩
    refine ⟨[.openComment (body ++ [c])], fun _ _ => ⟨rfl, rfl, rfl⟩, ?_, fun bs hMore => ?_⟩
    · simpa [Lexeme.text] using Cuts.cons hFits .nil
    · simpa [Lexeme.text] using Cuts.cons hFits hMore

/-- A blank at a seam leaves the lexemes behind it, and changes how those before it end. -/
theorem Cuts.insert_blank {c : Char} (hBlank : isBlank c = true) (hFirst : Cuts x as)
    (h : Cuts (x ++ y) (as ++ bs)) :
    ∃ as', ReadAs as' as ∧ Cuts (x ++ [c]) as' ∧ Cuts (x ++ c :: y) (as' ++ bs) := by
  induction hFirst with
  | nil =>
    have hFits : ∀ {z}, (Lexeme.blank c).Fits z := hBlank
    exact ⟨[.blank c], fun _ _ => ⟨rfl, rfl, rfl⟩, .cons hFits .nil, .cons hFits h⟩
  | @cons l rest as hFits hRest ih =>
    rw [List.append_assoc, List.cons_append, cuts_cons_iff] at h
    obtain ⟨hFits', h⟩ := h
    cases rest with
    | nil =>
      obtain rfl := hRest.eq_nil
      obtain ⟨as', hRead, hBefore, hAll⟩ := hFits'.insert_blank hBlank
      rw [List.append_nil]
      exact ⟨as', hRead, hBefore, hAll bs h⟩
    | cons d rest =>
      obtain ⟨as', hRead, hBefore, hAll⟩ := ih h
      rw [List.append_assoc, List.append_assoc]
      exact ⟨l :: as', hRead.cons l, .cons hFits'.of_head hBefore, .cons hFits'.of_head hAll⟩

/-- Any blanks at a seam leave the lexemes behind it, and change how those before it end. -/
theorem Cuts.insert {gap : List Char} (hGap : ∀ c ∈ gap, isBlank c = true) (hFirst : Cuts x as)
    (h : Cuts (x ++ y) (as ++ bs)) :
    ∃ as', ReadAs as' as ∧ Cuts (x ++ gap) as' ∧ Cuts (x ++ gap ++ y) (as' ++ bs) := by
  induction gap generalizing x as with
  | nil =>
    rw [List.append_nil]
    exact ⟨as, .refl as, hFirst, h⟩
  | cons c gap ih =>
    obtain ⟨hBlank, hMore⟩ := List.forall_mem_cons.mp hGap
    obtain ⟨as', hRead, hBefore, hAll⟩ := hFirst.insert_blank hBlank h
    have hSplit : ∀ z, x ++ c :: z = x ++ [c] ++ z := fun z => by simp
    rw [hSplit] at hAll ⊢
    obtain ⟨as'', hRead', hBefore', hAll'⟩ := ih hMore hBefore hAll
    exact ⟨as'', hRead'.trans hRead, hBefore', hAll'⟩

end

/-! ## The theorem -/

/-- A source that is cut into the lexemes of two texts is read as one text behind the other. -/
theorem lex_append {before after : String} {as bs : List Lexeme} (names : NameTable)
    (hFirst : Cuts before.toList as) (hSecond : Cuts after.toList bs)
    (h : Cuts (before.toList ++ after.toList) (as ++ bs)) :
    lex (before ++ after) names = (lex before names).followedBy
      ((lex after (lex before names).names).mapSpans (.shift (byteLength before.toList))) := by
  have hText : as.flatMap Lexeme.text = before.toList := by
    rw [← lexemes_eq_iff.mpr hFirst, text_lexemes]
  rw [lex, lex, lex, String.toList_append, lexemes_eq_iff.mpr h, lexemes_eq_iff.mpr hFirst,
    lexemes_eq_iff.mpr hSecond, ofLexemes_append, hText, Nat.zero_add, ← ofLexemes_shift]
  rfl

/-- The tokens of a source, but for its end, and the errors start before its end. -/
theorem lex_start_lt (source : String) (names : NameTable) :
    (∀ t ∈ (lex source names).tokens.dropLast, t.span.start < byteLength source.toList) ∧
      ∀ e ∈ (lex source names).errors, e.span.start < byteLength source.toList := by
  obtain ⟨ts, hTokens, hLaid⟩ := laid_lex source names
  refine ⟨fun t hMem => ?_, fun e hMem => ?_⟩
  · rw [hTokens, List.dropLast_concat] at hMem
    have hStands := hLaid.standsIn [] rfl t hMem
    exact Nat.lt_of_lt_of_le hStands.nonempty hStands.inside
  · have hOver := lex_error_over source names e hMem
    exact Nat.lt_of_lt_of_le hOver.nonempty hOver.inside

/-- Reading is local to seams. At every character boundary of a source that is not inside of a token
or a comment, the source is read as its two parts: the tokens and errors of the first part, but for
its end, and then those of the second part, read with the names that the first one left and moved
behind it. Blanks that are inserted there only move the tokens and errors from there on. -/
theorem lex_at_seam (before after : String) (names : NameTable)
    (hSeam : Seam (before ++ after) names (byteLength before.toList)) :
    lex (before ++ after) names = (lex before names).followedBy
      ((lex after (lex before names).names).mapSpans (.shift (byteLength before.toList))) ∧
    ∀ gap : String, (∀ c ∈ gap.toList, isBlank c = true) →
      lex (before ++ gap ++ after) names = (lex (before ++ after) names).mapSpans
        (.shiftFrom (byteLength before.toList) (byteLength gap.toList)) := by
  have hCuts := cuts_lexemes (before ++ after).toList
  have hApart : Apart 0 names (lexemes (before ++ after).toList)
      (0 + byteLength before.toList) := by
    rw [Nat.zero_add]
    exact hSeam
  obtain ⟨as, bs, hLexemes, hFirst, hSecond⟩ := hCuts.split String.toList_append hApart
  rw [hLexemes, String.toList_append] at hCuts
  have hWhole := lex_append names hFirst hSecond hCuts
  refine ⟨hWhole, fun gap hGap => ?_⟩
  obtain ⟨as', hRead, hBefore, hAll⟩ := hFirst.insert hGap hCuts
  rw [← String.toList_append] at hBefore hAll
  have hSame : (lex (before ++ gap) names).SameBeforeEnd (lex before names) := by
    rw [lex, lex, lexemes_eq_iff.mpr hBefore, lexemes_eq_iff.mpr hFirst]
    exact hRead 0 names
  obtain ⟨hTokens, hErrors⟩ := lex_start_lt before names
  calc
    lex (before ++ gap ++ after) names =
        (lex before names).followedBy ((lex after (lex before names).names).mapSpans
          (.shift (byteLength gap.toList + byteLength before.toList))) := by
      rw [lex_append names hBefore hSecond hAll, hSame.followedBy_eq, hSame.names,
        String.toList_append, byteLength_append, Nat.add_comm]
    _ = (lex (before ++ after) names).mapSpans
        (.shiftFrom (byteLength before.toList) (byteLength gap.toList)) := by
      rw [hWhole, Lexed.mapSpans_followedBy
        (fun t hMem => Span.shiftFrom_of_lt (hTokens t hMem))
        (fun e hMem => Span.shiftFrom_of_lt (hErrors e hMem)), Lexed.mapSpans_mapSpans,
        Span.shiftFrom_comp_shift]

/-- A word, a stray character of two bytes and a line comment. -/
def commentedLine : String := "aé//b"

/-- A line feed, two words and a comment that is not closed. -/
def openedLine : String := "\nb a/*/"

theorem lex_commentedLine : lex (commentedLine ++ openedLine) .initial =
    ⟨[⟨.ident ⟨1⟩, ⟨0, 1⟩⟩, ⟨.invalid, ⟨1, 3⟩⟩, ⟨.ident ⟨2⟩, ⟨7, 8⟩⟩, ⟨.ident ⟨1⟩, ⟨9, 10⟩⟩,
      ⟨.endOfFile, ⟨13, 13⟩⟩],
    [.invalidChar 'é' ⟨1, 3⟩, .unterminatedComment ⟨10, 12⟩], ⟨#["", "a", "b"]⟩⟩ := by
  decide +kernel

-- The blank before the line feed lengthens the comment, and the one after it does not.
theorem lex_at_seam_commentedLine :
    Seam (commentedLine ++ openedLine) .initial 6 ∧
    (∀ c ∈ " \n ".toList, isBlank c = true) ∧
    lex (commentedLine ++ openedLine) .initial = (lex commentedLine .initial).followedBy
      ((lex openedLine (lex commentedLine .initial).names).mapSpans (.shift 6)) ∧
    lex (commentedLine ++ " \n " ++ openedLine) .initial =
      (lex (commentedLine ++ openedLine) .initial).mapSpans (.shiftFrom 6 3) := by
  have hComments : commentSpans 0 (lexemes (commentedLine ++ openedLine).toList) =
      [⟨3, 6⟩, ⟨10, 13⟩] := by decide +kernel
  have hSeam : Seam (commentedLine ++ openedLine) .initial 6 := by
    constructor
    · show ∀ t ∈ (lex (commentedLine ++ openedLine) .initial).tokens, ¬ t.span.Surrounds 6
      rw [lex_commentedLine]
      decide
    · rw [hComments]
      decide
  have hBlanks : ∀ c ∈ " \n ".toList, isBlank c = true := List.all_eq_true.mp (by decide)
  obtain ⟨hParts, hInserted⟩ := lex_at_seam commentedLine openedLine .initial hSeam
  exact ⟨hSeam, hBlanks, hParts, hInserted " \n " hBlanks⟩

end FeatherScript
