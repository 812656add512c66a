import FeatherScript.Proofs.Token.Spelling

/-!
# Where the tokens of a source stand

The tokens of a source stand in order and apart from each other, each over the text that spells it,
and everything else is blank or comment. A comment is complete, but for the last one, which may be
cut off by the end of the source.

* `Trivia`, `Trailing`: the texts before a token and after the last one.
* `Laid`: a text is trivia and spellings in turn, and the tokens stand over the spellings.
* `laid_ofLexemes`: the tokens of the lexemes of a text are laid over it.
* `lex_layout`: what this says about the spans of the tokens of a source.
-/

namespace FeatherScript

open Text

/-! ## Texts without tokens -/

/-- Blanks, line comments with the line feed after them, and comments that are closed. -/
inductive Trivia : List Char → Prop
  | nil : Trivia []
  | blank {c cs} (hBlank : isBlank c = true) (h : Trivia cs) : Trivia (c :: cs)
  | line {body cs} (hBody : ∀ c ∈ body, c ≠ '\n') (h : Trivia cs) :
      Trivia ('/' :: '/' :: (body ++ '\n' :: cs))
  | block {body cs} (hBody : ¬ HasMark body) (h : Trivia cs) :
      Trivia ('/' :: '*' :: (body ++ '*' :: '/' :: cs))

/-- The text after the last token, which may also end in a line comment without a line feed, or in
a comment that is not closed. -/
inductive Trailing : List Char → Prop
  | trivia {gap} (h : Trivia gap) : Trailing gap
  | line {gap body} (h : Trivia gap) (hBody : ∀ c ∈ body, c ≠ '\n') :
      Trailing (gap ++ '/' :: '/' :: body)
  | unclosed {gap body} (h : Trivia gap) (hBody : ¬ HasMark body) :
      Trailing (gap ++ '/' :: '*' :: body)

/-- What may be put before trivia may be put before trailing text. -/
theorem Trailing.prepend {piece cs : List Char} (hPiece : ∀ gap, Trivia gap → Trivia (piece ++ gap))
    (h : Trailing cs) : Trailing (piece ++ cs) := by
  cases h with
  | trivia h => exact .trivia (hPiece _ h)
  | line h hBody =>
    rw [← List.append_assoc]
    exact .line (hPiece _ h) hBody
  | unclosed h hBody =>
    rw [← List.append_assoc]
    exact .unclosed (hPiece _ h) hBody

theorem Trivia.tail_of_blank {c : Char} {cs : List Char} (hBlank : isBlank c = true)
    (h : Trivia (c :: cs)) : Trivia cs := by
  cases h with
  | blank _ h => exact h
  | line => exact absurd hBlank (by decide)
  | block => exact absurd hBlank (by decide)

theorem Trailing.tail_of_blank {c : Char} {cs : List Char} (hBlank : isBlank c = true)
    (h : Trailing (c :: cs)) : Trailing cs := by
  generalize hText : c :: cs = text at h
  cases h with
  | trivia h => exact .trivia (Trivia.tail_of_blank hBlank (hText ▸ h))
  | @line gap body h hBody =>
    cases gap with
    | nil =>
      cases hText
      exact absurd hBlank (by decide)
    | cons d gap =>
      cases hText
      exact .line (h.tail_of_blank hBlank) hBody
  | @unclosed gap body h hBody =>
    cases gap with
    | nil =>
      cases hText
      exact absurd hBlank (by decide)
    | cons d gap =>
      cases hText
      exact .unclosed (h.tail_of_blank hBlank) hBody

/-! ## Trivia and spellings in turn -/

/-- The text from a byte offset on is trivia and spellings in turn, each spelling as long as it can
be, and the tokens stand over the spellings. -/
inductive Laid (names : NameTable) : Nat → List Char → List Token → Prop
  | ends {start gap} (hGap : Trailing gap) : Laid names start gap []
  | token {start gap text rest kind ts} (hGap : Trivia gap) (hText : text ≠ [])
      (hSpells : Spells names text kind) (hLongest : StopsAt (Continues text) rest)
      (h : Laid names (start + byteLength gap + byteLength text) rest ts) :
      Laid names start (gap ++ (text ++ rest))
        (⟨kind, start + byteLength gap, start + byteLength gap + byteLength text⟩ :: ts)

theorem Spells.first_not_blank {names : NameTable} {c : Char} {cs : List Char} {kind : TokenKind}
    (h : Spells names (c :: cs) kind) : isBlank c = false := by
  have hWord : IsWord (c :: cs) → isBlank c = false := fun hWord =>
    Lexeme.not_isBlank (.inl (isWord_cons.mp hWord).1)
  have hNumeral : IsNumeral (c :: cs) → isBlank c = false := fun hNumeral =>
    Lexeme.not_isBlank (.inr (isNumeral_cons.mp hNumeral).1)
  cases kind with
  | int value => exact hNumeral ((h.int value).mp rfl).1
  | ident name => exact hWord (h.ident.mp ⟨name, rfl⟩).1
  | keyword word => exact hWord ((h.keyword word).mp rfl ▸ word.isWord)
  | symbol sign => exact (Symbol.classes_of_spelling ((h.symbol sign).mp rfl).symm).1
  | invalid =>
    obtain ⟨hLarge, -⟩ | ⟨d, hText, hStray⟩ := h.invalid.mp rfl
    · exact hNumeral hLarge
    · cases hText
      exact hStray.1
  | endOfFile => exact absurd rfl h.notEnd

namespace Laid

variable {names : NameTable} {start : Nat} {cs : List Char} {ts : List Token}

/-- A piece that may be put before trivia may be put before the text. -/
theorem prepend {piece : List Char} (hPiece : ∀ gap, Trivia gap → Trivia (piece ++ gap))
    (h : Laid names (start + byteLength piece) cs ts) : Laid names start (piece ++ cs) ts := by
  cases h with
  | ends hGap => exact .ends (hGap.prepend hPiece)
  | @token _ gap text rest kind ts hGap hText hSpells hLongest h =>
    have hOffset : start + byteLength piece + byteLength gap =
        start + byteLength (piece ++ gap) := by
      rw [byteLength_append, Nat.add_assoc]
    rw [hOffset] at h ⊢
    rw [← List.append_assoc]
    exact .token (hPiece gap hGap) hText hSpells hLongest h

/-- A blank at the start of the text is no part of a token. -/
theorem tail_of_blank {c : Char} (hBlank : isBlank c = true) (h : Laid names start (c :: cs) ts) :
    Laid names (start + c.utf8Size) cs ts := by
  generalize hWhole : c :: cs = whole at h
  cases h with
  | ends hGap => exact .ends (Trailing.tail_of_blank hBlank (hWhole ▸ hGap))
  | @token _ gap text rest kind ts hGap hText hSpells hLongest h =>
    cases gap with
    | nil =>
      obtain ⟨d, text, rfl⟩ := List.exists_cons_of_ne_nil hText
      cases hWhole
      rw [hSpells.first_not_blank] at hBlank
      cases hBlank
    | cons d gap =>
      cases hWhole
      rw [byteLength_cons, ← Nat.add_assoc] at h ⊢
      exact .token (hGap.tail_of_blank hBlank) hText hSpells hLongest h

theorem eq_nil (h : Laid names start [] ts) : ts = [] := by
  generalize hWhole : [] = whole at h
  cases h with
  | ends => rfl
  | token _ hText =>
    obtain ⟨-, hRest⟩ := List.append_eq_nil_iff.mp hWhole.symm
    exact absurd (List.append_eq_nil_iff.mp hRest).1 hText

end Laid

/-! ## The tokens of lexemes -/

/-- A lexeme that leaves no token may be put before what follows it. -/
theorem Laid.cons_of_read {names names' : NameTable} {start : Nat} {l : Lexeme} {rest : List Char}
    {ts : List Token} (hFits : l.Fits rest) (hRead : (l.read names').1 = none)
    (h : Laid names (start + byteLength l.text) rest ts) :
    Laid names start (l.text ++ rest) ts := by
  cases l with
  | word | digits | symbol | stray => cases hRead
  | blank c => exact h.prepend fun gap hGap => .blank hFits hGap
  | blockComment body =>
    refine h.prepend fun gap hGap => ?_
    have hTrivia := Trivia.block hFits hGap
    simpa [Lexeme.text] using hTrivia
  | lineComment body =>
    obtain ⟨hBody, hStop⟩ := hFits
    cases rest with
    | nil =>
      rw [h.eq_nil, List.append_nil]
      exact .ends (.line .nil hBody)
    | cons c cs =>
      -- The line feed after the comment is a blank, and belongs to the same trivia.
      obtain rfl : c = '\n' := not_not.mp (stopsAt_cons.mp hStop)
      have hTail := h.tail_of_blank (by decide)
      have hLine : Laid names start (('/' :: '/' :: (body ++ ['\n'])) ++ cs) ts := by
        refine .prepend (fun gap hGap => ?_) ?_
        · simpa using Trivia.line hBody hGap
        · simpa [Lexeme.text, Nat.add_assoc] using hTail
      simpa [Lexeme.text] using hLine
  | openComment body =>
    obtain ⟨hBody, rfl⟩ := hFits
    rw [h.eq_nil, List.append_nil]
    exact .ends (.unclosed .nil hBody)

/-- The tokens of the lexemes of a text are laid over it, and the last one marks its end. -/
theorem laid_ofLexemes {cs : List Char} {ls : List Lexeme} (h : Cuts cs ls) (start : Nat)
    (names : NameTable) :
    ∃ ts, (Lexed.ofLexemes start names ls).tokens =
        ts ++ [⟨.endOfFile, .point (start + byteLength cs)⟩] ∧
      Laid (Lexed.ofLexemes start names ls).names start cs ts := by
  induction h generalizing start names with
  | nil => exact ⟨[], rfl, .ends (.trivia .nil)⟩
  | @cons l rest ls hFits h ih =>
    obtain ⟨ts, hTokens, hLaid⟩ := ih (start + byteLength l.text) (l.read names).2
    rw [Nat.add_assoc, ← byteLength_append] at hTokens
    rw [ofLexemes_cons]
    cases hRead : (l.read names).1 with
    | none => exact ⟨ts, hTokens, .cons_of_read hFits hRead hLaid⟩
    | some kind =>
      refine ⟨⟨kind, start, start + byteLength l.text⟩ :: ts, congrArg _ hTokens, ?_⟩
      have hSpells := Lexeme.spells_of_read hFits hRead
        fun text name hHas => has_ofLexemes (start + byteLength l.text) ls hHas
      exact .token .nil l.text_ne_nil hSpells (Lexeme.stopsAt_continues hFits hRead) hLaid

/-! ## The spans of the tokens -/

/-- A token stands over a text of the source: its span is not empty and lies between boundaries, the
text under it spells its kind, and the character after it does not continue the spelling. -/
structure Token.StandsIn (source : List Char) (names : NameTable) (t : Token) : Prop where
  nonempty : t.span.start < t.span.stop
  inside : t.span.stop ≤ byteLength source
  startBoundary : IsBoundary source t.span.start
  stopBoundary : IsBoundary source t.span.stop
  spelling : ∃ text rest, slice? t.span.start t.span.stop source = some text ∧
    dropBytes? t.span.stop source = some rest ∧ Spells names text t.kind ∧
      StopsAt (Continues text) rest

/-- The texts before the tokens, between them and after them are trivia. -/
def Separated (source : List Char) : Nat → List Token → Prop
  | start, [] => ∃ gap, slice? start (byteLength source) source = some gap ∧ Trailing gap
  | start, t :: ts =>
    (∃ gap, slice? start t.span.start source = some gap ∧ Trivia gap) ∧
      Separated source t.span.stop ts

section

variable {names : NameTable} {start : Nat} {cs : List Char} {ts : List Token}

theorem byteLength_pos {text : List Char} (h : text ≠ []) : 0 < byteLength text := by
  obtain ⟨c, cs, rfl⟩ := List.exists_cons_of_ne_nil h
  exact Nat.add_pos_left c.utf8Size_pos _

/-- A token stands over the middle one of three texts. -/
theorem Token.standsIn_append (before : List Char) {text rest : List Char} {kind : TokenKind}
    (hText : text ≠ []) (hSpells : Spells names text kind)
    (hLongest : StopsAt (Continues text) rest) :
    Token.StandsIn (before ++ (text ++ rest)) names
      ⟨kind, byteLength before, byteLength before + byteLength text⟩ := by
  have hPos : 0 < byteLength text := byteLength_pos hText
  have hStart := dropBytes?_append before (text ++ rest)
  have hStop := dropBytes?_append (before ++ text) rest
  rw [byteLength_append, List.append_assoc] at hStop
  exact
    { nonempty := Nat.lt_add_of_pos_right hPos
      inside := by simp [← Nat.add_assoc]
      startBoundary := Option.isSome_of_eq_some hStart
      stopBoundary := Option.isSome_of_eq_some hStop
      spelling := ⟨text, rest, slice?_append before text rest, hStop, hSpells, hLongest⟩ }

theorem Laid.standsIn (h : Laid names start cs ts) (before : List Char)
    (hStart : byteLength before = start) : ∀ t ∈ ts, t.StandsIn (before ++ cs) names := by
  induction h generalizing before with
  | ends => simp
  | @token start gap text rest kind ts hGap hText hSpells hLongest h ih =>
    subst hStart
    have hFirst := Token.standsIn_append (before ++ gap) hText hSpells hLongest
    have hRest := ih (before ++ gap ++ text) (by simp only [byteLength_append])
    simp only [List.append_assoc, byteLength_append] at hFirst hRest
    exact List.forall_mem_cons.mpr ⟨hFirst, hRest⟩

theorem Laid.start_le (h : Laid names start cs ts) : ∀ t ∈ ts, start ≤ t.span.start := by
  induction h with
  | ends => simp
  | token _ _ _ _ _ ih =>
    refine List.forall_mem_cons.mpr ⟨Nat.le_add_right _ _, fun t hMem => ?_⟩
    have hLe := ih t hMem
    omega

theorem Laid.pairwise (h : Laid names start cs ts) :
    ts.Pairwise fun t u => t.span.stop ≤ u.span.start := by
  induction h with
  | ends => exact .nil
  | token _ _ _ _ h ih => exact .cons h.start_le ih

theorem Laid.separated (h : Laid names start cs ts) (before : List Char)
    (hStart : byteLength before = start) : Separated (before ++ cs) start ts := by
  induction h generalizing before with
  | @ends start gap hGap =>
    subst hStart
    refine ⟨gap, ?_, hGap⟩
    have hSlice := slice?_append before gap []
    rwa [List.append_nil, ← byteLength_append] at hSlice
  | @token start gap text rest kind ts hGap hText hSpells hLongest h ih =>
    subst hStart
    refine ⟨⟨gap, slice?_append before gap (text ++ rest), hGap⟩, ?_⟩
    have hRest := ih (before ++ gap ++ text) (by simp only [byteLength_append])
    simpa using hRest

end

/-- The tokens of a source are laid over it, and the last one marks its end. -/
theorem laid_lex (source : String) (names : NameTable) :
    ∃ ts, (lex source names).tokens =
        ts ++ [⟨.endOfFile, .point (byteLength source.toList)⟩] ∧
      Laid (lex source names).names 0 source.toList ts := by
  obtain ⟨ts, hTokens, hLaid⟩ := laid_ofLexemes (cuts_lexemes source.toList) 0 names
  rw [Nat.zero_add] at hTokens
  exact ⟨ts, hTokens, hLaid⟩

/-- The layout of a source: its last token marks its end, the others stand over the texts that
spell them, in order and apart from each other, and all other text is trivia. -/
theorem lex_layout (source : String) (names : NameTable) :
    ∃ ts, (lex source names).tokens =
        ts ++ [⟨.endOfFile, .point (byteLength source.toList)⟩] ∧
      (∀ t ∈ ts, t.StandsIn source.toList (lex source names).names) ∧
      (ts.Pairwise fun t u => t.span.stop ≤ u.span.start) ∧
      Separated source.toList 0 ts := by
  obtain ⟨ts, hTokens, hLaid⟩ := laid_lex source names
  exact ⟨ts, hTokens, hLaid.standsIn [] rfl, hLaid.pairwise, hLaid.separated [] rfl⟩

end FeatherScript
