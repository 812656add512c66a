import FeatherScript.Proofs.Token.Concatenation
import Mathlib.Data.List.Forall2

/-!
# Invalid tokens and their errors

A reading of a source leaves its tokens and its errors apart. Where no token can be read, it leaves
an invalid one and an error about it, so the invalid tokens and the errors go in step. The one error
without a token is that of a comment that is not closed; nothing is read behind its opening mark.

* `LexError.About`: an error about an invalid token.
* `OpenedAt`: an opening mark without a closing one.
* `errors_in_step`: the theorem.
-/

namespace FeatherScript

open Text

/-- An error about an invalid token of a source, which stands over the character or the literal that
the error holds. -/
inductive LexError.About (cs : List Char) : LexError → Token → Prop
  | invalidChar {found span} (hText : slice? span.start span.stop cs = some [found]) :
      About cs (.invalidChar found span) ⟨.invalid, span⟩
  | intOutOfRange {literal span} (hText : slice? span.start span.stop cs = some literal.toList) :
      About cs (.intOutOfRange literal span) ⟨.invalid, span⟩

/-- A span of a source is that of an opening mark of a comment. No closing mark follows it, and the
tokens, but for the end of the source, stand before it. -/
structure OpenedAt (cs : List Char) (tokens : List Token) (span : Span) : Prop where
  mark : slice? span.start span.stop cs = some ['/', '*']
  unclosed : ∃ rest, dropBytes? span.stop cs = some rest ∧ ¬ HasMark rest
  last : ∀ t ∈ tokens, t.kind ≠ .endOfFile → t.span.stop ≤ span.start

/-- The invalid ones among tokens. -/
def invalidTokens (tokens : List Token) : List Token := tokens.filter (·.kind = .invalid)

/-- The errors of a reading are those of its invalid tokens, and then at most that of a comment that
is not closed. -/
def InStep (cs : List Char) (out : Lexed) : Prop :=
  ∃ early late, out.errors = early ++ late ∧
    List.Forall₂ (LexError.About cs) early (invalidTokens out.tokens) ∧
    (late = [] ∨ ∃ span, late = [.unterminatedComment span] ∧ OpenedAt cs out.tokens span)

variable {cs : List Char}

theorem wordKind_ne_invalid (names : NameTable) (word : String) :
    (wordKind names word).1 ≠ .invalid := by
  unfold wordKind
  split <;> nofun

/-- A lexeme that is no open comment leaves an error if it leaves an invalid token. -/
theorem Lexeme.error?_about (l : Lexeme) (before rest : List Char) (names : NameTable)
    (hOpen : ∀ body, l ≠ openComment body) :
    List.Forall₂ (LexError.About (before ++ (l.text ++ rest))) (l.error? (byteLength before)).toList
      (invalidTokens ((l.read names).1.toList.map
        (⟨·, ⟨byteLength before, byteLength before + byteLength l.text⟩⟩))) := by
  have hText := slice?_append before l.text rest
  cases l with
  | openComment body => exact absurd rfl (hOpen body)
  | blank | lineComment | blockComment | symbol => exact .nil
  | word first more => simp [error?, read, invalidTokens, wordKind_ne_invalid]
  | digits first more =>
    cases hValue : Integer.ofInt? (decimalValue (first :: more)) with
    | some value => simp [error?, read, invalidTokens, hValue]
    | none =>
      have hLiteral : slice? (byteLength before) (byteLength before + byteLength (first :: more))
          (before ++ (first :: more ++ rest)) = some (String.ofList (first :: more)).toList := by
        rw [String.toList_ofList]
        exact hText
      have hKind : ((digits first more).read names).1 = some .invalid := by
        rw [read, hValue]
        rfl
      rw [error?, if_pos hValue, hKind]
      exact .cons (.intOutOfRange hLiteral) .nil
  | stray c => exact .cons (.invalidChar hText) .nil

/-- What an opening mark leaves. -/
theorem inStep_openComment (before : List Char) {body : List Char} (names : NameTable)
    (hBody : ¬ HasMark body) :
    InStep (before ++ '/' :: '*' :: body)
      (.ofLexemes (byteLength before) names [.openComment body]) := by
  have hMark : OpenedAt (before ++ (['/', '*'] ++ body))
      [⟨.endOfFile, .point (byteLength before + byteLength (Lexeme.openComment body).text)⟩]
      ⟨byteLength before, byteLength before + 2⟩ :=
    { mark := slice?_append before ['/', '*'] body
      unclosed := by
        refine ⟨body, ?_, hBody⟩
        have hDrop := dropBytes?_append (before ++ ['/', '*']) body
        rwa [byteLength_append, List.append_assoc] at hDrop
      last := by
        intro t hMem hMore
        obtain rfl := List.mem_singleton.mp hMem
        exact absurd rfl hMore }
  exact ⟨[], _, rfl, .nil, .inr ⟨_, rfl, hMark⟩⟩

/-- The token of a lexeme stands before an opening mark behind it. -/
theorem OpenedAt.cons {start stop : Nat} {tokens : List Token} {span : Span}
    (h : OpenedAt cs tokens span) (hLe : stop ≤ span.start) (kind : Option TokenKind) :
    OpenedAt cs (kind.toList.map (⟨·, ⟨start, stop⟩⟩) ++ tokens) span := by
  refine ⟨h.mark, h.unclosed, fun t hMem hMore => ?_⟩
  rcases List.mem_append.mp hMem with hFirst | hLater
  · obtain ⟨_, -, rfl⟩ := List.mem_map.mp hFirst
    exact hLe
  · exact h.last t hLater hMore

/-- The lexemes of a text leave tokens and errors in step. -/
theorem Cuts.inStep {ls : List Lexeme} (h : Cuts cs ls) (before : List Char) (names : NameTable) :
    InStep (before ++ cs) (.ofLexemes (byteLength before) names ls) := by
  induction h generalizing before names with
  | nil => exact ⟨[], [], rfl, .nil, .inl rfl⟩
  | @cons l rest ls hFits h ih =>
    by_cases hOpen : ∃ body, l = .openComment body
    · obtain ⟨body, rfl⟩ := hOpen
      obtain ⟨hBody, rfl⟩ := hFits
      obtain rfl := h.eq_nil
      rw [List.append_nil]
      exact inStep_openComment before names hBody
    · obtain ⟨early, late, hErrors, hAbout, hLate⟩ := ih (before ++ l.text) (l.read names).2
      rw [byteLength_append] at hErrors hAbout hLate
      rw [List.append_assoc] at hAbout hLate
      rw [ofLexemes_cons]
      refine ⟨(l.error? (byteLength before)).toList ++ early, late, ?_, ?_, ?_⟩
      · exact (congrArg _ hErrors).trans (List.append_assoc _ _ _).symm
      · have hFirst := l.error?_about before rest names (not_exists.mp hOpen)
        rw [invalidTokens, List.filter_append]
        exact List.rel_append hFirst hAbout
      · refine hLate.imp_right ?_
        rintro ⟨span, rfl, hOpened⟩
        have hBehind := start_le_of_mem_errors (hErrors ▸ List.mem_append_right early
          (List.mem_singleton_self (LexError.unterminatedComment span)))
        exact ⟨span, rfl, hOpened.cons hBehind _⟩

/-- Errors and invalid tokens of a source are in step. The errors but for the last one correspond to
the invalid tokens, one to one and in the same order, each over the same span as its token and
holding the character or the literal there. The last error may be that of a comment that is not
closed instead: then its span is that of the opening mark, no closing mark follows, and all tokens
but the end of the source stand before it. -/
theorem errors_in_step (source : String) (names : NameTable) :
    ∃ early late, (lex source names).errors = early ++ late ∧
      List.Forall₂ (LexError.About source.toList) early
        ((lex source names).tokens.filter (·.kind = .invalid)) ∧
      (late = [] ∨ ∃ span, late = [.unterminatedComment span] ∧
        OpenedAt source.toList (lex source names).tokens span) :=
  (cuts_lexemes source.toList).inStep [] names

end FeatherScript
