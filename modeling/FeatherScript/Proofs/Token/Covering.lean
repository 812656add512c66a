import FeatherScript.Proofs.Token.Layout

/-!
# Spans over a source

A span fits a text if it lies in it from one boundary up to another, and it is over the text if it
is not empty besides. The tokens of a source, but for the last one, are over it, and so are the
lexical errors; the last token is the empty span at the very end.

* `Span.Fits`, `Span.Over`: spans that cut a text, and spans over some of it.
* `Over.merge`: the span from one place to another.
* `lex_placed`, `lex_error_over`: the tokens and the errors of a source.
-/

namespace FeatherScript

open Text

/-- A span from a boundary of a text up to a boundary that is not before it. -/
structure Span.Fits (cs : List Char) (s : Span) : Prop where
  ordered : s.start ≤ s.stop
  inside : s.stop ≤ byteLength cs
  startBoundary : IsBoundary cs s.start
  stopBoundary : IsBoundary cs s.stop

/-- A span that covers some of a text. -/
structure Span.Over (cs : List Char) (s : Span) : Prop extends s.Fits cs where
  nonempty : s.start < s.stop

/-! ## Boundaries -/

theorem isBoundary_append (xs ys : List Char) : IsBoundary (xs ++ ys) (byteLength xs) :=
  Option.isSome_of_eq_some (dropBytes?_append xs ys)

namespace Span

variable {cs : List Char} {a b : Span}

theorem fits_origin (cs : List Char) : origin.Fits cs where
  ordered := Nat.le_refl 0
  inside := Nat.zero_le _
  startBoundary := isBoundary_append [] cs
  stopBoundary := isBoundary_append [] cs

theorem fits_end (cs : List Char) : (point (byteLength cs)).Fits cs := by
  have hEnd := isBoundary_append cs []
  rw [List.append_nil] at hEnd
  exact ⟨Nat.le_refl _, Nat.le_refl _, hEnd, hEnd⟩

/-- The span of the middle one of three texts. -/
theorem over_append (before : List Char) {text : List Char} (hText : text ≠ [])
    (rest : List Char) :
    Over (before ++ (text ++ rest)) ⟨byteLength before, byteLength before + byteLength text⟩ := by
  have hPos : 0 < byteLength text := byteLength_pos hText
  have hStop := isBoundary_append (before ++ text) rest
  rw [byteLength_append, List.append_assoc] at hStop
  refine ⟨⟨Nat.le_add_right _ _, ?_, isBoundary_append before _, hStop⟩, ?_⟩
  · simp only [byteLength_append]
    omega
  · dsimp only
    omega

/-- The span from one place to another ends where one of them does. -/
theorem Fits.merge (ha : a.Fits cs) (hb : b.Fits cs) : (a.merge b).Fits cs := by
  have haOrdered := ha.ordered
  have haInside := ha.inside
  have hbInside := hb.inside
  refine ⟨?_, ?_, ?_, ?_⟩
  · simp only [Span.merge]
    omega
  · simp only [Span.merge]
    omega
  · simp only [Span.merge]
    rcases Nat.le_total a.start b.start with hLe | hLe
    · rw [Nat.min_eq_left hLe]
      exact ha.startBoundary
    · rw [Nat.min_eq_right hLe]
      exact hb.startBoundary
  · simp only [Span.merge]
    rcases Nat.le_total a.stop b.stop with hLe | hLe
    · rw [Nat.max_eq_right hLe]
      exact hb.stopBoundary
    · rw [Nat.max_eq_left hLe]
      exact ha.stopBoundary

theorem Over.merge (ha : a.Over cs) (hb : b.Fits cs) : (a.merge b).Over cs := by
  refine ⟨ha.toFits.merge hb, ?_⟩
  have hNonempty := ha.nonempty
  simp only [Span.merge]
  omega

end Span

/-! ## Tokens and errors of a source -/

theorem Token.StandsIn.over {cs : List Char} {names : NameTable} {t : Token}
    (h : t.StandsIn cs names) : t.span.Over cs where
  ordered := Nat.le_of_lt h.nonempty
  inside := h.inside
  startBoundary := h.startBoundary
  stopBoundary := h.stopBoundary
  nonempty := h.nonempty

theorem Token.StandsIn.kind_ne {cs : List Char} {names : NameTable} {t : Token}
    (h : t.StandsIn cs names) : t.kind ≠ .endOfFile := by
  obtain ⟨text, rest, -, -, hSpells, -⟩ := h.spelling
  exact hSpells.notEnd

/-- A token of a source is its end, or stands over some of its text. -/
structure Token.Placed (cs : List Char) (t : Token) : Prop where
  last : t.kind = .endOfFile → t.span = .point (byteLength cs)
  covers : t.kind ≠ .endOfFile → t.span.Over cs

theorem lex_placed (source : String) (names : NameTable) :
    ∀ t ∈ (lex source names).tokens, t.Placed source.toList := by
  obtain ⟨ts, hTokens, hLaid⟩ := laid_lex source names
  intro t hMem
  rw [hTokens, List.mem_append, List.mem_singleton] at hMem
  rcases hMem with hMem | rfl
  · have hStands := hLaid.standsIn [] rfl t hMem
    exact ⟨fun hEnd => absurd hEnd hStands.kind_ne, fun _ => hStands.over⟩
  · exact ⟨fun _ => rfl, fun hMore => absurd rfl hMore⟩

/-- The last token of a source is its end, and no other one is. -/
theorem lex_endsOnce (source : String) (names : NameTable) :
    ∃ body last, (lex source names).tokens = body ++ [last] ∧ last.kind = .endOfFile ∧
      ∀ t ∈ body, t.kind ≠ .endOfFile := by
  obtain ⟨ts, hTokens, hLaid⟩ := laid_lex source names
  exact ⟨ts, _, hTokens, rfl, fun t hMem => (hLaid.standsIn [] rfl t hMem).kind_ne⟩

/-- The error of a lexeme is over the lexeme, or over its opening mark. -/
theorem Lexeme.error_over (before : List Char) {l : Lexeme} (rest : List Char) {e : LexError}
    (h : l.error? (byteLength before) = some e) : e.span.Over (before ++ (l.text ++ rest)) := by
  cases l with
  | openComment body =>
    cases h
    have hMark : ['/', '*'] ≠ [] := nofun
    exact Span.over_append before hMark (body ++ rest)
  | digits first more =>
    obtain ⟨-, hError⟩ := Option.ite_none_right_eq_some.mp h
    cases hError
    exact Span.over_append before (digits first more).text_ne_nil rest
  | stray c =>
    cases h
    exact Span.over_append before (stray c).text_ne_nil rest
  | _ => cases h

/-- The errors of the lexemes of a text are over it. -/
theorem Cuts.errors_over {cs : List Char} {ls : List Lexeme} (h : Cuts cs ls) (before : List Char)
    (names : NameTable) :
    ∀ e ∈ (Lexed.ofLexemes (byteLength before) names ls).errors, e.span.Over (before ++ cs) := by
  induction h generalizing before names with
  | nil => nofun
  | @cons l rest ls hFits h ih =>
    intro e hMem
    rw [ofLexemes_cons, List.mem_append, Option.mem_toList] at hMem
    rcases hMem with hFirst | hMore
    · exact Lexeme.error_over before rest hFirst
    · rw [← byteLength_append] at hMore
      have hOver := ih (before ++ l.text) _ e hMore
      rwa [List.append_assoc] at hOver

/-- The lexical errors of a source are over it. -/
theorem lex_error_over (source : String) (names : NameTable) :
    ∀ e ∈ (lex source names).errors, e.span.Over source.toList :=
  (cuts_lexemes source.toList).errors_over [] names

end FeatherScript
