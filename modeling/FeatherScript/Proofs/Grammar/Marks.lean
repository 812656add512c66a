import FeatherScript.Proofs.Grammar.Iterations
import FeatherScript.Proofs.Grammar.Parallel

/-!
# The positions of blamed tokens

A syntax error holds the token that it blames but not the place of that token in the list, and other
tokens may look the same. To tell the places apart every token is marked: its span is replaced by
its position. The parser never looks at spans, so it makes the same errors of the marked tokens, and
those show their positions.

* `marks`, `blamed`: the marked tokens, and the positions that the errors of a parse blame.
* `errors_eq_unmark`: the errors of a parse are those of the marked tokens without the marks.
* `Stands`: where the cursor stands in the marked tokens.
-/

namespace FeatherScript

/-- The position that an error about a marked token blames. -/
def ParseError.mark (e : ParseError) : Nat := e.found.span.start

namespace Grammar

open Likeness

/-- The tokens with positions from `p` on for spans, and an end of the source after them. -/
def marks (p : Nat) : List Token → List Token
  | [] => [⟨.endOfFile, .point p⟩]
  | token :: rest => ⟨token.kind, .point p⟩ :: marks (p + 1) rest

/-- The token at a position, or the end of the source where there is none. -/
def tokenAt (tokens : List Token) (p : Nat) : Token := headToken (tokens.drop p)

/-- The positions of the tokens that the errors of a parse blame, in the order of the errors. -/
def blamed (tokens : List Token) : List Nat :=
  (parse (marks 0 tokens)).errors.map ParseError.mark

/-- The head of marked tokens is the head of the tokens with a mark. -/
theorem headToken_marks (p : Nat) (tokens : List Token) :
    headToken (marks p tokens) = ⟨(headToken tokens).kind, .point p⟩ := by
  cases tokens with
  | nil => rfl
  | cons token rest => rfl

/-! ## The same errors -/

/-- An error about a marked token as one about the token at its position. -/
def unmark (tokens : List Token) (e : ParseError) : ParseError :=
  ⟨e.expected, tokenAt tokens e.mark⟩

/-- Data of the tokens of a list, and of the same tokens with marks. -/
def upToMarks (tokens : List Token) : Likeness where
  Names := Eq
  Tokens x y := ∃ p, x = tokenAt tokens p ∧ y = ⟨x.kind, .point p⟩
  Spans _ _ := True
  Ids _ _ := True
  ArgSlices _ _ := True
  ParamSlices _ _ := True
  Tables _ _ := True
  Errors errors errors' := errors.toList = errors'.toList.map (unmark tokens)
  start := tokens.length

theorem upToMarks_respected (tokens : List Token) : (upToMarks tokens).Respected where
  kind := by
    rintro x _ ⟨p, -, rfl⟩
    exact kind_alike_self x.kind
  span _ := trivial
  merge _ _ := trivial
  spanOf _ _ := trivial
  node _ _ _ := ⟨trivial, trivial⟩
  args _ _ := ⟨trivial, trivial⟩
  params _ _ := ⟨trivial, trivial⟩
  push := by
    rintro errors errors' ⟨expected, found⟩ ⟨expected', found'⟩ h ⟨hExpected, p, hFound, hMark⟩
    obtain rfl : expected' = expected := hExpected
    obtain rfl : found' = ⟨found.kind, .point p⟩ := hMark
    have hLast : (⟨expected', found⟩ : ParseError) =
        unmark tokens ⟨expected', ⟨found.kind, .point p⟩⟩ :=
      congrArg (ParseError.mk expected') hFound
    have hBefore : errors.toList = errors'.toList.map (unmark tokens) := h
    have hAll : (errors.push ⟨expected', found⟩).toList =
        (errors'.push ⟨expected', ⟨found.kind, .point p⟩⟩).toList.map (unmark tokens) := by
      rw [Array.toList_push, Array.toList_push, List.map_append, hBefore, List.map_singleton,
        ← hLast]
    exact hAll

theorem aligned_marks {tokens : List Token} (p : Nat) (ts : List Token)
    (hTokens : tokens.drop p = ts) : (upToMarks tokens).Aligned ts (marks p ts) := by
  have hHead : (upToMarks tokens).Tokens (headToken ts) (headToken (marks p ts)) :=
    ⟨p, congrArg headToken hTokens.symm, headToken_marks p ts⟩
  induction ts generalizing p with
  | nil => exact .stop rfl hHead
  | cons x ts ih =>
    by_cases hEnd : x.kind = .endOfFile
    · exact .stop hEnd hHead
    · have hRest : tokens.drop (p + 1) = ts := by
        rw [← List.drop_drop, hTokens, List.drop_one, List.tail_cons]
      exact .next hEnd hHead (ih (p + 1) hRest
        ⟨p + 1, congrArg headToken hRest.symm, headToken_marks (p + 1) ts⟩)

/-- Without their marks the errors of the marked tokens are those of the tokens. -/
theorem errors_eq_unmark (tokens : List Token) :
    (parse tokens).errors = (parse (marks 0 tokens)).errors.map (unmark tokens) := by
  have hStart : (upToMarks tokens).States (.initial tokens) (.initial (marks 0 tokens)) :=
    ⟨aligned_marks 0 tokens rfl, fun _ => trivial, Nat.le_refl _, trivial, rfl⟩
  obtain ⟨-, -, hErrors⟩ := parse_likeness (upToMarks_respected tokens) hStart trivial
  exact hErrors

/-! ## The cursor -/

/-- The cursor stands behind some of the tokens, in the marked ones. -/
structure Stands (tokens seen : List Token) (s : State) : Prop where
  ahead : ∃ more, tokens = seen ++ more ∧ s.rest = marks seen.length more
  noEnd : ∀ token ∈ seen, token.kind ≠ .endOfFile

namespace Stands

variable {tokens seen : List Token} {s t : State}

theorem initial (tokens : List Token) : Stands tokens [] (.initial (marks 0 tokens)) :=
  ⟨⟨tokens, rfl, rfl⟩, by simp⟩

theorem congr (h : Stands tokens seen s) (hRest : t.rest = s.rest) : Stands tokens seen t :=
  ⟨hRest ▸ h.ahead, h.noEnd⟩

/-- The token at hand shows the position of the cursor. -/
theorem current_start (h : Stands tokens seen s) : s.current.span.start = seen.length := by
  obtain ⟨more, -, hRest⟩ := h.ahead
  have hCurrent : s.current = headToken (marks seen.length more) := congrArg headToken hRest
  rw [hCurrent, headToken_marks]
  rfl

/-- At the end of the source all the tokens before it were seen. -/
theorem seen_of_atEnd (h : Stands tokens seen s) (hEnd : s.AtEnd) : seen = beforeEnd tokens := by
  obtain ⟨more, rfl, hRest⟩ := h.ahead
  have hCurrent : s.current = headToken (marks seen.length more) := congrArg headToken hRest
  have hSeen : ∀ token ∈ seen, decide (token.kind ≠ .endOfFile) := by simpa using h.noEnd
  have hKind : (headToken more).kind = .endOfFile := by
    rw [State.AtEnd, State.kind, hCurrent, headToken_marks] at hEnd
    exact hEnd
  rw [beforeEnd, List.takeWhile_append_of_pos hSeen]
  cases more with
  | nil => rw [List.takeWhile_nil, List.append_nil]
  | cons token more =>
    have hToken : token.kind = .endOfFile := hKind
    rw [List.takeWhile_cons_of_neg (by simpa using hToken), List.append_nil]

/-- Consuming tokens moves the cursor behind as many tokens of the same kinds. -/
theorem consume {word : List Token} (h : Stands tokens seen s) (hWord : s.Consumes word t) :
    ∃ more, more.map Token.kind = word.map Token.kind ∧ Stands tokens (seen ++ more) t := by
  obtain ⟨hRest, hNoEnd⟩ := hWord
  induction word generalizing s seen with
  | nil => exact ⟨[], rfl, by simpa using h.congr hRest.symm⟩
  | cons token word ih =>
    obtain ⟨⟨ahead, hSplit, hMarks⟩, hSeen⟩ := h
    have hToken : token.kind ≠ .endOfFile := hNoEnd token List.mem_cons_self
    cases ahead with
    | nil =>
      obtain ⟨rfl, -⟩ := List.cons.inj (hMarks.symm.trans hRest)
      exact absurd rfl hToken
    | cons next ahead =>
      obtain ⟨rfl, hTail⟩ := List.cons.inj (hMarks.symm.trans hRest)
      have hNext : Stands tokens (seen ++ [next])
          { s with rest := word ++ t.rest } := by
        refine ⟨⟨ahead, by simpa using hSplit, ?_⟩, fun x hx => ?_⟩
        · rw [List.length_append, List.length_singleton]
          exact hTail.symm
        · rcases List.mem_append.mp hx with hMem | hMem
          · exact hSeen x hMem
          · obtain rfl := List.mem_singleton.mp hMem
            exact hToken
      obtain ⟨more, hKinds, hStands⟩ :=
        ih hNext rfl fun x hMem => hNoEnd x (List.mem_cons_of_mem _ hMem)
      refine ⟨next :: more, congrArg (List.cons _) hKinds, ?_⟩
      simpa using hStands

end Stands

end Grammar

end FeatherScript
