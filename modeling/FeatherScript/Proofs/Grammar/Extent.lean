import FeatherScript.Proofs.Grammar.Recovery

/-!
# How far a parser looks

The first end of the source stops every reading: it is never consumed, no token behind it is looked
at, and where the tokens run out an end without a place stands in for it. So a parse depends on the
tokens up to that end only.

* `parse_congr`: tokens that are the same up to the first end of the source have the same parse.
* `parse_until_end`: what this says about lists with and without an end.
-/

namespace FeatherScript

namespace Grammar

variable {ts ts' before : List Token}

/-- Tokens that are the same up to the first end of the source have the same parse. -/
theorem parse_congr (hBefore : beforeEnd ts' = beforeEnd ts)
    (hLast : headToken (fromEnd ts') = headToken (fromEnd ts)) : parse ts = parse ts' := by
  -- Behind nothing, the reading of the first list is that of the second one.
  have hStart : (behind (.initial ts)).States (.initial ts) (.initial ts') :=
    { rest := aligned_of_same (fun _ => rfl) hBefore hLast
      last := fun hLess => absurd hLess (Nat.lt_irrefl _)
      begun := Nat.le_refl _
      table := (NodeTable.append_empty .empty).symm
      errors := rfl }
  obtain ⟨hRoot, hTable, hErrors⟩ := parse_likeness (behind_respected _) hStart rfl
  have hRoot' : (parse ts).root = (parse ts').root := Eq.trans hRoot (Nat.zero_add _)
  have hTable' : (parse ts).table = (parse ts').table :=
    Eq.trans hTable (NodeTable.empty_append _)
  have hErrors' : (parse ts).errors = (parse ts').errors := by
    simpa [behind, State.initial] using hErrors
  calc
    parse ts = ⟨(parse ts).table, (parse ts).root, (parse ts).errors⟩ := rfl
    _ = ⟨(parse ts').table, (parse ts').root, (parse ts').errors⟩ := by
      rw [hTable', hRoot', hErrors']

/-- Where one of some tokens is an end of the source, nothing after them comes before the first. -/
theorem beforeEnd_append (after : List Token) (hEnd : ∃ token ∈ before, token.kind = .endOfFile) :
    beforeEnd (before ++ after) = beforeEnd before ∧
      headToken (fromEnd (before ++ after)) = headToken (fromEnd before) := by
  induction before with
  | nil => simp at hEnd
  | cons x before ih =>
    by_cases hKind : x.kind = .endOfFile
    · simp [beforeEnd, fromEnd, headToken, hKind]
    · obtain ⟨hBefore, hLast⟩ := ih (by simpa [hKind] using hEnd)
      rw [List.cons_append, (beforeEnd_cons hKind).1, (beforeEnd_cons hKind).2,
        (beforeEnd_cons hKind).1, (beforeEnd_cons hKind).2, hBefore]
      exact ⟨rfl, hLast⟩

/-- Without an end of the source, all tokens come before it. -/
theorem beforeEnd_of_forall (after : List Token) (hMore : ∀ token ∈ ts, token.kind ≠ .endOfFile) :
    beforeEnd (ts ++ after) = ts ++ beforeEnd after ∧ fromEnd (ts ++ after) = fromEnd after := by
  have hAll : ∀ token ∈ ts, decide (token.kind ≠ .endOfFile) := by simpa using hMore
  exact ⟨List.takeWhile_append_of_pos hAll, List.dropWhile_append_of_pos hAll⟩

/-- Nothing behind an end of the source counts, so a list with an end has the parse of its tokens
up to that one; and a list without an end has the parse it has with an end of no place behind it. -/
theorem parse_until_end (tokens : List Token) :
    (∀ k token, tokens[k]? = some token → token.kind = .endOfFile →
      parse tokens = parse (tokens.take (k + 1))) ∧
    ((∀ token ∈ tokens, token.kind ≠ .endOfFile) →
      parse tokens = parse (tokens ++ [⟨.endOfFile, .origin⟩])) := by
  constructor
  · intro k token hToken hKind
    have hMem : token ∈ tokens.take (k + 1) := by
      refine List.mem_of_getElem? (i := k) ?_
      rw [List.getElem?_take_of_lt (Nat.lt_succ_self k), hToken]
    obtain ⟨hBefore, hLast⟩ :=
      beforeEnd_append (tokens.drop (k + 1)) ⟨token, hMem, hKind⟩
    rw [List.take_append_drop] at hBefore hLast
    exact (parse_congr hBefore hLast).symm
  · intro hMore
    obtain ⟨hBefore, hLast⟩ := beforeEnd_of_forall [] hMore
    obtain ⟨hBefore', hLast'⟩ := beforeEnd_of_forall [⟨.endOfFile, .origin⟩] hMore
    rw [List.append_nil] at hBefore hLast
    refine parse_congr (hBefore'.trans hBefore.symm) ?_
    rw [hLast, hLast']
    rfl

/-- The tokens of `f()`, with an end of the source between the parentheses and one after them. -/
def endInside : List Token :=
  [⟨.ident ⟨1⟩, ⟨0, 1⟩⟩, ⟨.symbol .leftParen, ⟨1, 2⟩⟩, ⟨.endOfFile, ⟨2, 2⟩⟩,
    ⟨.symbol .rightParen, ⟨2, 3⟩⟩, ⟨.endOfFile, ⟨3, 3⟩⟩]

/-- The call is not closed before the first end, and is blamed there. Without any end it is blamed
at no place. -/
theorem parse_until_end_call :
    endInside[2]? = some ⟨.endOfFile, ⟨2, 2⟩⟩ ∧ (∀ t ∈ endInside.take 2, t.kind ≠ .endOfFile) ∧
    parse endInside = parse (endInside.take 3) ∧
    (parse (endInside.take 3)).errors = [⟨.expression, ⟨.endOfFile, ⟨2, 2⟩⟩⟩] ∧
    parse (endInside.take 2) = parse (endInside.take 2 ++ [⟨.endOfFile, .origin⟩]) ∧
    (parse (endInside.take 2)).errors = [⟨.expression, ⟨.endOfFile, .origin⟩⟩] :=
  ⟨rfl, by decide, (parse_until_end endInside).1 2 ⟨.endOfFile, ⟨2, 2⟩⟩ rfl rfl, by decide +kernel,
    (parse_until_end (endInside.take 2)).2 (by decide), by decide +kernel⟩

end Grammar

end FeatherScript
