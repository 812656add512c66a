import FeatherScript.Proofs.Grammar.Completeness
import FeatherScript.Proofs.Grammar.NearestElse

/-!
# The parser recognizes the grammar

On every list of tokens that ends with its only end of the source the parser reports no error
exactly when the tokens are a program of the grammar, and then the root of its table unfolds to the
only tree in which every `else` belongs to the nearest open branch.

* `topStatements_ends`: reading a program never fails as a whole and always comes to the end.
* `errors_eq_nil_iff`: a parse without errors is one clean reading of all statements.
* `parse_recognizes`: the theorem.
-/

namespace FeatherScript

/-- The last token is the end of the source, and no other is. -/
def EndsOnce (tokens : List Token) : Prop :=
  ∃ body last, tokens = body ++ [last] ∧ last.kind = .endOfFile ∧
    ∀ token ∈ body, token.kind ≠ .endOfFile

namespace Grammar

open NodeTable

/-! ## The end of a program -/

/-- A reply that did not fail and left the end of the source at hand. -/
def Reply.Ends {α : Type} {strict : Bool} {s : State} (r : Reply strict s α) : Prop :=
  (∃ a, r.result = .ok a) ∧ r.state.AtEnd

theorem Reply.Ends.andThen {α β : Type} {strict : Bool} {s : State} {r : Reply true s α}
    {next : α → (u : State) → u.left < s.left → Reply strict u β}
    (hResult : ∃ a, r.result = .ok a) (hNext : ∀ a u hLeft, (next a u hLeft).Ends) :
    (r.andThen next).Ends := by
  obtain ⟨a, hOk⟩ := hResult
  unfold Reply.andThen
  split
  · next e hError => cases hOk.symm.trans hError
  · exact hNext _ _ _

theorem Reply.Ends.bind_done {α β : Type} {s : State} {r : Reply false s α} {f : α → β}
    (h : r.Ends) : (r.bind fun a _ _ => (.done (f a) : Reply false _ β)).Ends := by
  obtain ⟨⟨a, hOk⟩, hEnd⟩ := h
  unfold Reply.bind
  split
  · next e hError => cases hOk.symm.trans hError
  · exact ⟨⟨_, rfl⟩, hEnd⟩

/-- After recovery there is always a result, if only that there was none. -/
theorem topStatement_result (s : State) (hMore : ¬ s.AtEnd) :
    ∃ found, (topStatement s hMore).result = .ok found := by
  unfold topStatement Reply.orRecover
  split
  · exact ⟨_, rfl⟩
  · exact ⟨_, rfl⟩

/-- Reading a program never fails as a whole and always comes to the end. -/
theorem topStatements_ends (s : State) : (topStatements s).Ends := by
  rw [topStatements]
  split
  · next hEnd => exact ⟨⟨[], rfl⟩, hEnd⟩
  · next hMore =>
    exact Reply.Ends.andThen (topStatement_result s hMore) fun found t hLeft =>
      (topStatements_ends t).bind_done
termination_by s.left

/-- What is left at the end of a list of tokens with one end is that end. -/
theorem rest_of_atEnd {tokens : List Token} {s : State} (hTokens : EndsOnce tokens)
    (hAdvances : (State.initial tokens).Advances s) (hEnd : s.AtEnd) :
    ∃ span, s.rest = [⟨.endOfFile, span⟩] := by
  obtain ⟨body, ⟨kind, span⟩, hSplit, rfl, hBody⟩ := hTokens
  obtain ⟨word, hRest, -, hWord⟩ := hAdvances.tokens
  replace hRest : body ++ [⟨.endOfFile, span⟩] = word ++ s.rest := hSplit.symm.trans hRest
  refine ⟨span, ?_⟩
  rcases List.append_eq_append_iff.mp hRest with ⟨more, rfl, hLast⟩ | ⟨more, hFirst, hTail⟩
  · cases more with
    | nil => exact hLast.symm
    | cons token more =>
      obtain ⟨rfl, -⟩ := List.cons.inj hLast
      exact absurd rfl (hWord _ (List.mem_append_right body List.mem_cons_self))
  · cases more with
    | nil => exact hTail
    | cons token more =>
      have hKind : token.kind = .endOfFile := by
        rw [State.AtEnd, State.kind, State.current, hTail] at hEnd
        exact hEnd
      exact absurd hKind (hBody token (hFirst ▸ List.mem_append_right word List.mem_cons_self))

/-! ## Parses without errors -/

/-- A parse without errors is one clean reading of all statements. -/
theorem errors_eq_nil_iff {tokens : List Token} :
    (parse tokens).errors = [] ↔ ∃ ids t, (topStatements (.initial tokens)).Reads ids t := by
  obtain ⟨⟨ids, hOk⟩, -⟩ := topStatements_ends (.initial tokens)
  have hErrors : (parse tokens).errors =
      (topStatements (.initial tokens)).state.errors.toList := rfl
  rw [hErrors]
  constructor
  · intro hNone
    exact ⟨ids, _, hOk, rfl, Array.toList_inj.mp hNone⟩
  · rintro ⟨ids, t, hReads⟩
    rw [hReads.state, hReads.errors]
    rfl

/-- The root of a parse without errors is the run of the statements that were read. -/
theorem tree?_root_of_reads {tokens : List Token} {ids : List NodeId} {t : State}
    {trees : List Tree} (h : (topStatements (.initial tokens)).Reads ids t)
    (hTrees : TreesOf t.table ids trees) :
    (parse tokens).table.tree? (parse tokens).root = some (Tree.run .origin trees) := by
  rw [parse, h.result, h.state]
  exact tree?_addRun hTrees

theorem Reply.Reads.unique {α : Type} {strict : Bool} {s t u : State} {r : Reply strict s α}
    {a b : α} (h : r.Reads a t) (h' : r.Reads b u) : a = b ∧ t = u :=
  ⟨Except.ok.inj (h.result.symm.trans h'.result), h.state.symm.trans h'.state⟩

theorem treesOf_unique {t : NodeTable} {ids : List NodeId} {trees others : List Tree}
    (h : TreesOf t ids trees) (h' : TreesOf t ids others) : trees = others := by
  induction h generalizing others with
  | nil =>
    cases h'
    rfl
  | cons hTree _ ih =>
    cases h' with
    | cons hOther hOthers =>
      rw [ih hOthers, Option.some.inj (hTree.symm.trans hOther)]

/-- What a program of the grammar is read as when its tokens are parsed. -/
theorem reads_of_isProgram {tokens : List Token} {tree : Tree}
    (h : IsProgram .nearest tokens tree) :
    ∃ trees ids t, tree = Tree.run .origin trees ∧
      (topStatements (.initial tokens)).Reads ids t ∧ TreesOf t.table ids trees := by
  obtain ⟨last, hTree⟩ := h
  cases hTree with
  | program hTrees hEnd =>
    obtain ⟨ids, t, hReads, -, hIds⟩ :=
      topStatements_accepts (s := .initial tokens) hTrees hEnd.kind_eq rfl
    exact ⟨_, ids, t, rfl, hReads, hIds⟩

/-- A clean reading of all statements is that of a program of the grammar. -/
theorem isProgram_of_reads {tokens : List Token} {ids : List NodeId} {t : State}
    (hTokens : EndsOnce tokens) (h : (topStatements (.initial tokens)).Reads ids t) :
    ∃ trees, TreesOf t.table ids trees ∧ IsProgram .nearest tokens (Tree.run .origin trees) := by
  have hEnd : t.AtEnd := h.state ▸ (topStatements_ends (.initial tokens)).2
  obtain ⟨span, hRest⟩ := rest_of_atEnd hTokens h.advances hEnd
  obtain ⟨trees, hTrees, hStatements⟩ := topStatements_yields h
  exact ⟨trees, hTrees, span, .program hStatements ⟨hRest, rfl⟩⟩

/-! ## Recognition -/

/-- A primary alone is an expression. -/
theorem expression_of_primary {rule : ElseRule} {tree : Tree} {p q : Place}
    (h : Derives rule (.primary tree) p q) : Derives rule (.expression tree) p q := by
  have hApplication : Derives rule (.application (tree.calls [])) p q := .application h .noCalls
  have hProduct : Derives rule (.level .multiplication (tree.operations [])) p q :=
    .level hApplication .noOperations
  have hSum : Derives rule (.level .addition (tree.operations [])) p q :=
    .level hProduct .noOperations
  have hComparison : Derives rule (.level .comparison (tree.operations [])) p q :=
    .level hSum .noOperations
  exact .comparison hComparison

/-- Parsing reports no error exactly for the programs of the grammar. The root then unfolds to the
tree of the program in which every `else` belongs to the nearest open branch; there is no other. -/
theorem parse_recognizes {tokens : List Token} (hTokens : EndsOnce tokens) :
    ((parse tokens).errors = [] ↔ ∃ tree, IsProgram .free tokens tree) ∧
      ((parse tokens).errors = [] → ∃ tree,
        (parse tokens).table.tree? (parse tokens).root = some tree ∧
        IsProgram .free tokens tree ∧ ∀ other, IsProgram .nearest tokens other ↔ other = tree) := by
  have hSound : (parse tokens).errors = [] → ∃ tree,
      (parse tokens).table.tree? (parse tokens).root = some tree ∧
      IsProgram .free tokens tree ∧ ∀ other, IsProgram .nearest tokens other ↔ other = tree := by
    intro hErrors
    obtain ⟨ids, t, hReads⟩ := errors_eq_nil_iff.mp hErrors
    obtain ⟨trees, hTrees, hProgram⟩ := isProgram_of_reads hTokens hReads
    refine ⟨Tree.run .origin trees, tree?_root_of_reads hReads hTrees, isProgram_free hProgram,
      fun other => ⟨?_, ?_⟩⟩
    · intro hOther
      obtain ⟨others, ids', t', rfl, hReads', hOthers⟩ := reads_of_isProgram hOther
      obtain ⟨rfl, rfl⟩ := hReads.unique hReads'
      rw [treesOf_unique hTrees hOthers]
    · rintro rfl
      exact hProgram
  refine ⟨⟨fun hErrors => ?_, ?_⟩, hSound⟩
  · obtain ⟨tree, -, hTree, -⟩ := hSound hErrors
    exact ⟨tree, hTree⟩
  · rintro ⟨tree, hTree⟩
    obtain ⟨other, hOther⟩ := exists_nearest hTree
    obtain ⟨-, ids, t, -, hReads, -⟩ := reads_of_isProgram hOther
    exact errors_eq_nil_iff.mpr ⟨ids, t, hReads⟩

/-- The tokens of `if(a)if(b);else;`. -/
def danglingElse : List Token :=
  [⟨.keyword .kwIf, ⟨0, 2⟩⟩, ⟨.symbol .leftParen, ⟨2, 3⟩⟩, ⟨.ident ⟨0⟩, ⟨3, 4⟩⟩,
    ⟨.symbol .rightParen, ⟨4, 5⟩⟩, ⟨.keyword .kwIf, ⟨5, 7⟩⟩, ⟨.symbol .leftParen, ⟨7, 8⟩⟩,
    ⟨.ident ⟨1⟩, ⟨8, 9⟩⟩, ⟨.symbol .rightParen, ⟨9, 10⟩⟩, ⟨.symbol .semicolon, ⟨10, 11⟩⟩,
    ⟨.keyword .kwElse, ⟨11, 15⟩⟩, ⟨.symbol .semicolon, ⟨15, 16⟩⟩, ⟨.endOfFile, ⟨16, 16⟩⟩]

/-- The tree of `danglingElse` with the alternative in the inner branch. -/
def danglingElseTree : Tree :=
  .branch ⟨0, 16⟩ (.ref ⟨3, 4⟩ ⟨0⟩)
    (.branch ⟨5, 16⟩ (.ref ⟨8, 9⟩ ⟨1⟩) (.null ⟨10, 11⟩) (some (.null ⟨15, 16⟩))) none

/-- The place before a token of `danglingElse`. -/
def beforeDanglingElse (n : Nat) : Place :=
  ⟨State.lastSpan .origin (danglingElse.take n), danglingElse.drop n⟩

theorem danglingElse_isProgram : IsProgram .nearest danglingElse danglingElseTree := by
  have hInnerIf : Takes (.keyword .kwIf) ⟨5, 7⟩ (beforeDanglingElse 4) (beforeDanglingElse 5) :=
    ⟨rfl, rfl⟩
  have hInnerName : Takes (.ident ⟨1⟩) ⟨8, 9⟩ (beforeDanglingElse 6) (beforeDanglingElse 7) :=
    ⟨rfl, rfl⟩
  have hInnerCondition : Derives .nearest (.enclosed (.ref ⟨8, 9⟩ ⟨1⟩) ⟨9, 10⟩)
      (beforeDanglingElse 5) (beforeDanglingElse 8) :=
    .enclosed ⟨rfl, rfl⟩ (expression_of_primary (.ref hInnerName)) ⟨rfl, rfl⟩
  have hThen : Derives .nearest (.block (.null ⟨10, 11⟩)) (beforeDanglingElse 8)
      (beforeDanglingElse 9) := .single (.emptyStatement ⟨rfl, rfl⟩)
  have hElse : Takes (.keyword .kwElse) ⟨11, 15⟩ (beforeDanglingElse 9) (beforeDanglingElse 10) :=
    ⟨rfl, rfl⟩
  have hOther : Derives .nearest (.block (.null ⟨15, 16⟩)) (beforeDanglingElse 10)
      (beforeDanglingElse 11) := .single (.emptyStatement ⟨rfl, rfl⟩)
  have hInner := Derives.branch hInnerIf hInnerCondition hThen (.alternative hElse hOther)
  have hOuterIf : Takes (.keyword .kwIf) ⟨0, 2⟩ (beforeDanglingElse 0) (beforeDanglingElse 1) :=
    ⟨rfl, rfl⟩
  have hOuterName : Takes (.ident ⟨0⟩) ⟨3, 4⟩ (beforeDanglingElse 2) (beforeDanglingElse 3) :=
    ⟨rfl, rfl⟩
  have hOuterCondition : Derives .nearest (.enclosed (.ref ⟨3, 4⟩ ⟨0⟩) ⟨4, 5⟩)
      (beforeDanglingElse 1) (beforeDanglingElse 4) :=
    .enclosed ⟨rfl, rfl⟩ (expression_of_primary (.ref hOuterName)) ⟨rfl, rfl⟩
  have hOuter := Derives.branch hOuterIf hOuterCondition (.single hInner) (.noAlternative nofun)
  have hEnd : Takes .endOfFile ⟨16, 16⟩ (beforeDanglingElse 11) ⟨⟨16, 16⟩, []⟩ := ⟨rfl, rfl⟩
  exact ⟨⟨16, 16⟩, .program (.moreStatements hOuter .noStatements) hEnd⟩

theorem parse_recognizes_danglingElse :
    EndsOnce danglingElse ∧ (parse danglingElse).errors = [] ∧
      (parse danglingElse).table.tree? (parse danglingElse).root = some danglingElseTree := by
  have hEnds : EndsOnce danglingElse :=
    ⟨danglingElse.dropLast, ⟨.endOfFile, ⟨16, 16⟩⟩, rfl, rfl, by decide⟩
  obtain ⟨hIff, hTree⟩ := parse_recognizes hEnds
  have hErrors := hIff.mpr ⟨_, isProgram_free danglingElse_isProgram⟩
  obtain ⟨tree, hRoot, -, hOnly⟩ := hTree hErrors
  refine ⟨hEnds, hErrors, ?_⟩
  rw [hRoot, (hOnly _).mp danglingElse_isProgram]

end Grammar

end FeatherScript
