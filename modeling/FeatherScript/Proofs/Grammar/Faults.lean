import FeatherScript.Proofs.Grammar.Provenance
import FeatherScript.Proofs.Grammar.Recognition
import FeatherScript.Proofs.Grammar.Spans

/-!
# The places of syntax errors

An error is recorded for the token at hand, and there is always one: the end of the source is never
consumed. So every syntax error is about a token of the source, and stands over its text unless the
token is the end.

* `Faulted`: a state whose errors are about tokens of a list.
* `parse_faults`: so are the errors of a parse.
* `over_of_readProgram`: the nodes of a program without errors stand over its source.
-/

namespace FeatherScript

namespace Grammar

variable {tokens : List Token} {s : State}

/-! ## Errors -/

/-- A state that was reached from some tokens, all of whose errors are about these tokens. -/
structure Faulted (tokens : List Token) (s : State) : Prop where
  reached : (State.initial tokens).Advances s
  errors : ∀ e ∈ s.errors, e.found ∈ tokens

/-- The token at hand is one of those that the reading started with. -/
theorem current_mem (hTokens : EndsOnce tokens) (h : (State.initial tokens).Advances s) :
    s.current ∈ tokens := by
  obtain ⟨word, hRest, -, hWord⟩ := h.tokens
  replace hRest : tokens = word ++ s.rest := hRest
  cases hLeft : s.rest with
  | nil =>
    obtain ⟨body, last, hSplit, hEnd, -⟩ := hTokens
    have hMem : last ∈ word := by
      rw [hLeft, List.append_nil] at hRest
      rw [← hRest, hSplit]
      exact List.mem_append_right body (List.mem_singleton_self last)
    exact absurd hEnd (hWord last hMem)
  | cons token rest =>
    rw [hRest, State.current, hLeft]
    exact List.mem_append_right word List.mem_cons_self

theorem errors_recover (s : State) (e : ParseError) : (s.recover e).errors = s.errors.push e := rfl

/-- Every step of a parse keeps that errors are about tokens. -/
theorem faulted_kept (hTokens : EndsOnce tokens) : Kept (Faulted tokens) where
  take hMore hTakes h :=
    ⟨h.reached.trans (hTakes.advances hMore), by rw [hTakes.errors]; exact h.errors⟩
  recover {s} e hFound h := by
    refine ⟨h.reached.trans ((State.advances_record s e).trans (State.advances_recover s e)), ?_⟩
    intro error hMem
    rw [errors_recover, Array.mem_push] at hMem
    rcases hMem with hMem | rfl
    · exact h.errors error hMem
    · rw [hFound]
      exact current_mem hTokens h.reached
  node {s} form span _ h :=
    ⟨h.reached.trans (s.advances_table (s.table.grows_addNode _ span)), h.errors⟩
  call {_ t ids close} callee _ _ h :=
    ⟨h.reached.trans (t.advances_table (t.table.grows_addCall callee ids close)), h.errors⟩
  function {_ t start names body} _ _ h :=
    ⟨h.reached.trans (t.advances_table (t.table.grows_addFunction none names body _)), h.errors⟩

/-- Every error of a parse is about one of its tokens. -/
theorem parse_faults (hTokens : EndsOnce tokens) {e : ParseError}
    (hError : e ∈ (parse tokens).errors) : e.found ∈ tokens := by
  have hStart : Faulted tokens (.initial tokens) :=
    ⟨.refl _, fun e hMem => absurd hMem (Array.not_mem_empty e)⟩
  have hEnd := topStatements_keeps (faulted_kept hTokens) (.initial tokens) hStart
  exact hEnd.errors e (Array.mem_toList_iff.mp hError)

end Grammar

/-! ## Programs -/

variable {source : String} {p : Program}

/-- Every node of a program leads to its root. -/
theorem reaches_of_readProgram (hRead : readProgram source = .ok p) {id : NodeId}
    (hId : id < p.table.size) : Relation.ReflTransGen p.table.Child id p.root := by
  obtain ⟨hErrors, hTable, hRoot⟩ := parsed_of_readProgram hRead
  obtain ⟨orphans, hBuilt, hNone⟩ := Grammar.parse_built (lex source .initial).tokens
  rw [hNone hErrors, ← hTable, ← hRoot] at hBuilt
  exact hBuilt.forest.reaches_root hBuilt.arranged hId

/-- All nodes of a program stand over its source, unless the program has no statements. -/
theorem over_of_readProgram (hRead : readProgram source = .ok p) :
    (∀ id n, p.table.node? id = some n → n.span.Over source.toList) ∨
      p.table.tree? p.root = some (.null .origin) := by
  obtain ⟨hErrors, hTable, hRoot⟩ := parsed_of_readProgram hRead
  obtain ⟨ids, t, hReads⟩ := Grammar.errors_eq_nil_iff.mp hErrors
  obtain ⟨trees, hTrees, hProgram⟩ :=
    Grammar.isProgram_of_reads (lex_endsOnce source .initial) hReads
  have hTree : p.table.tree? p.root = some (.run .origin trees) := by
    rw [hTable, hRoot]
    exact Grammar.tree?_root_of_reads hReads hTrees
  rcases Grammar.over_of_isProgram hProgram with hOver | hEmpty
  · left
    intro id n hNode
    have hId : id < p.table.size := (Array.getElem?_eq_some_iff.mp hNode).1
    obtain ⟨part, hPart, hEach⟩ :=
      NodeTable.each_of_reaches hTree hOver (reaches_of_readProgram hRead hId)
    have hSpan : n.span = part.span := by
      rw [← NodeTable.spanOf_of_tree? hPart, NodeTable.spanOf, hNode]
      rfl
    rw [hSpan]
    exact hEach.span
  · right
    rw [hTree, hEmpty]

end FeatherScript
