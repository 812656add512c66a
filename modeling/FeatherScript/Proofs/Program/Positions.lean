import FeatherScript.Proofs.Eval.Blame
import FeatherScript.Proofs.Grammar.Faults
import FeatherScript.Proofs.Program.Phases

/-!
# Reported positions

Every diagnostic of a run or of a listing points to one place of the source. The place is part of
its text, save for syntax errors at the end of the source, which point to the very end.

* `Diagnostic.Points`: what a diagnostic says about its place.
* `runtime_error_over`: errors of evaluations stand over the source.
* `diagnostics_point`: the diagnostics of all sources.
-/

namespace FeatherScript

open Text

/-- The syntax error of a source that ends too early. -/
def ParseError.atEnd (cs : List Char) (expected : Expectation) : ParseError :=
  ⟨expected, ⟨.endOfFile, .point (byteLength cs)⟩⟩

/-- A diagnostic has one label, a primary one with a span that fits the source. The span is empty
only if the diagnostic is that of a syntax error at the end of the source. -/
inductive Diagnostic.Points (cs : List Char) (d : Diagnostic) : Prop
  | intro {l : Label} (hLabels : d.labels = [l]) (hPrimary : l.isPrimary = true)
      (hFits : l.span.Fits cs)
      (hEmpty : l.span.start = l.span.stop →
        ∃ expected, d = (ParseError.atEnd cs expected).diagnostic) : Points cs d

variable {cs : List Char} {source : String} {options : Options} {p : Program} {d : Diagnostic}

theorem points_of_over {l : Label} (hLabels : d.labels = [l]) (hPrimary : l.isPrimary = true)
    (hOver : l.span.Over cs) : d.Points cs :=
  .intro hLabels hPrimary hOver.toFits fun hEmpty => absurd hEmpty (Nat.ne_of_lt hOver.nonempty)

/-! ## Lexical and syntax errors -/

theorem lexical_points (hMem : d ∈ lexicalDiagnostics source) : d.Points source.toList := by
  obtain ⟨e, hError, rfl⟩ := List.mem_map.mp hMem
  exact points_of_over rfl rfl (lex_error_over source .initial e hError)

/-- A syntax error is about a token of the source. -/
theorem found_placed {e : ParseError} (hError : e ∈ (parse (lex source .initial).tokens).errors) :
    e.found.Placed source.toList :=
  lex_placed source .initial e.found (Grammar.parse_faults (lex_endsOnce source .initial) hError)

theorem syntactic_points (hMem : d ∈ syntaxDiagnostics source) : d.Points source.toList := by
  obtain ⟨e, hError, rfl⟩ := List.mem_map.mp hMem
  have hPlaced := found_placed hError
  by_cases hEnd : e.found.kind = .endOfFile
  · obtain ⟨expected, kind, span⟩ := e
    obtain rfl : kind = .endOfFile := hEnd
    obtain rfl : span = .point (byteLength source.toList) := hPlaced.last rfl
    exact .intro rfl rfl (Span.fits_end _) fun _ => ⟨expected, rfl⟩
  · exact points_of_over rfl rfl (hPlaced.covers hEnd)

/-! ## Runtime errors -/

/-- An error is blamed only on nodes of a program that is not empty. -/
theorem Eval.Blames.not_null {t : NodeTable} {id blamed : NodeId} {cause : EvalCause}
    (h : Blames t id cause blamed) : ∃ n, t.node? id = some n ∧ n.form ≠ .null := by
  cases h with
  | branch hNode | loop hNode | operands hNode | division hNode | modulo hNode | overflow hNode
  | callee hNode | declaration hNode | parameter hNode | arity hNode | depth hNode =>
    exact ⟨_, hNode, nofun⟩

/-- A program whose root is null has no other node. -/
theorem form_eq_null {id : NodeId} {n : Node} {span : Span} (hRead : readProgram source = .ok p)
    (hNull : p.table.tree? p.root = some (.null span)) (hNode : p.table.node? id = some n) :
    n.form = .null := by
  obtain ⟨root, hRoot, hShape⟩ := NodeTable.tree?_eq_some_iff.mp hNull
  obtain ⟨form, place⟩ := root
  cases hShape
  have hPath := reaches_of_readProgram hRead (Array.getElem?_eq_some_iff.mp hNode).1
  rcases Relation.ReflTransGen.cases_tail hPath with rfl | ⟨child, -, n', hNode', hMem⟩
  · cases hRoot.symm.trans hNode
    rfl
  · cases hRoot.symm.trans hNode'
    cases hMem

/-- An error of an evaluation stands over the source. -/
theorem runtime_error_over {fuel : Nat} {e : EvalError} {s : Eval.State}
    (hRead : readProgram source = .ok p) (hRun : p.evaluate options fuel = .ok (.error e, s)) :
    ∃ span, e.span = some span ∧ span.Over source.toList := by
  obtain ⟨m, u, -, -, hRaises⟩ :=
    Eval.exists_raises (m := .ofProgram p fuel) (Eval.settle_eq_ok.mp hRun)
  obtain ⟨blamed, n, hBlames, hNode, hSpan⟩ := hRaises.blames
  rcases over_of_readProgram hRead with hOver | hEmpty
  · exact ⟨n.span, hSpan, hOver blamed n hNode⟩
  · obtain ⟨n', hNode', hForm⟩ := hBlames.not_null
    exact absurd (form_eq_null hRead hEmpty hNode') hForm

theorem runtime_points {fuel : Nat} {e : EvalError} {s : Eval.State}
    (hRead : readProgram source = .ok p) (hRun : p.evaluate options fuel = .ok (.error e, s)) :
    (e.diagnostic p.names).Points source.toList := by
  obtain ⟨span, hSpan, hOver⟩ := runtime_error_over hRead hRun
  have hLabels : (e.diagnostic p.names).labels = [⟨true, span, e.cause.remark⟩] := by
    rw [EvalError.diagnostic, hSpan]
    rfl
  exact points_of_over hLabels rfl hOver

/-! ## Runs and listings -/

theorem readTokens_points {ds : List Diagnostic} (h : readTokens source = .error ds)
    (hMem : d ∈ ds) : d.Points source.toList := by
  rw [readTokens_eq] at h
  split at h
  · cases h
  · cases h
    exact lexical_points hMem

theorem readProgram_points {ds : List Diagnostic} (h : readProgram source = .error ds)
    (hMem : d ∈ ds) : d.Points source.toList := by
  by_cases hClean : lexicalDiagnostics source = []
  · rcases readProgram_cases hClean with ⟨-, hRead⟩ | ⟨p, hRead⟩
    · cases h.symm.trans hRead
      exact syntactic_points hMem
    · cases h.symm.trans hRead
  · cases h.symm.trans (readProgram_of_faults hClean)
    exact lexical_points hMem

theorem evaluateSource_points {fuel : Nat} {o : Outcome}
    (h : evaluateSource source options fuel = .ok o) (hMem : d ∈ o.diagnostics) :
    d.Points source.toList := by
  unfold evaluateSource at h
  cases hRead : readProgram source with
  | error ds =>
    rw [hRead] at h
    cases h
    exact readProgram_points hRead hMem
  | ok p =>
    rw [hRead] at h
    cases hRun : p.evaluate options fuel with
    | error fault => simp [hRun, Except.map] at h
    | ok r =>
      obtain ⟨result, s⟩ := r
      simp only [hRun, Except.map, Except.ok.injEq] at h
      subst h
      cases result with
      | ok v => cases hMem
      | error e =>
        obtain rfl := List.mem_singleton.mp hMem
        exact runtime_points hRead hRun

/-- All diagnostics of the runs of a source that end, and of its listings, point to places in the
source, and all syntax errors that are found at its end point to the end. -/
theorem diagnostics_point (source : String) (options : Options) :
    (∀ fuel o, evaluateSource source options fuel = .ok o →
      ∀ d ∈ o.diagnostics, d.Points source.toList) ∧
    (∀ ds, dumpTokens source = .error ds → ∀ d ∈ ds, d.Points source.toList) ∧
    (∀ ds, dumpTree source = .error ds → ∀ d ∈ ds, d.Points source.toList) ∧
    ∀ e ∈ (parse (lex source .initial).tokens).errors, e.found.kind = .endOfFile →
      e.span = .point (byteLength source.toList) := by
  refine ⟨fun fuel o h d => evaluateSource_points h, fun ds h d => readTokens_points ?_,
    fun ds h d => readProgram_points ?_, fun e hError => (found_placed hError).last⟩
  · unfold dumpTokens at h
    cases hRead : readTokens source with
    | ok lexed => simp [hRead, Except.map] at h
    | error ds' => simpa [hRead, Except.map] using h
  · unfold dumpTree at h
    cases hRead : readProgram source with
    | ok p => simp [hRead, Except.map] at h
    | error ds' => simpa [hRead, Except.map] using h

theorem lex_strayAndOpen : lex "@;(" .initial = ⟨[⟨.invalid, ⟨0, 1⟩⟩, ⟨.symbol .semicolon, ⟨1, 2⟩⟩,
    ⟨.symbol .leftParen, ⟨2, 3⟩⟩, ⟨.endOfFile, ⟨3, 3⟩⟩], [.invalidChar '@' ⟨0, 1⟩], .initial⟩ := by
  decide +kernel

/-- The stray character is reported by the run and both listings, and if it is read over, the
parenthesis that is still open is an error at the end. -/
theorem diagnostics_point_strayAndOpen :
    ∃ d, evaluateSource "@;(" .default 0 = .ok (.rejected [d]) ∧ dumpTokens "@;(" = .error [d] ∧
      dumpTree "@;(" = .error [d] ∧ d.Points "@;(".toList ∧
      ∃ e ∈ (parse (lex "@;(" .initial).tokens).errors, e.found.kind = .endOfFile ∧
        e.span = .point 3 := by
  have hDiagnostics : lexicalDiagnostics "@;("
      = [(LexError.invalidChar '@' ⟨0, 1⟩).diagnostic] := by
    rw [lexicalDiagnostics, lex_strayAndOpen]
    rfl
  have hFaults : lexicalDiagnostics "@;(" ≠ [] := by
    rw [hDiagnostics]
    nofun
  obtain ⟨hRun, hTokens, hTree⟩ := rejected_of_faults hFaults .default 0
  rw [hDiagnostics] at hRun hTokens hTree
  have hErrors : (parse (lex "@;(" .initial).tokens).errors
      = [⟨.expression, ⟨.invalid, ⟨0, 1⟩⟩⟩, ⟨.expression, ⟨.endOfFile, ⟨3, 3⟩⟩⟩] := by
    rw [lex_strayAndOpen]
    decide +kernel
  have hLast : ⟨.expression, ⟨.endOfFile, ⟨3, 3⟩⟩⟩ ∈
      (parse (lex "@;(" .initial).tokens).errors := by
    rw [hErrors]
    exact List.mem_cons_of_mem _ List.mem_cons_self
  obtain ⟨hOutcome, -, -, hEnd⟩ := diagnostics_point "@;(" .default
  exact ⟨_, hRun, hTokens, hTree, hOutcome 0 _ hRun _ List.mem_cons_self, _, hLast, rfl,
    hEnd _ hLast rfl⟩

end FeatherScript
