import FeatherScript.Program
import FeatherScript.Proofs.Eval.Places
import FeatherScript.Proofs.Grammar.Parallel
import FeatherScript.Proofs.Grammar.Planting

/-!
# Layout and spelling do not matter

Two sources whose tokens agree, up to a renaming of the identifiers, are the same program to every
phase. What differs in the results are the places, and the spellings of names where results show
them: in the message about a name that was declared already, and in the listing of the tree.

* `Diagnostic.Alike`, `Outcome.Alike`: diagnostics and outcomes that agree up to a renaming.
* `readProgram_alike`: the programs of two such sources.
* `respelled_alike`: their outcomes and listings.
-/

namespace FeatherScript

/-! ## Diagnostics -/

/-- The message about a name that was declared already. -/
def redeclaredMessage (name : String) : String := s!"`{name}` is already declared in this scope"

/-- The notes on a name that was declared already. -/
def redeclaredNotes (name : String) : List String :=
  [s!"use `{name} = ...` to assign to the existing binding"]

/-- Labels that differ at most in their places. -/
structure Label.Alike (l l' : Label) : Prop where
  isPrimary : l'.isPrimary = l.isPrimary
  message : l'.message = l.message

/-- Diagnostics that differ at most in their places and, where they say that a name was declared
already, in the name, which is renamed. -/
structure Diagnostic.Alike (ρ : String → String) (d d' : Diagnostic) : Prop where
  code : d'.code = d.code
  severity : d'.severity = d.severity
  labels : List.Forall₂ Label.Alike d.labels d'.labels
  redeclared : d.code = .alreadyDeclared → ∃ name,
    (d.message = redeclaredMessage name ∧ d'.message = redeclaredMessage (ρ name)) ∧
    (d.notes = redeclaredNotes name ∧ d'.notes = redeclaredNotes (ρ name))
  same : d.code ≠ .alreadyDeclared → d'.message = d.message ∧ d'.notes = d.notes

variable {R : Name → Name → Prop} {ρ : String → String} {names names' : NameTable}

theorem TokenKind.Alike.description_eq {kind kind' : TokenKind} (h : kind.Alike R kind') :
    kind'.description = kind.description := by
  cases h <;> rfl

theorem ParseError.Alike.diagnostic {e e' : ParseError} (h : e.Alike R e') :
    Diagnostic.Alike ρ e.diagnostic e'.diagnostic := by
  have hMessage : e'.message = e.message := by
    rw [ParseError.message, ParseError.message, h.expected, h.found.description_eq]
  have hCode : e.expected.code ≠ .alreadyDeclared := by cases e.expected <;> nofun
  unfold ParseError.diagnostic
  rw [h.expected, hMessage]
  exact ⟨rfl, rfl, .cons ⟨rfl, rfl⟩ .nil, fun hDeclared => absurd hDeclared hCode,
    fun _ => ⟨rfl, rfl⟩⟩

theorem EvalError.Alike.diagnostic {e e' : EvalError} (h : e.Alike R e')
    (hNames : ∀ n n', R n n' → names'.lookup n' = ρ (names.lookup n)) :
    Diagnostic.Alike ρ (e.diagnostic names) (e'.diagnostic names') := by
  obtain ⟨cause, span⟩ := e
  obtain ⟨cause', span'⟩ := e'
  obtain ⟨hCause, hSpan⟩ := h
  dsimp only at hCause hSpan
  have hLabels : ∀ remark : String, List.Forall₂ Label.Alike
      (span.map fun place => (⟨true, place, remark⟩ : Label)).toList
      (span'.map fun place => (⟨true, place, remark⟩ : Label)).toList := by
    intro remark
    cases span <;> cases span' <;> cases hSpan
    · exact .nil
    · exact .cons ⟨rfl, rfl⟩ .nil
  cases hCause with
  | declared hName =>
    have hRenamed := hNames _ _ hName
    refine ⟨rfl, rfl, hLabels _, fun _ => ⟨names.lookup _, ⟨rfl, ?_⟩, rfl, ?_⟩,
      fun hOther => absurd rfl hOther⟩
    · rw [← hRenamed]
      rfl
    · rw [← hRenamed]
      rfl
  | other hName =>
    have hCode : cause.code ≠ .alreadyDeclared := by
      cases cause with
      | alreadyDeclared n => exact absurd rfl (hName n)
      | _ => nofun
    refine ⟨rfl, rfl, hLabels _, fun hDeclared => absurd hDeclared hCode, fun _ => ?_⟩
    cases cause with
    | alreadyDeclared n => exact absurd rfl (hName n)
    | _ => exact ⟨rfl, rfl⟩

/-! ## Programs -/

/-- Programs that agree up to a renaming of the identifiers and up to spans. -/
structure Program.Renames (ρ : String → String) (p p' : Program) : Prop where
  table : p.table.Alike
    (fun n n' => n' = n ∧ p'.names.lookup n' = ρ (p.names.lookup n)) p'.table
  root : p'.root = p.root

/-- What a source without lexical errors is read as. -/
theorem readProgram_of_clean {source : String} (hClean : (lex source .initial).errors = []) :
    readProgram source = if (parse (lex source .initial).tokens).hasErrors then
        .error ((parse (lex source .initial).tokens).errors.map (·.diagnostic))
      else .ok ⟨(parse (lex source .initial).tokens).table,
        (parse (lex source .initial).tokens).root, (lex source .initial).names⟩ := by
  have hTokens : readTokens source = .ok (lex source .initial) := by
    unfold readTokens Lexed.hasErrors
    dsimp only
    rw [hClean]
    rfl
  unfold readProgram
  rw [hTokens]
  rfl

/-- Sources whose tokens agree up to a renaming are both programs, or neither is one. -/
theorem readProgram_alike {source source' : String}
    (hClean : (lex source .initial).errors = []) (hClean' : (lex source' .initial).errors = [])
    (h : (lex source .initial).Renames ρ (lex source' .initial)) :
    ResultsAlike (List.Forall₂ (Diagnostic.Alike ρ))
      (fun p p' => p.Renames ρ p' ∧ p.names = (lex source .initial).names) (readProgram source)
      (readProgram source') := by
  have hParsed := parse_alike h.same_names
  have hErrors := hParsed.errors
  have hSame : (parse (lex source' .initial).tokens).hasErrors =
      (parse (lex source .initial).tokens).hasErrors := by
    unfold Parsed.hasErrors
    generalize (parse (lex source .initial).tokens).errors = es at hErrors
    generalize (parse (lex source' .initial).tokens).errors = es' at hErrors
    cases hErrors <;> rfl
  rw [readProgram_of_clean hClean, readProgram_of_clean hClean', hSame]
  split
  · refine .error ?_
    rw [List.forall₂_map_left_iff, List.forall₂_map_right_iff]
    exact hErrors.imp fun _ _ hError => hError.diagnostic
  · exact .ok ⟨⟨hParsed.table, hParsed.root⟩, rfl⟩

/-- The root of a program that was read unfolds to a tree. -/
theorem exists_tree_of_readProgram {source : String} {p : Program}
    (hRead : readProgram source = .ok p) : ∃ tree, p.table.tree? p.root = some tree := by
  obtain ⟨hErrors, hTable, hRoot⟩ := parsed_of_readProgram hRead
  obtain ⟨ids, t, hReads⟩ := Grammar.errors_eq_nil_iff.mp hErrors
  obtain ⟨trees, hTrees, -⟩ := Grammar.topStatements_yields hReads
  rw [hTable, hRoot]
  exact ⟨_, Grammar.tree?_root_of_reads hReads hTrees⟩

/-! ## Outcomes and listings -/

/-- Outcomes that differ at most in the places and the names in diagnostics. -/
structure Outcome.Alike (ρ : String → String) (o o' : Outcome) : Prop where
  printed : o'.printed = o.printed
  value : o'.value = o.value
  diagnostics : List.Forall₂ (Diagnostic.Alike ρ) o.diagnostics o'.diagnostics

/-- Two listings of one tree, the second with the names renamed. -/
def ListedAlike (ρ : String → String) (names : NameTable) (text text' : String) : Prop :=
  ∃ tree : Tree, text = (tree.sexpr names.lookup).text ∧
    text' = (tree.sexpr fun n => ρ (names.lookup n)).text

section

variable {p p' : Program}

theorem Program.Renames.evaluate (h : p.Renames ρ p') (options : Options) (fuel : Nat) :
    ResultsAlike Eq (Outcome.Alike ρ)
      ((p.evaluate options fuel).map fun r => .ofResult p.names r.1 r.2)
      ((p'.evaluate options fuel).map fun r => .ofResult p'.names r.1 r.2) := by
  have hSetting : (options.setting p.table).Alike
      (fun n n' => n' = n ∧ p'.names.lookup n' = ρ (p.names.lookup n)) (options.setting p'.table) :=
    ⟨h.table, rfl, rfl⟩
  have hEval := Eval.eval_alike (fun _ _ hBoth => hBoth.1) hSetting fuel p.root Scopes.global
  -- Both start in the same state, so they end in the same one.
  have hResults := hEval .initial .initial rfl
  unfold Program.evaluate Eval.Effect.settle
  rw [h.root]
  generalize Eval.eval (options.setting p.table) fuel p.root Scopes.global .initial = r
    at hResults ⊢
  generalize Eval.eval (options.setting p'.table) fuel p.root Scopes.global .initial = r'
    at hResults ⊢
  cases hResults with
  | ok hValue hState =>
    subst hValue hState
    exact .ok ⟨rfl, rfl, .nil⟩
  | error hStop hState =>
    subst hState
    cases hStop with
    | fault fault => exact .error rfl
    | failed hError =>
      have hDiagnostic := hError.diagnostic fun _ _ hBoth => hBoth.2
      exact .ok ⟨rfl, rfl, .cons hDiagnostic .nil⟩

theorem Program.Renames.dump (h : p.Renames ρ p')
    (hTree : ∃ tree, p.table.tree? p.root = some tree) :
    ListedAlike ρ p.names (p.table.dump p.names p.root) (p'.table.dump p'.names p'.root) := by
  obtain ⟨tree, hTree⟩ := hTree
  obtain ⟨tree', hTree', hWritten⟩ := h.table.exists_tree hTree
  refine ⟨tree, ?_, ?_⟩
  · rw [NodeTable.dump, hTree]
    rfl
  · rw [NodeTable.dump, h.root, hTree',
      hWritten (fun n => ρ (p.names.lookup n)) p'.names.lookup fun _ _ hBoth => hBoth.2.symm]
    rfl

end

/-- Sources without lexical errors whose tokens agree, but for their spans and a renaming of the
identifiers, have alike outcomes, or no outcome with the same fuel, and list alike trees. -/
theorem respelled_alike {source source' : String} {ρ : String → String}
    (hClean : (lex source .initial).errors = []) (hClean' : (lex source' .initial).errors = [])
    (h : (lex source .initial).Renames ρ (lex source' .initial)) (options : Options) :
    (∀ fuel, ResultsAlike Eq (Outcome.Alike ρ) (evaluateSource source options fuel)
      (evaluateSource source' options fuel)) ∧
    ResultsAlike (List.Forall₂ (Diagnostic.Alike ρ))
      (ListedAlike ρ (lex source .initial).names) (dumpTree source) (dumpTree source') := by
  have hRead := readProgram_alike hClean hClean' h
  unfold evaluateSource dumpTree
  generalize hFirst : readProgram source = r at hRead ⊢
  generalize readProgram source' = r' at hRead ⊢
  cases hRead with
  | error hDiagnostics => exact ⟨fun _ => .ok ⟨rfl, rfl, hDiagnostics⟩, .error hDiagnostics⟩
  | ok hPrograms =>
    obtain ⟨hRenames, hNames⟩ := hPrograms
    refine ⟨hRenames.evaluate options, .ok ?_⟩
    rw [← hNames]
    exact hRenames.dump (exists_tree_of_readProgram hFirst)

def renameToAb (text : String) : String := if text = "x" then "ab" else text

/-- The name that is declared twice here is spelled `x` in the one source and `ab` in the other. -/
theorem respelled_alike_redeclared :
    ResultsAlike Eq (Outcome.Alike renameToAb) (evaluateSource "var x=1;var x=2" .default 9)
      (evaluateSource "var ab = 1;//\nvar ab=2" .default 9) := by
  have hLex : lex "var x=1;var x=2" .initial = ⟨[⟨.keyword .kwVar, ⟨0, 3⟩⟩, ⟨.ident ⟨1⟩, ⟨4, 5⟩⟩,
      ⟨.symbol .assign, ⟨5, 6⟩⟩, ⟨.int 1, ⟨6, 7⟩⟩, ⟨.symbol .semicolon, ⟨7, 8⟩⟩,
      ⟨.keyword .kwVar, ⟨8, 11⟩⟩, ⟨.ident ⟨1⟩, ⟨12, 13⟩⟩, ⟨.symbol .assign, ⟨13, 14⟩⟩,
      ⟨.int 2, ⟨14, 15⟩⟩, ⟨.endOfFile, ⟨15, 15⟩⟩], [], ⟨#["", "x"]⟩⟩ := by decide +kernel
  have hLex' : lex "var ab = 1;//\nvar ab=2" .initial = ⟨[⟨.keyword .kwVar, ⟨0, 3⟩⟩,
      ⟨.ident ⟨1⟩, ⟨4, 6⟩⟩, ⟨.symbol .assign, ⟨7, 8⟩⟩, ⟨.int 1, ⟨9, 10⟩⟩,
      ⟨.symbol .semicolon, ⟨10, 11⟩⟩, ⟨.keyword .kwVar, ⟨14, 17⟩⟩, ⟨.ident ⟨1⟩, ⟨18, 20⟩⟩,
      ⟨.symbol .assign, ⟨20, 21⟩⟩, ⟨.int 2, ⟨21, 22⟩⟩, ⟨.endOfFile, ⟨22, 22⟩⟩], [],
      ⟨#["", "ab"]⟩⟩ := by decide +kernel
  have hRenames : (lex "var x=1;var x=2" .initial).Renames renameToAb
      (lex "var ab = 1;//\nvar ab=2" .initial) := by
    rw [hLex, hLex']
    refine ⟨by decide, ?_⟩
    exact .cons (.other rfl) (.cons (.ident rfl) (.cons (.other rfl) (.cons (.other rfl)
      (.cons (.other rfl) (.cons (.other rfl) (.cons (.ident rfl) (.cons (.other rfl)
      (.cons (.other rfl) (.cons (.other rfl) .nil)))))))))
  exact (respelled_alike (by rw [hLex]) (by rw [hLex']) hRenames .default).1 9

end FeatherScript
