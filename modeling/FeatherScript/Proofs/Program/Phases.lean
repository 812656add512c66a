import FeatherScript.Proofs.Program.Lines
import FeatherScript.Proofs.Program.Respelling

/-!
# One phase after another

A run that ends does so in one of four ways. It reports lexical errors only, or syntax errors only,
and then it has printed nothing; or it reports one runtime error, after what was printed before; or
it reports nothing and has a value. The two listings stop where a run would: the tokens are not
listed in the first case, the tree in the first two, and the diagnostics are those of the run.

* `Ending`, `Outcome.HasEnding`: the four ways, and the outcomes that come of each.
* `HasEnding.unique`: an outcome comes of one ending only, as the phase of its codes shows.
* `phases_agree`: runs and listings of all sources.
-/

namespace FeatherScript

/-! ## Endings -/

/-- The ways in which a run ends. -/
inductive Ending
  | lexical
  | syntactic
  | runtime
  | success
deriving DecidableEq

/-- The phase that an ending lies in, unless all of them succeed. -/
def Ending.phase? : Ending → Option Phase
  | lexical => some .lexing
  | syntactic => some .parsing
  | runtime => some .evaluation
  | success => none

/-- One diagnostic for each lexical error of a source, in order. -/
def lexicalDiagnostics (source : String) : List Diagnostic :=
  (lex source .initial).errors.map (·.diagnostic)

/-- One diagnostic for each syntax error in the tokens of a source, in order. -/
def syntaxDiagnostics (source : String) : List Diagnostic :=
  (parse (lex source .initial).tokens).errors.map (·.diagnostic)

/-- The outcome has no value and reports faults, all of the same phase. -/
structure Outcome.Reports (o : Outcome) (phase : Phase) (faults : List Diagnostic) : Prop where
  diagnostics : o.diagnostics = faults
  nonempty : faults ≠ []
  codes : ∀ d ∈ faults, d.code.phase = phase
  value : o.value = none

/-- What the outcome of a run is, for each ending. -/
inductive Outcome.HasEnding (source : String) (options : Options) (o : Outcome) : Ending → Prop
  | lexical (hReports : o.Reports .lexing (lexicalDiagnostics source)) (hPrinted : o.printed = []) :
      HasEnding source options o .lexical
  | syntactic (hClean : lexicalDiagnostics source = [])
      (hReports : o.Reports .parsing (syntaxDiagnostics source)) (hPrinted : o.printed = []) :
      HasEnding source options o .syntactic
  | runtime {p fuel e s} (hRead : readProgram source = .ok p)
      (hRun : p.evaluate options fuel = .ok (.error e, s))
      (hReports : o.Reports .evaluation [e.diagnostic p.names])
      (hPrinted : o.printed = s.printed.toList.map Value.text) :
      HasEnding source options o .runtime
  | success {p fuel v s} (hRead : readProgram source = .ok p)
      (hRun : p.evaluate options fuel = .ok (.ok v, s)) (hSilent : o.diagnostics = [])
      (hValue : o.value = some v) (hPrinted : o.printed = s.printed.toList.map Value.text) :
      HasEnding source options o .success

variable {source : String} {options : Options} {o : Outcome} {ending ending' : Ending}

theorem Ending.phase?_injective : Function.Injective Ending.phase? := by
  intro a b hSame
  cases a <;> cases b <;> first | rfl | cases hSame

theorem Outcome.Reports.head_phase {phase : Phase} {ds : List Diagnostic} (h : o.Reports phase ds) :
    o.diagnostics.head?.map (·.code.phase) = some phase := by
  rw [h.diagnostics]
  cases ds with
  | nil => exact absurd rfl h.nonempty
  | cons d ds => exact congrArg some (h.codes d List.mem_cons_self)

namespace Outcome.HasEnding

theorem phase?_eq (h : o.HasEnding source options ending) :
    o.diagnostics.head?.map (·.code.phase) = ending.phase? := by
  cases h with
  | lexical hReports | syntactic _ hReports | runtime _ _ hReports => exact hReports.head_phase
  | success _ _ hSilent =>
    rw [hSilent]
    rfl

/-- An outcome comes of one ending only. -/
theorem unique (h : o.HasEnding source options ending) (h' : o.HasEnding source options ending') :
    ending' = ending :=
  Ending.phase?_injective (h'.phase?_eq.symm.trans h.phase?_eq)

/-- A run is a success exactly when its outcome says so. -/
theorem isOk_iff (h : o.HasEnding source options ending) :
    o.isOk = true ↔ ending = .success := by
  unfold isOk
  cases h with
  | lexical hReports | syntactic _ hReports | runtime _ _ hReports =>
    rw [hReports.value]
    constructor
    all_goals nofun
  | success _ _ hSilent hValue =>
    rw [hSilent, hValue]
    exact ⟨fun _ => rfl, fun _ => rfl⟩

end Outcome.HasEnding

/-! ## Codes -/

theorem LexError.phase_diagnostic (e : LexError) : e.diagnostic.code.phase = .lexing := by
  cases e <;> rfl

theorem ParseError.phase_diagnostic (e : ParseError) : e.diagnostic.code.phase = .parsing := by
  obtain ⟨expected, found⟩ := e
  cases expected <;> rfl

theorem EvalError.phase_diagnostic (names : NameTable) (e : EvalError) :
    (e.diagnostic names).code.phase = .evaluation := by
  obtain ⟨cause, span⟩ := e
  cases cause <;> rfl

/-! ## What each phase answers -/

/-- A source that is no program is rejected for the errors of one phase. -/
theorem reports_rejected {ε : Type} {diagnose : ε → Diagnostic} {phase : Phase} {errors : List ε}
    (hPhase : ∀ e, (diagnose e).code.phase = phase) (h : errors.map diagnose ≠ []) :
    (Outcome.rejected (errors.map diagnose)).Reports phase (errors.map diagnose) where
  diagnostics := rfl
  nonempty := h
  codes d hMem := by
    obtain ⟨e, -, rfl⟩ := List.mem_map.mp hMem
    exact hPhase e
  value := rfl

theorem readTokens_eq (source : String) : readTokens source =
    if lexicalDiagnostics source = [] then .ok (lex source .initial)
    else .error (lexicalDiagnostics source) := by
  unfold readTokens lexicalDiagnostics
  obtain ⟨tokens, errors, names⟩ := lex source .initial
  cases errors <;> rfl

theorem readProgram_of_faults (h : lexicalDiagnostics source ≠ []) :
    readProgram source = .error (lexicalDiagnostics source) := by
  unfold readProgram
  rw [readTokens_eq, if_neg h]
  rfl

/-- A source with lexical errors is rejected for them, and neither of its listings is made. -/
theorem rejected_of_faults (h : lexicalDiagnostics source ≠ []) (options : Options) (fuel : Nat) :
    evaluateSource source options fuel = .ok (.rejected (lexicalDiagnostics source)) ∧
      dumpTokens source = .error (lexicalDiagnostics source) ∧
      dumpTree source = .error (lexicalDiagnostics source) := by
  have hRead := readProgram_of_faults h
  refine ⟨?_, ?_, ?_⟩
  · rw [evaluateSource, hRead]
  · rw [dumpTokens, readTokens_eq, if_neg h]
    rfl
  · rw [dumpTree, hRead]
    rfl

/-- A source without lexical errors is a program, unless it has syntax errors. -/
theorem readProgram_cases (hClean : lexicalDiagnostics source = []) :
    (syntaxDiagnostics source ≠ [] ∧ readProgram source = .error (syntaxDiagnostics source)) ∨
      ∃ p, readProgram source = .ok p := by
  rw [readProgram_of_clean (List.map_eq_nil_iff.mp hClean)]
  unfold Parsed.hasErrors syntaxDiagnostics
  cases (parse (lex source .initial).tokens).errors with
  | nil => exact .inr ⟨_, rfl⟩
  | cons e es => exact .inl ⟨nofun, rfl⟩

theorem hasEnding_of_error {p : Program} {fuel : Nat} {e : EvalError} {s : Eval.State}
    (hRead : readProgram source = .ok p) (hRun : p.evaluate options fuel = .ok (.error e, s)) :
    (Outcome.ofResult p.names (.error e) s).HasEnding source options .runtime := by
  refine .runtime hRead hRun ⟨rfl, nofun, fun d hMem => ?_, rfl⟩ (Transcript.lines_ofValues _)
  rw [List.mem_singleton.mp hMem]
  exact e.phase_diagnostic p.names

/-- An evaluation that ends has a value, or one error of its phase. -/
theorem hasEnding_ofResult {p : Program} {fuel : Nat} {result : Except EvalError Value}
    {s : Eval.State} (hRead : readProgram source = .ok p)
    (hRun : p.evaluate options fuel = .ok (result, s)) :
    ∃ ending, (Outcome.ofResult p.names result s).HasEnding source options ending ∧
      ending ≠ .lexical ∧ ending ≠ .syntactic := by
  cases result with
  | ok v =>
    exact ⟨.success, .success hRead hRun rfl rfl (Transcript.lines_ofValues _), nofun, nofun⟩
  | error e => exact ⟨.runtime, hasEnding_of_error hRead hRun, nofun, nofun⟩

/-! ## Runs and listings -/

/-- A listing fails for given diagnostics alone, or not at all. -/
def FailsWith {α : Type} (listing : Except (List Diagnostic) α) (h : Prop)
    (diagnostics : List Diagnostic) : Prop :=
  ∀ ds, listing = .error ds ↔ h ∧ ds = diagnostics

theorem failsWith_error {α : Type} {h : Prop} {ds : List Diagnostic} (hHolds : h) :
    FailsWith (.error ds : Except (List Diagnostic) α) h ds := by
  intro ds'
  constructor
  · rintro ⟨⟩
    exact ⟨hHolds, rfl⟩
  · rintro ⟨-, rfl⟩
    rfl

theorem failsWith_ok {α : Type} {h : Prop} {a : α} {ds : List Diagnostic} (hFails : ¬ h) :
    FailsWith (.ok a) h ds := by
  intro ds'
  constructor
  · nofun
  · rintro ⟨hHolds, -⟩
    exact absurd hHolds hFails

/-- Every run that ends has one of the four endings and no other. The tokens of its source are not
listed if that is the lexical one, the tree is not listed if it is that or the syntactic one, both
for the diagnostics of the run, and the run is a success in the last case only. -/
theorem phases_agree (source : String) (options : Options) (fuel : Nat) (o : Outcome)
    (hRun : evaluateSource source options fuel = .ok o) :
    ∃ ending, (∀ other, o.HasEnding source options other ↔ other = ending) ∧
      FailsWith (dumpTokens source) (ending = .lexical) o.diagnostics ∧
      FailsWith (dumpTree source) (ending = .lexical ∨ ending = .syntactic) o.diagnostics ∧
      (o.isOk = true ↔ ending = .success) := by
  suffices h : ∃ ending, o.HasEnding source options ending ∧
      FailsWith (dumpTokens source) (ending = .lexical) o.diagnostics ∧
      FailsWith (dumpTree source) (ending = .lexical ∨ ending = .syntactic) o.diagnostics by
    obtain ⟨ending, hEnding, hTokens, hTree⟩ := h
    refine ⟨ending, fun other => ⟨hEnding.unique, ?_⟩, hTokens, hTree, hEnding.isOk_iff⟩
    rintro rfl
    exact hEnding
  by_cases hClean : lexicalDiagnostics source = []
  · unfold evaluateSource at hRun
    unfold dumpTokens dumpTree
    rw [readTokens_eq, if_pos hClean]
    rcases readProgram_cases hClean with ⟨hFaults, hRead⟩ | ⟨p, hRead⟩
    · rw [hRead] at hRun ⊢
      cases hRun
      have hReports := reports_rejected ParseError.phase_diagnostic hFaults
      exact ⟨.syntactic, .syntactic hClean hReports rfl, failsWith_ok nofun,
        failsWith_error (.inr rfl)⟩
    · rw [hRead] at hRun ⊢
      cases hEvaluate : p.evaluate options fuel with
      | error fault => simp [hEvaluate, Except.map] at hRun
      | ok r =>
        simp only [hEvaluate, Except.map, Except.ok.injEq] at hRun
        obtain ⟨ending, hEnding, hLexical, hSyntactic⟩ := hasEnding_ofResult hRead hEvaluate
        exact ⟨ending, hRun ▸ hEnding, failsWith_ok hLexical,
          failsWith_ok (not_or.mpr ⟨hLexical, hSyntactic⟩)⟩
  · obtain ⟨hRejected, hTokens, hTree⟩ := rejected_of_faults hClean options fuel
    cases hRejected.symm.trans hRun
    rw [hTokens, hTree]
    have hReports := reports_rejected LexError.phase_diagnostic hClean
    exact ⟨.lexical, .lexical hReports rfl, failsWith_error rfl, failsWith_error (.inl rfl)⟩

/-- The program `print(true);1/0`. -/
def printingDivision : Program where
  table := ⟨#[⟨.bool true, ⟨6, 10⟩⟩, ⟨.print 0, ⟨0, 11⟩⟩, ⟨.int 1, ⟨12, 13⟩⟩, ⟨.int 0, ⟨14, 15⟩⟩,
    ⟨.binary .div 2 3, ⟨12, 15⟩⟩, ⟨.sequence 1 4, ⟨0, 15⟩⟩], #[], #[]⟩
  root := 5
  names := .initial

theorem readProgram_printingDivision : readProgram "print(true);1/0" = .ok printingDivision := by
  have hLex : lex "print(true);1/0" .initial = ⟨[⟨.keyword .kwPrint, ⟨0, 5⟩⟩,
      ⟨.symbol .leftParen, ⟨5, 6⟩⟩, ⟨.keyword .kwTrue, ⟨6, 10⟩⟩, ⟨.symbol .rightParen, ⟨10, 11⟩⟩,
      ⟨.symbol .semicolon, ⟨11, 12⟩⟩, ⟨.int 1, ⟨12, 13⟩⟩, ⟨.symbol .slash, ⟨13, 14⟩⟩,
      ⟨.int 0, ⟨14, 15⟩⟩, ⟨.endOfFile, ⟨15, 15⟩⟩], [], .initial⟩ := by decide +kernel
  have hParse : parse (lex "print(true);1/0" .initial).tokens
      = ⟨printingDivision.table, printingDivision.root, []⟩ := by
    rw [hLex]
    decide +kernel
  rw [readProgram_of_clean (congrArg Lexed.errors hLex), hParse, hLex]
  rfl

/-- The division fails after the program has printed, so there is a tree and no value. -/
theorem phases_agree_division :
    ∃ o, evaluateSource "print(true);1/0" .default 9 = .ok o ∧ o.printed = ["true"] ∧
      (∀ other, o.HasEnding "print(true);1/0" .default other ↔ other = .runtime) ∧
      o.isOk = false ∧ ∀ ds, dumpTree "print(true);1/0" ≠ .error ds := by
  have hRead := readProgram_printingDivision
  have hRun : printingDivision.evaluate .default 9 = .ok (.error ⟨.divisionByZero, some ⟨12, 15⟩⟩,
      ⟨.initial, #[.bool true], 0, 0⟩) := by decide +kernel
  have hSource : evaluateSource "print(true);1/0" .default 9 = .ok (.ofResult .initial
      (.error ⟨.divisionByZero, some ⟨12, 15⟩⟩) ⟨.initial, #[.bool true], 0, 0⟩) := by
    unfold evaluateSource
    rw [hRead]
    exact congrArg (Except.map _) hRun
  obtain ⟨ending, hEnding, -, hTree, hOk⟩ := phases_agree _ _ _ _ hSource
  have hSame : .runtime = ending := (hEnding .runtime).mp (hasEnding_of_error hRead hRun)
  subst hSame
  refine ⟨_, hSource, ?_, hEnding, Bool.eq_false_iff.mpr fun h => ?_, fun ds hFails => ?_⟩
  · exact Transcript.lines_ofValues [.bool true]
  · cases hOk.mp h
  · rcases ((hTree ds).mp hFails).1 with h | h
    all_goals cases h

end FeatherScript
