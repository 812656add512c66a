import FeatherScript.Proofs.Eval.LexicalScopes
import FeatherScript.Proofs.Eval.Printing
import FeatherScript.Proofs.Program.Phases

/-!
# Printed lines

What a program prints is collected in one text, to which every execution of a print adds a line, and
the text is given back by lines when the run has ended. The lines are those that were added: none is
lost or cut, and none is made of two, for the printed form of a value never ends a line.

* `Transcript.println`: the text after one more value.
* `Transcribes`: what the printed lines of a run have to do with its executions of prints.
* `printed_lossless`: the printed lines of all sources.
-/

namespace FeatherScript

open Eval

/-! ## The text -/

/-- The text after one more value is printed. -/
def Transcript.println (text : String) (v : Value) : String := text ++ v.text ++ "\n"

/-- The text of several values comes about by printing one after the other. -/
theorem Transcript.ofValues_eq_foldl (values : List Value) :
    ofValues values = values.foldl println "" := by
  have hStep : (fun text (v : Value) => text ++ (v.text ++ "\n")) = println := by
    funext text v
    exact String.append_assoc.symm
  rw [ofValues, String.join, List.foldl_map, hStep]

/-! ## Runs -/

/-- The lines are what a run prints. There is one for each execution of a print, in their order,
which is the printed form of its value: every execution at a moment that the run visits is among
them, once, and it happens when exactly the values of those before it have been printed. Adding the
values to one text, line by line, and reading the text back by lines gives the same lines. -/
structure Transcribes (cfg : Setting) (m : Moment) (lines : List String) : Prop where
  executions : ∀ e, e ∈ m.printings cfg ↔ Visits cfg m e.moment ∧ e.Occurs cfg
  once : (m.printings cfg).Nodup
  inTurn : ∀ k e, (m.printings cfg)[k]? = some e →
    e.state.printed.toList = ((m.printings cfg).take k).map (·.value)
  entries : lines = (m.printings cfg).map (·.value.text)
  collected : lines = Transcript.lines
    ((m.printings cfg).foldl (fun text e => Transcript.println text e.value) "")

/-- The lines of an evaluation that ends are what it prints. -/
theorem transcribes_of_evaluate {p : Program} {options : Options} {fuel : Nat}
    {result : Except EvalError Value} {s : State}
    (hRun : p.evaluate options fuel = .ok (result, s)) :
    Transcribes (options.setting p.table) (.ofProgram p fuel)
      (Outcome.ofResult p.names result s).printed := by
  have hOutcome := settle_eq_ok.mp hRun
  have hRecords := Moment.records (options.setting p.table) (.ofProgram p fuel)
  have hNotSpent : ¬ (Moment.ofProgram p fuel).Spent (options.setting p.table) := by
    rintro ⟨t, hSpent⟩
    have hSame := hOutcome.symm.trans hSpent
    cases result <;> cases hSame
  have hFinal : s.printed.toList
      = ((Moment.ofProgram p fuel).printings (options.setting p.table)).map Printing.value := by
    have hState : after ((Moment.ofProgram p fuel).outcome (options.setting p.table)) = s := by
      refine (congrArg after hOutcome).trans ?_
      cases result <;> rfl
    rw [hState] at hRecords
    exact hRecords.final_eq
  have hPrinted : (Outcome.ofResult p.names result s).printed
      = Transcript.lines (Transcript.ofValues s.printed.toList) := by
    cases result <;> rfl
  rw [hPrinted, hFinal]
  exact {
    executions := fun e => Moment.mem_printings_iff hNotSpent
    once := hRecords.nodup
    inTurn := fun k e hAt => hRecords.printed_eq hAt
    entries := by
      rw [Transcript.lines_ofValues, List.map_map]
      rfl
    collected := by rw [Transcript.ofValues_eq_foldl, List.foldl_map] }

/-- Whenever the run of a source ends, with a value or an error, its printed lines are those of the
executions of prints in the run; a source that is no program prints nothing. -/
theorem printed_lossless {source : String} {options : Options} {fuel : Nat} {o : Outcome}
    (hRun : evaluateSource source options fuel = .ok o) :
    match readProgram source with
    | .error _ => o.printed = []
    | .ok p => Transcribes (options.setting p.table) (.ofProgram p fuel) o.printed := by
  unfold evaluateSource at hRun
  cases hRead : readProgram source with
  | error ds =>
    rw [hRead] at hRun
    cases hRun
    rfl
  | ok p =>
    rw [hRead] at hRun
    cases hEvaluate : p.evaluate options fuel with
    | error fault => simp [hEvaluate, Except.map] at hRun
    | ok r =>
      simp only [hEvaluate, Except.map, Except.ok.injEq] at hRun
      rw [← hRun]
      exact transcribes_of_evaluate hEvaluate

/-- What was printed before the division fails is kept, and is all that was printed. -/
theorem printed_lossless_division :
    ∃ o, evaluateSource "print(true);1/0" .default 9 = .ok o ∧ o.printed = ["true"] ∧
      o.value = none ∧ Transcribes (Options.default.setting printingDivision.table)
        (.ofProgram printingDivision 9) ["true"] := by
  have hRead := readProgram_printingDivision
  have hRun : printingDivision.evaluate .default 9 = .ok (.error ⟨.divisionByZero, some ⟨12, 15⟩⟩,
      ⟨.initial, #[.bool true], 0, 0⟩) := by decide +kernel
  have hSource : evaluateSource "print(true);1/0" .default 9 = .ok (.ofResult .initial
      (.error ⟨.divisionByZero, some ⟨12, 15⟩⟩) ⟨.initial, #[.bool true], 0, 0⟩) := by
    unfold evaluateSource
    rw [hRead]
    exact congrArg (Except.map _) hRun
  have hPrinted : Transcript.lines (Transcript.ofValues [.bool true]) = ["true"] :=
    Transcript.lines_ofValues [.bool true]
  have hLossless := printed_lossless hSource
  rw [hRead] at hLossless
  exact ⟨_, hSource, hPrinted, rfl, hPrinted ▸ hLossless⟩

end FeatherScript
