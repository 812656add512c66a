import FeatherScript.Eval.Step
import FeatherScript.Grammar.Program
import FeatherScript.Token.Lex
import FeatherScript.Transcript
import FeatherScript.Tree.SExpr

/-!
# From source text to results

A source passes three phases: it is cut into tokens, the tokens are read as a program, and the
program is evaluated in fresh scopes. Errors of one phase keep the next from starting, and all
lexical or all syntax errors are reported together, in the order of the source; evaluation ends at
its first error.

* `readTokens` and `readProgram` are the first two phases.
* `evaluateSource` runs all three; with too little fuel it has no outcome.
* `dumpTokens` and `dumpTree` show the results of the first two.
-/

namespace FeatherScript

/-! ## Reading -/

/-- The tokens of a source without lexical errors. -/
def readTokens (source : String) : Except (List Diagnostic) Lexed :=
  let lexed := lex source .initial
  if lexed.hasErrors then .error (lexed.errors.map (·.diagnostic)) else .ok lexed

/-- A program without syntax errors. -/
structure Program where
  table : NodeTable
  root : NodeId
  names : NameTable
deriving DecidableEq

/-- The program of a source without lexical and syntax errors. -/
def readProgram (source : String) : Except (List Diagnostic) Program := do
  let lexed ← readTokens source
  let parsed := parse lexed.tokens
  if parsed.hasErrors then .error (parsed.errors.map (·.diagnostic))
  else return ⟨parsed.table, parsed.root, lexed.names⟩

/-! ## Evaluation -/

/-- How programs are evaluated. -/
structure Options where
  policy : Eval.ArityPolicy
  maxDepth : Nat
deriving DecidableEq

/-- Missing arguments are null, and ten thousand calls may be nested. -/
def Options.default : Options := ⟨.bindNull, 10000⟩

/-- What an evaluation refers to, for a table of nodes. -/
def Options.setting (o : Options) (table : NodeTable) : Eval.Setting :=
  ⟨table, o.policy, o.maxDepth⟩

/-- Everything that running a source produces: the lines printed, the value of the program if no
phase failed, and the diagnostics of the phase that did. -/
structure Outcome where
  printed : List String
  value : Option Value
  diagnostics : List Diagnostic
deriving DecidableEq

namespace Outcome

/-- The outcome of a source that is no program. -/
def rejected (diagnostics : List Diagnostic) : Outcome := ⟨[], none, diagnostics⟩

/-- The outcome of an evaluation that ended. -/
def ofResult (names : NameTable) (result : Except EvalError Value) (s : Eval.State) : Outcome :=
  let printed := Transcript.lines (Transcript.ofValues s.printed.toList)
  match result with
  | .ok value => ⟨printed, some value, []⟩
  | .error e => ⟨printed, none, [e.diagnostic names]⟩

/-- Whether the program ran to its end. -/
def isOk (o : Outcome) : Bool := o.value.isSome && !o.diagnostics.any (·.isError)

end Outcome

/-- The evaluation of a whole program in fresh scopes. -/
def Program.evaluate (p : Program) (options : Options) (fuel : Nat) :
    Except Eval.Fault (Except EvalError Value × Eval.State) :=
  (Eval.eval (options.setting p.table) fuel p.root Scopes.global).settle .initial

/-- Runs a source through all phases. -/
def evaluateSource (source : String) (options : Options) (fuel : Nat) :
    Except Eval.Fault Outcome :=
  match readProgram source with
  | .error diagnostics => .ok (.rejected diagnostics)
  | .ok p => (p.evaluate options fuel).map fun r => .ofResult p.names r.1 r.2

/-! ## Listings -/

/-- The tokens of a source, one to a line, with identifiers by their texts. -/
def dumpTokens (source : String) : Except (List Diagnostic) String :=
  (readTokens source).map fun lexed =>
    String.join (lexed.tokens.map fun t => t.text lexed.names.lookup ++ "\n")

/-- The text of a node's tree, empty where the node has none. -/
def NodeTable.dump (t : NodeTable) (names : NameTable) (id : NodeId) : String :=
  (t.tree? id).elim "" (Tree.dump names)

/-- The tree of a program on one line. -/
def dumpTree (source : String) : Except (List Diagnostic) String :=
  (readProgram source).map fun p => p.table.dump p.names p.root

end FeatherScript
