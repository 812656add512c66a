import FeatherScript.Command.Arguments
import FeatherScript.Command.Directory
import FeatherScript.Diagnostic.Report

/-!
# The command line

The first argument names a command. A first argument that is no command but leads to a file stands
for running that file, with all arguments as those of the run. What a command writes depends on its
arguments, on the contents of at most one path and on whether reports are drawn in colours.

* `Command.ofArguments` reads the arguments, and `Command.path?` is the path that has to be read.
* `Command.execute` is what the command writes, and its exit code.
* `Directory.execute` runs a command line against files in memory.
-/

namespace FeatherScript

/-! ## Usage -/

/-- The message that lists the commands. -/
def usage : String :=
  "FWJS, a Featherweight JavaScript interpreter\n\n"
    ++ "Usage: fwjs <command> [options]\n\n"
    ++ "Commands:\n"
    ++ "  run <file>     Evaluate a program\n"
    ++ "  lex <file>     Print the token stream\n"
    ++ "  parse <file>   Print the expression tree\n"
    ++ "  help           Show this message\n"
    ++ "  version        Show version information\n\n"
    ++ "Set RUST_LOG (for example RUST_LOG=fwjs_eval=debug) to enable tracing.\n"

def runUsage : String :=
  "Usage: fwjs run <file> [options]\n\n"
    ++ "Options:\n"
    ++ "  --strict-arity     Too few arguments is an error instead of binding null\n"
    ++ "  --max-depth=<n>    Maximum nested function calls (default: 10000)\n"
    ++ "  --show-result      Print the program's final value\n"

def version : String := "fwjs 0.1.0\n"

/-! ## Output -/

/-- What a command writes to its two outputs, and its exit code. -/
structure Output where
  stdout : String
  stderr : String
  code : Nat
deriving DecidableEq

namespace Output

def success (stdout : String) : Output := ⟨stdout, "", 0⟩

def failure (stderr : String) : Output := ⟨"", stderr, 1⟩

end Output

/-! ## Commands -/

/-- What a command finds around it: whether reports are drawn in colours, how deep an evaluation may
go, and the contents of paths. -/
structure Surroundings where
  colours : Bool
  fuel : Nat
  contents : String → Contents

/-- What a command line asks for. -/
inductive Command
  | showUsage
  | showVersion
  | run (arguments : RunArguments)
  | listTokens (path : String)
  | listTree (path : String)
  | badRun (error : ArgumentError)
  | badFile (error : ArgumentError)
  | tokensWithoutPath
  | treeWithoutPath
  | unknown (name : String)
deriving DecidableEq

namespace Command

/-- The command of a list of arguments; the flag tells whether the first one leads to a file. -/
def ofArguments (firstIsFile : Bool) : List String → Command
  | [] => showUsage
  | first :: more =>
    if first = "run" then
      match RunArguments.read? more with
      | .ok arguments => run arguments
      | .error e => badRun e
    else if first = "lex" then more.head?.elim tokensWithoutPath listTokens
    else if first = "parse" then more.head?.elim treeWithoutPath listTree
    else if first = "help" ∨ first = "--help" ∨ first = "-h" then showUsage
    else if first = "version" ∨ first = "--version" ∨ first = "-V" then showVersion
    else if firstIsFile then
      match RunArguments.read? (first :: more) with
      | .ok arguments => run arguments
      | .error e => badFile e
    else unknown first

/-- The path whose contents a command needs. -/
def path? : Command → Option String
  | run arguments => some arguments.path
  | listTokens path | listTree path => some path
  | _ => none

/-- What is written for a file that cannot be read. -/
def cannotRead (path : String) (e : ReadError) : Output :=
  .failure s!"error: cannot read `{path}`: {e.message}\n"

/-- The report on the diagnostics of a source; nothing if there are none. -/
def reportOn (colours : Bool) (path source : String) (diagnostics : List Diagnostic) : String :=
  if diagnostics.isEmpty then "" else report colours path source diagnostics

/-- What is written for a listing, which ends with a line feed in any case. -/
def listing (colours : Bool) (path source : String) : Except (List Diagnostic) String → Output
  | .ok text => .success (if text.endsWith "\n" then text else text ++ "\n")
  | .error diagnostics => .failure (reportOn colours path source diagnostics)

def runOutput (colours : Bool) (arguments : RunArguments) (source : String) (o : Outcome) :
    Output :=
  let lines := String.join (o.printed.map (· ++ "\n"))
  let errors := reportOn colours arguments.path source o.diagnostics
  match o.value with
  | some value =>
    ⟨lines ++ (if arguments.showResult then s!"=> {value.text}\n" else ""), errors, 0⟩
  | none => ⟨lines, errors, 1⟩

/-- What a command writes in given surroundings. -/
def execute (around : Surroundings) : Command → Except Eval.Fault Output
  | showUsage => .ok (.success usage)
  | showVersion => .ok (.success version)
  | run arguments =>
    match around.contents arguments.path with
    | .error e => .ok (cannotRead arguments.path e)
    | .ok source =>
      (evaluateSource source arguments.options around.fuel).map
        (runOutput around.colours arguments source)
  | listTokens path =>
    match around.contents path with
    | .error e => .ok (cannotRead path e)
    | .ok source => .ok (listing around.colours path source (dumpTokens source))
  | listTree path =>
    match around.contents path with
    | .error e => .ok (cannotRead path e)
    | .ok source => .ok (listing around.colours path source (dumpTree source))
  | badRun e => .ok (.failure (s!"error: {e.message}\n" ++ runUsage))
  | badFile e => .ok (.failure s!"error: {e.message}\n")
  | tokensWithoutPath => .ok (.failure "Usage: fwjs lex <file>\n")
  | treeWithoutPath => .ok (.failure "Usage: fwjs parse <file>\n")
  | unknown name => .ok ⟨usage, s!"error: unknown command `{name}`\n\n", 1⟩

end Command

/-- Runs a command line against files in memory, without colours. -/
def Directory.execute (d : Directory) (fuel : Nat) (args : List String) :
    Except Eval.Fault Output :=
  let firstIsFile := args.head?.any fun path => (d.read path).isFile
  (Command.ofArguments firstIsFile args).execute ⟨false, fuel, d.read⟩

end FeatherScript
