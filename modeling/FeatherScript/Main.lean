import FeatherScript.Command.Line

/-!
# The executable

Reads the arguments and the file that they name, and writes what the command line says.
-/

namespace FeatherScript

/-- The number of a system error, which some calls give with a minus sign. -/
def systemNumber (number : UInt32) : UInt32 := min number (-number)

/-- Why the system gave no contents. -/
def ReadError.ofSystem (e : IO.Error) : ReadError :=
  match e with
  | .noFileOrDirectory .. => .notFound
  | .permissionDenied .. => .notPermitted
  | .inappropriateType _ number _ =>
    if systemNumber number = 21 then .isDirectory else .notDirectory
  | .invalidArgument _ number _ =>
    if systemNumber number = 36 then .nameTooLong else .other (toString e)
  | _ => .other (toString e)

/-- The contents that a path leads to on disk. -/
def readPath (path : String) : IO Contents := do
  try
    return .ofBytes (← IO.FS.readBinFile path)
  catch e => return .error (.ofSystem e)

/-- Whether reports are drawn in colours: on a terminal, unless the variable `NO_COLOR` is set to
something. -/
def drawsColours : IO Bool := do
  let mode := if ((← IO.getEnv "NO_COLOR").getD "").isEmpty then ColourMode.auto else .never
  return mode.colours (← (← IO.getStderr).isTty)

/-- The levels of nesting that a run may use, more than any machine can nest. -/
def availableFuel : Nat := 1152921504606846976

end FeatherScript

open FeatherScript in
def main (args : List String) : IO UInt32 := do
  let firstIsFile ←
    match args.head? with
    | some path => pure (← readPath path).isFile
    | none => pure false
  let command := Command.ofArguments firstIsFile args
  let contents ←
    match command.path? with
    | some path => readPath path
    | none => pure (.error .notFound)
  match command.execute ⟨← drawsColours, availableFuel, fun _ => contents⟩ with
  | .ok output =>
    (← IO.getStdout).putStr output.stdout
    (← IO.getStderr).putStr output.stderr
    return output.code.toUInt32
  | .error _ => return 1
