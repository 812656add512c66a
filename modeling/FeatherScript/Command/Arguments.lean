import FeatherScript.Program

/-!
# Arguments of a run

Running a program takes one path and any number of switches, in any order. Arguments are examined
from left to right and the first one that cannot be used is the error; a missing path is noticed
last.

* `RunArguments.read?` reads a list of arguments.
-/

namespace FeatherScript

/-- A path with the options of a run. -/
structure RunArguments where
  path : String
  options : Options
  showResult : Bool
deriving DecidableEq

/-- Why a list of arguments cannot be used. -/
inductive ArgumentError
  | invalidDepth (text : String)
  | unknownOption (argument : String)
  | unexpectedArgument (argument : String)
  | missingFile
deriving DecidableEq

def ArgumentError.message : ArgumentError → String
  | invalidDepth text => s!"invalid value for --max-depth: `{text}`"
  | unknownOption argument => s!"unknown option `{argument}`"
  | unexpectedArgument argument => s!"unexpected argument `{argument}`"
  | missingFile => "missing file argument"

/-! ## Call depths -/

/-- The largest call depth that can be asked for. -/
def largestDepth : Nat := 18446744073709551615

/-- A call depth: decimal digits, perhaps after a plus sign, of a number that is not too large. -/
def readDepth? (text : List Char) : Option Nat :=
  let digits := if text.head? = some '+' then text.tail else text
  if digits ≠ [] ∧ digits.all Char.isDigit then
    let value := decimalValue digits
    if value ≤ largestDepth then some value else none
  else none

/-! ## Reading -/

/-- One argument by itself. -/
inductive Argument
  | strictArity
  | showResult
  | maxDepth (text : List Char)
  | otherOption
  | positional
deriving DecidableEq

def Argument.ofText (text : String) : Argument :=
  if text = "--strict-arity" then strictArity
  else if text = "--show-result" then showResult
  else
    match "--max-depth=".toList.isPrefixOf? text.toList with
    | some depth => maxDepth depth
    | none => if "--".toList.isPrefixOf text.toList then otherOption else positional

namespace RunArguments

/-- What has been read of a list of arguments. -/
structure Progress where
  path : Option String
  options : Options
  showResult : Bool
deriving DecidableEq

/-- Nothing read, all options at their defaults. -/
def Progress.initial : Progress := ⟨none, .default, false⟩

/-- What has been read after one more argument. -/
def Progress.add (p : Progress) (text : String) : Except ArgumentError Progress :=
  match Argument.ofText text with
  | .strictArity => .ok { p with options := { p.options with policy := .strict } }
  | .showResult => .ok { p with showResult := true }
  | .maxDepth depth =>
    match readDepth? depth with
    | some maxDepth => .ok { p with options := { p.options with maxDepth } }
    | none => .error (.invalidDepth (String.ofList depth))
  | .otherOption => .error (.unknownOption text)
  | .positional =>
    if p.path.isSome then .error (.unexpectedArgument text)
    else .ok { p with path := some text }

def read? (args : List String) : Except ArgumentError RunArguments := do
  let p ← args.foldlM Progress.add .initial
  match p.path with
  | some path => return ⟨path, p.options, p.showResult⟩
  | none => .error .missingFile

end RunArguments

end FeatherScript
