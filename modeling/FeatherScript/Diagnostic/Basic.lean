import FeatherScript.Source.Span

/-!
# Diagnostics

A diagnostic says what is wrong with a program: a code from a fixed list, a severity, a message, the
places it concerns and notes. The first digit of a code tells the phase that reports it.

* `ErrorCode.phase` sorts the codes by phase; every code belongs to exactly one.
* `Diagnostic.text` is the form without the source, with byte spans for places.
-/

namespace FeatherScript

/-! ## Codes and severities -/

/-- The phases that find faults in a program. -/
inductive Phase
  | lexing
  | parsing
  | evaluation
deriving DecidableEq

/-- The kinds of fault a diagnostic can report. -/
inductive ErrorCode
  | invalidChar
  | intOutOfRange
  | unterminatedComment
  | unexpectedToken
  | expectedExpression
  | expectedIdentifier
  | conditionNotBoolean
  | operandNotInteger
  | notCallable
  | divisionByZero
  | moduloByZero
  | integerOverflow
  | alreadyDeclared
  | arityMismatch
  | stackOverflow
deriving DecidableEq

namespace ErrorCode

/-- The printed code. -/
def text : ErrorCode → String
  | invalidChar => "E0001"
  | intOutOfRange => "E0002"
  | unterminatedComment => "E0003"
  | unexpectedToken => "E1001"
  | expectedExpression => "E1002"
  | expectedIdentifier => "E1003"
  | conditionNotBoolean => "E6001"
  | operandNotInteger => "E6002"
  | notCallable => "E6003"
  | divisionByZero => "E6010"
  | moduloByZero => "E6011"
  | integerOverflow => "E6012"
  | alreadyDeclared => "E6020"
  | arityMismatch => "E6030"
  | stackOverflow => "E6040"

/-- The phase whose faults the code reports. -/
def phase : ErrorCode → Phase
  | invalidChar | intOutOfRange | unterminatedComment => .lexing
  | unexpectedToken | expectedExpression | expectedIdentifier => .parsing
  | _ => .evaluation

/-- All codes, in the order of their printed forms. -/
def all : List ErrorCode :=
  [invalidChar, intOutOfRange, unterminatedComment, unexpectedToken, expectedExpression,
    expectedIdentifier, conditionNotBoolean, operandNotInteger, notCallable, divisionByZero,
    moduloByZero, integerOverflow, alreadyDeclared, arityMismatch, stackOverflow]

def ofText? (s : String) : Option ErrorCode := all.find? (·.text = s)

end ErrorCode

/-- How grave a diagnostic is. -/
inductive Severity
  | error
  | warning
  | note
deriving DecidableEq

/-- The word that opens a diagnostic. -/
def Severity.text : Severity → String
  | error => "error"
  | warning => "warning"
  | note => "note"

/-! ## Diagnostics -/

/-- A place in the source with a remark; the primary one is where the fault lies. -/
structure Label where
  isPrimary : Bool
  span : Span
  message : String
deriving DecidableEq

/-- The arrow of a primary label, or blanks of the same width. -/
def Label.marker (l : Label) : String := if l.isPrimary then "-->" else "   "

/-- Everything to be said about one fault. -/
structure Diagnostic where
  code : ErrorCode
  severity : Severity
  message : String
  labels : List Label
  notes : List String
deriving DecidableEq

namespace Diagnostic

/-- An error with one primary label and notes. -/
def errorAt (code : ErrorCode) (message : String) (span : Span) (remark : String)
    (notes : List String) : Diagnostic :=
  { code, severity := .error, message, labels := [⟨true, span, remark⟩], notes }

/-- Whether the diagnostic is an error, and not a warning or a note. -/
def isError (d : Diagnostic) : Bool := d.severity = .error

def primarySpan? (d : Diagnostic) : Option Span := (d.labels.find? (·.isPrimary)).map (·.span)

/-- The diagnostic on lines of its own, without a final line feed. -/
def text (d : Diagnostic) : String :=
  s!"{d.severity.text} [{d.code.text}]: {d.message}"
    ++ String.join (d.labels.map fun l => s!"\n  {l.marker} {l.span.text}: {l.message}")
    ++ String.join (d.notes.map fun note => s!"\n  = note: {note}")

end Diagnostic

end FeatherScript
