import FeatherScript.Diagnostic.Basic
import FeatherScript.Diagnostic.Snippet
import FeatherScript.Diagnostic.Style

/-!
# Reports for a terminal

A report shows each diagnostic as a headline, its labels, its notes and an empty line, and closes
with a summary. With a listing of the source, a label shows path, line and column, and the marked
line; without one, it shows the byte span.

* `Emitter` writes diagnostics one after the other. It has one listing for all labels, which is away
  while a label is written.
* `summary` counts errors and all others; it is empty when both counts are zero.
* `report` is the text of all diagnostics of a source and their summary, plain or in colours.
-/

namespace FeatherScript

open Styled

def Severity.ink : Severity → Ink
  | error => .error
  | warning => .warning
  | note => .note

/-! ## Labels -/

namespace Label

/-- The ink of a label's mark and remark. -/
def ink (l : Label) : Ink := if l.isPrimary then .error else .secondary

/-- The character that marks are made of. -/
def stroke (l : Label) : Char := if l.isPrimary then '^' else '-'

/-- The rows that show a marked line: an empty row, the line, and the mark with the remark. -/
def snippetPieces (l : Label) (s : Snippet) : List Styled :=
  let number := toString s.line
  let margin := String.ofList (List.replicate number.length ' ')
  let remark := if l.message = "" then [] else [plain " ", inked l.ink l.message]
  [plain s!"  {margin} |\n", plain s!"  {number} | {String.ofList s.text}\n",
    plain (s!"  {margin} | " ++ String.ofList (List.replicate s.indent ' ')),
    inked l.ink (String.ofList (List.replicate s.width l.stroke))]
  ++ remark ++ [plain "\n"]

/-- A label in a listing, or by its byte span where there is none. -/
def pieces (listing : Option Listing) (l : Label) : List Styled :=
  match listing with
  | none => [plain s!"  {l.marker} {l.span.text}: ", inked l.ink l.message, plain "\n"]
  | some src =>
    let (line, column) := src.lines.position src.text l.span.start
    plain s!"  {l.marker} {src.path}:{line}:{column}\n"
      :: ((src.snippet? l.span).elim [] l.snippetPieces)

end Label

/-! ## Headlines, notes and summaries -/

/-- The first line of a diagnostic. -/
def Diagnostic.headline (d : Diagnostic) : List Styled :=
  [inked d.severity.ink d.severity.text, inked .strong s!"[{d.code.text}]",
    plain s!": {d.message}\n"]

/-- A note on a line of its own. -/
def notePieces (note : String) : List Styled :=
  [plain "  = ", inked .strong "note", plain s!": {note}\n"]

/-- The ending of a counted noun. -/
def pluralEnding (count : Nat) : String := if count = 1 then "" else "s"

def warningsEmitted (warnings : Nat) : String :=
  s!"{warnings} warning{pluralEnding warnings} emitted"

def previousErrors (errors : Nat) : String :=
  if errors = 1 then "previous error" else s!"{errors} previous errors"

/-- The closing line for a number of errors and of warnings. -/
def summary (errors warnings : Nat) : List Styled :=
  if 0 < errors then
    let also := if 0 < warnings then s!"; {warningsEmitted warnings}" else ""
    [inked .error "error", plain s!": aborting due to {previousErrors errors}{also}\n"]
  else if 0 < warnings then
    [inked .warning "warning", plain s!": {warningsEmitted warnings}\n"]
  else []

/-! ## Emitters -/

/-- What writes a report: the listing in which labels are shown, if there is one, and everything
written so far. -/
structure Emitter where
  listing : Option Listing
  written : Array Styled

namespace Emitter

/-- An emitter that has written nothing. -/
def start (listing : Option Listing) : Emitter := ⟨listing, #[]⟩

def write (e : Emitter) (pieces : List Styled) : Emitter :=
  { e with written := e.written ++ pieces }

/-- Writes a label. The listing leaves the emitter until the label is written. -/
def writeLabel (e : Emitter) (l : Label) : Emitter :=
  match e.listing with
  | none => e.write (l.pieces none)
  | some src =>
    let away : Emitter := { e with listing := none }
    { away.write (l.pieces (some src)) with listing := some src }

/-- Writes a diagnostic with its labels and notes, closed by an empty line. -/
def emit (e : Emitter) (d : Diagnostic) : Emitter :=
  let labelled := d.labels.foldl writeLabel (e.write d.headline)
  let noted := d.notes.foldl (fun e note => e.write (notePieces note)) labelled
  noted.write [plain "\n"]

def emitAll (e : Emitter) (diagnostics : List Diagnostic) : Emitter := diagnostics.foldl emit e

def emitSummary (e : Emitter) (errors warnings : Nat) : Emitter :=
  e.write (summary errors warnings)

end Emitter

/-! ## Reports -/

/-- All diagnostics in order, followed by a summary of the given counts if there is one. -/
def emission (listing : Option Listing) (diagnostics : List Diagnostic)
    (counts : Option (Nat × Nat)) : List Styled :=
  let emitted := (Emitter.start listing).emitAll diagnostics
  (counts.elim emitted fun c => emitted.emitSummary c.1 c.2).written.toList

/-- The numbers of errors and of all other diagnostics. -/
def severityCounts (diagnostics : List Diagnostic) : Nat × Nat :=
  let errors := diagnostics.countP (·.isError)
  (errors, diagnostics.length - errors)

def report (colours : Bool) (path source : String) (diagnostics : List Diagnostic) : String :=
  writeAll colours
    (emission (some (.ofText path source.toList)) diagnostics (some (severityCounts diagnostics)))

end FeatherScript
