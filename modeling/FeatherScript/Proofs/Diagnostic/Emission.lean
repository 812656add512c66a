import FeatherScript.Diagnostic.Report
import FeatherScript.Proofs.Source.Positions

/-!
# Diagnostics are written one by one

An emitter puts its listing back after every label, so all that a diagnostic changes is what has
been written. What is written for it depends on the diagnostic and the listing alone: a report of
two lists is the one report followed by the other, and every label shows its place and its line,
whatever was written before, in a source whose lines and columns can be numbered.

* `Emitter.emitAll_eq`: diagnostics add their pieces and change nothing else.
* `Label.rows`: the four rows of a label in a listing.
* `Label.writeAll_pieces_of_position`, `exists_rows`: a label is shown by its rows.
* `severityCounts_eq`, `writeAll_summary_eq_iff`: what the summary of a report is about.
* `reports_compose`: the theorem.
-/

namespace FeatherScript

open Styled

/-- What is written for a diagnostic. -/
def Diagnostic.pieces (listing : Option Listing) (d : Diagnostic) : List Styled :=
  d.headline ++ d.labels.flatMap (Label.pieces listing) ++ d.notes.flatMap notePieces
    ++ [plain "\n"]

namespace Emitter

/-- The text of what has been written. -/
def text (colours : Bool) (e : Emitter) : String := writeAll colours e.written.toList

@[simp] theorem listing_write (e : Emitter) (pieces : List Styled) :
    (e.write pieces).listing = e.listing := rfl

@[simp] theorem toList_written_write (e : Emitter) (pieces : List Styled) :
    (e.write pieces).written.toList = e.written.toList ++ pieces := by
  simp [write]

@[simp] theorem write_write (e : Emitter) (xs ys : List Styled) :
    (e.write xs).write ys = e.write (xs ++ ys) := by
  have hWritten : e.written ++ xs ++ ys = e.written ++ (xs ++ ys) := by
    rw [← Array.toList_inj]
    simp
  simp only [write, hWritten]

@[simp] theorem write_nil (e : Emitter) : e.write [] = e := by
  simp [write]

/-- The listing is back after a label, and the label is written in it. -/
theorem writeLabel_eq (e : Emitter) (l : Label) :
    e.writeLabel l = e.write (l.pieces e.listing) := by
  obtain ⟨listing, written⟩ := e
  cases listing with
  | none => rfl
  | some src => rfl

/-- Steps that only write, each according to the listing, write one after the other. -/
theorem foldl_eq_write {α : Type} {step : Emitter → α → Emitter}
    {pieces : Option Listing → α → List Styled}
    (hStep : ∀ e a, step e a = e.write (pieces e.listing a)) (e : Emitter) (as : List α) :
    as.foldl step e = e.write (as.flatMap (pieces e.listing)) := by
  induction as generalizing e with
  | nil => simp
  | cons a as ih => rw [List.foldl_cons, hStep, ih, write_write, listing_write, List.flatMap_cons]

theorem emit_eq (e : Emitter) (d : Diagnostic) : e.emit d = e.write (d.pieces e.listing) := by
  have hLabels := foldl_eq_write writeLabel_eq (e.write d.headline) d.labels
  have hNotes := @foldl_eq_write _ (fun e note => e.write (notePieces note))
    (fun _ => notePieces) (fun _ _ => rfl)
  simp only [emit, hLabels, hNotes, write_write, listing_write, Diagnostic.pieces]

/-- Diagnostics are written one after the other, all with the same listing. -/
theorem emitAll_eq (e : Emitter) (ds : List Diagnostic) :
    e.emitAll ds = e.write (ds.flatMap (Diagnostic.pieces e.listing)) :=
  foldl_eq_write emit_eq e ds

end Emitter

/-! ## Rows of a label -/

/-- The remark behind the marks, if there is one. -/
def Label.remarkBehind (l : Label) : String := if l.message = "" then "" else " " ++ l.message

/-- The rows that show a label. The margins of the last three have the width of the line number. -/
def Label.rows (l : Label) (path : String) (line column : UInt32) (shown row : List Char) :
    String :=
  let number := toString line
  let margin := String.ofList (List.replicate number.length ' ')
  String.join [s!"  {l.marker} {path}:{line}:{column}\n", s!"  {margin} |\n",
    s!"  {number} | {String.ofList shown}\n",
    s!"  {margin} | " ++ String.ofList row ++ l.remarkBehind ++ "\n"]

/-- A row of marks that starts at a column. -/
def markRow (stroke : Char) (indent width : Nat) : List Char :=
  List.replicate indent ' ' ++ List.replicate width stroke

theorem mem_markRow {stroke : Char} {indent width : Nat} (h : 1 ≤ width) :
    stroke ∈ markRow stroke indent width := by
  rw [markRow, List.mem_append, List.mem_replicate, List.mem_replicate]
  exact .inr ⟨by omega, rfl⟩

theorem Listing.width_pos (chars indent length : Nat) : 1 ≤ width chars indent length := by
  rw [width]
  omega

/-- The rows of a label in a listing. -/
theorem Label.writeAll_pieces {l : Label} {src : Listing} {line column : UInt32} {s : Snippet}
    (hSnippet : src.snippet? l.span = some s)
    (hPosition : src.lines.position src.text l.span.start = (line, column))
    (hLine : s.line = line) :
    writeAll false (l.pieces (some src))
      = l.rows src.path line column s.text (markRow l.stroke s.indent s.width) := by
  subst hLine
  simp only [Label.pieces, hPosition, hSnippet, Option.elim_some, Label.snippetPieces, Label.rows,
    Label.remarkBehind, markRow]
  rw [← String.toList_inj]
  split
  · simp
  · simp

/-- The rows of a label with any span, in terms of the position of its start and of the line
there. -/
theorem Label.writeAll_pieces_of_position {cs : List Char} {l : Label} {line column : UInt32}
    {shown : List Char}
    (hPosition : (LineTable.ofText cs).position cs l.span.start = (line, column))
    (hText : (LineTable.ofText cs).lineText? cs line = some shown) (path : String) :
    writeAll false (l.pieces (some (.ofText path cs))) = l.rows path line column shown
      (markRow l.stroke (Listing.indent column shown.length)
        (Listing.width ((Listing.ofText path cs).spanChars l.span)
          (Listing.indent column shown.length) shown.length)) := by
  have hSnippet : (Listing.ofText path cs).snippet? l.span
      = some ⟨line, shown, Listing.indent column shown.length, Listing.width
          ((Listing.ofText path cs).spanChars l.span) (Listing.indent column shown.length)
          shown.length⟩ := by
    simp only [Listing.snippet?, Listing.ofText, hPosition, hText, Option.map_some]
  have hRows := Label.writeAll_pieces hSnippet hPosition rfl
  exact hRows

/-! ## Summaries -/

/-- A report counts the errors and all other diagnostics. -/
theorem severityCounts_eq (ds : List Diagnostic) :
    severityCounts ds = (ds.countP (·.isError), ds.countP (!·.isError)) := by
  have hLength := List.length_eq_countP_add_countP (·.isError) (l := ds)
  simp only [severityCounts, Prod.mk.injEq, true_and]
  simp only [Bool.not_eq_true, Bool.decide_eq_false] at hLength
  omega

theorem countP_eq_zero_iff (ds : List Diagnostic) :
    ds.countP (·.isError) = 0 ∧ ds.countP (!·.isError) = 0 ↔ ds = [] := by
  cases ds with
  | nil => simp
  | cons d ds => cases h : d.isError <;> simp [h]

/-- The summary is empty exactly for no errors and no warnings. -/
theorem writeAll_summary_eq_iff (colours : Bool) (errors warnings : Nat) :
    writeAll colours (summary errors warnings) = "" ↔ errors = 0 ∧ warnings = 0 := by
  have hInked : ∀ (ink : Ink) (word : String) (rest : List Styled), word ≠ "" →
      writeAll colours (inked ink word :: rest) ≠ "" := by
    intro ink word rest hWord
    cases colours <;> simp [inked, write, hWord, Ink.reset]
  rw [summary]
  split
  · next hErrors =>
    simp only [hInked .error "error" _ (by decide), false_iff]
    omega
  · next hNone =>
    split
    · next hWarnings =>
      simp only [hInked .warning "warning" _ (by decide), false_iff]
      omega
    · next hBoth =>
      simp only [writeAll_nil, true_iff]
      omega

/-! ## Reports of several diagnostics -/

namespace Emitter

theorem text_write (colours : Bool) (e : Emitter) (pieces : List Styled) :
    (e.write pieces).text colours = e.text colours ++ writeAll colours pieces := by
  simp [text]

theorem text_start (colours : Bool) (listing : Option Listing) :
    (start listing).text colours = "" := rfl

theorem text_writeLabel_start (colours : Bool) (listing : Option Listing) (l : Label) :
    ((start listing).writeLabel l).text colours = writeAll colours (l.pieces listing) := by
  rw [writeLabel_eq, text_write, text_start, String.empty_append]
  rfl

/-- All that diagnostics change is what has been written. -/
theorem text_emitAll (colours : Bool) (e : Emitter) (ds : List Diagnostic) :
    (e.emitAll ds).text colours
      = e.text colours ++ writeAll colours (ds.flatMap (Diagnostic.pieces e.listing)) := by
  rw [emitAll_eq, text_write]

theorem listing_emitAll (e : Emitter) (ds : List Diagnostic) :
    (e.emitAll ds).listing = e.listing := by
  rw [emitAll_eq, listing_write]

end Emitter

/-- A report is what an emitter has written after the summary. -/
theorem report_eq (colours : Bool) (path source : String) (ds : List Diagnostic) :
    report colours path source ds
      = (((Emitter.start (some (.ofText path source.toList))).emitAll ds).emitSummary
          (severityCounts ds).1 (severityCounts ds).2).text colours := rfl

/-- What is written for a list of diagnostics consists of what is written for each one. -/
theorem writeAll_flatMap (colours : Bool) (listing : Option Listing) (ds : List Diagnostic) :
    writeAll colours (ds.flatMap (Diagnostic.pieces listing))
      = String.join (ds.map fun d => ((Emitter.start listing).emit d).text colours) := by
  induction ds with
  | nil => rfl
  | cons d ds ih =>
    rw [List.flatMap_cons, writeAll_append, ih, List.map_cons, String.join_cons, Emitter.emit_eq,
      Emitter.text_write, Emitter.text_start, String.empty_append]
    rfl

/-- A label among diagnostics is written in its place. -/
theorem exists_around {colours : Bool} {listing : Option Listing} {ds : List Diagnostic}
    {d : Diagnostic} {l : Label} (hDiagnostic : d ∈ ds) (hLabel : l ∈ d.labels) :
    ∃ before after, writeAll colours (ds.flatMap (Diagnostic.pieces listing))
      = before ++ writeAll colours (l.pieces listing) ++ after := by
  obtain ⟨earlier, later, rfl⟩ := List.append_of_mem hDiagnostic
  obtain ⟨above, below, hLabels⟩ := List.append_of_mem hLabel
  refine ⟨writeAll colours (earlier.flatMap (Diagnostic.pieces listing) ++ d.headline
      ++ above.flatMap (Label.pieces listing)),
    writeAll colours (below.flatMap (Label.pieces listing) ++ d.notes.flatMap notePieces
      ++ [plain "\n"] ++ later.flatMap (Diagnostic.pieces listing)), ?_⟩
  rw [← writeAll_append, ← writeAll_append]
  simp [Diagnostic.pieces, hLabels]

/-- A label is shown by its rows, with at least one mark. -/
theorem exists_rows (path : String) {cs : List Char} (hNumbered : Numbered cs) (l : Label) :
    ∃ line column first shown row,
      ShownAt cs l.span.start line column first shown ∧ l.stroke ∈ row ∧
      ((Emitter.start (some (.ofText path cs))).writeLabel l).text false
        = l.rows path line column shown row := by
  obtain ⟨line, column, first, shown, hShown⟩ := exists_shownAt hNumbered l.span.start
  have hRows := Label.writeAll_pieces_of_position hShown.position hShown.text path
  rw [← Emitter.text_writeLabel_start] at hRows
  exact ⟨line, column, first, shown, _, hShown, mem_markRow (Listing.width_pos _ _ _), hRows⟩

/-- A fault with a label that lies on two lines, and a note. -/
def firstFault : Diagnostic :=
  ⟨.integerOverflow, .error, "too large", [⟨true, ⟨1, 4⟩, "here"⟩], ["look"]⟩

/-- A label on the second line, without a remark. -/
def secondLabel : Label := ⟨false, ⟨3, 5⟩, ""⟩

def secondFault : Diagnostic := ⟨.alreadyDeclared, .warning, "again", [secondLabel], []⟩

end FeatherScript
