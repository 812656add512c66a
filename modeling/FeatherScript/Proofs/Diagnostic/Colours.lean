import FeatherScript.Proofs.Diagnostic.Emission

/-!
# Colours only add escape sequences

A coloured report is the plain one with escape sequences around the pieces that have ink. If no
text that goes into a report contains an escape character, all escape sequences of the coloured
report are those of inks, and without them the plain report is left.

* `withoutEscapes`: a text without its escape sequences.
* `withoutEscapes_writeAll`: pieces whose texts contain no escape character.
* `Unescaped`, `Diagnostic.Unescaped`: texts and diagnostics without escape characters.
* `colours_add_escapes`: the theorem.
-/

namespace FeatherScript

open Text Styled

/-! ## Escape sequences -/

/-- Whether a character ends an escape sequence: those from the at sign up to the tilde do. -/
def endsSequence (c : Char) : Bool := '@' ≤ c && c ≤ '~'

/-- A text without its escape sequences. A sequence starts with the escape character and an opening
bracket, and goes on up to the first character that ends one; the flag tells whether the text starts
within a sequence. -/
def withoutEscapes : Bool → List Char → List Char
  | _, [] => []
  | true, c :: cs => withoutEscapes (!endsSequence c) cs
  | false, '\x1b' :: '[' :: cs => withoutEscapes true cs
  | false, c :: cs => c :: withoutEscapes false cs

/-- A text without escape characters. -/
def Unescaped (cs : List Char) : Prop := '\x1b' ∉ cs

/-- The text of a piece contains no escape character. -/
def Styled.Unescaped (s : Styled) : Prop := FeatherScript.Unescaped s.text.toList

/-- Without escape characters there is nothing to leave out. -/
theorem withoutEscapes_append {cs : List Char} (h : Unescaped cs) (rest : List Char) :
    withoutEscapes false (cs ++ rest) = cs ++ withoutEscapes false rest := by
  induction cs with
  | nil => rfl
  | cons c cs ih =>
    simp only [Unescaped, List.mem_cons, not_or] at h
    rw [List.cons_append, withoutEscapes]
    · rw [ih h.2, List.cons_append]
    · rintro tail rfl
      exact absurd rfl h.1

theorem withoutEscapes_escape (ink : Ink) (rest : List Char) :
    withoutEscapes false (ink.escape.toList ++ rest) = withoutEscapes false rest := by
  cases ink <;> simp [Ink.escape, withoutEscapes, endsSequence]

theorem withoutEscapes_reset (rest : List Char) :
    withoutEscapes false (Ink.reset.toList ++ rest) = withoutEscapes false rest := by
  simp [Ink.reset, withoutEscapes, endsSequence]

/-- Without its escape sequences, a piece in colours is the plain piece. -/
theorem withoutEscapes_write {s : Styled} (h : s.Unescaped) (rest : List Char) :
    withoutEscapes false ((s.write true).toList ++ rest)
      = (s.write false).toList ++ withoutEscapes false rest := by
  obtain ⟨ink, text⟩ := s
  cases ink with
  | none => exact withoutEscapes_append h rest
  | some ink =>
    change withoutEscapes false ((ink.escape ++ text ++ Ink.reset).toList ++ rest)
      = text.toList ++ withoutEscapes false rest
    rw [String.toList_append, String.toList_append, List.append_assoc, List.append_assoc,
      withoutEscapes_escape, withoutEscapes_append h, withoutEscapes_reset]

theorem withoutEscapes_writeAll {pieces : List Styled}
    (h : ∀ s ∈ pieces, s.Unescaped) :
    withoutEscapes false (writeAll true pieces).toList = (writeAll false pieces).toList := by
  induction pieces with
  | nil => rfl
  | cons s pieces ih =>
    obtain ⟨hFirst, hMore⟩ := List.forall_mem_cons.mp h
    rw [writeAll_cons, writeAll_cons, String.toList_append, String.toList_append,
      withoutEscapes_write hFirst, ih hMore]

/-! ## Texts without escape characters -/

instance (cs : List Char) : Decidable (Unescaped cs) :=
  inferInstanceAs (Decidable ('\x1b' ∉ cs))

@[simp] theorem unescaped_nil : Unescaped [] := List.not_mem_nil

@[simp] theorem unescaped_cons {c : Char} {cs : List Char} :
    Unescaped (c :: cs) ↔ c ≠ '\x1b' ∧ Unescaped cs := by
  simp [Unescaped, eq_comm]

@[simp] theorem unescaped_append {xs ys : List Char} :
    Unescaped (xs ++ ys) ↔ Unescaped xs ∧ Unescaped ys := by
  simp [Unescaped]

@[simp] theorem unescaped_plain {text : String} :
    (plain text).Unescaped ↔ Unescaped text.toList := Iff.rfl

@[simp] theorem unescaped_inked {ink : Ink} {text : String} :
    (inked ink text).Unescaped ↔ Unescaped text.toList := Iff.rfl

@[simp] theorem unescaped_toString {s : String} :
    Unescaped (toString s).toList ↔ Unescaped s.toList := Iff.rfl

/-- The decimal digits of a number. -/
theorem unescaped_natural (n : Nat) : Unescaped (Nat.toDigits 10 n) := by
  intro hMem
  have hDigit := Nat.isDigit_of_mem_toDigits (by decide) (by decide) hMem
  exact absurd hDigit (by decide)

theorem unescaped_word (n : UInt32) : Unescaped (toString n).toList := by
  have hDigits : (toString n).toList = Nat.toDigits 10 n.toNat := Nat.toList_repr
  rw [hDigits]
  exact unescaped_natural n.toNat

theorem unescaped_replicate {c : Char} (h : c ≠ '\x1b') (n : Nat) :
    Unescaped (List.replicate n c) := by
  intro hMem
  exact h (List.eq_of_mem_replicate hMem).symm

/-- The shown text of a line consists of characters of the source. -/
theorem LineTable.mem_of_lineText? {t : LineTable} {cs shown : List Char} {line : UInt32}
    (h : t.lineText? cs line = some shown) {c : Char} (hMem : c ∈ shown) : c ∈ cs := by
  obtain ⟨first, -, h⟩ := Option.bind_eq_some_iff.mp h
  obtain ⟨text, hSlice, rfl⟩ := Option.map_eq_some_iff.mp h
  obtain ⟨before, rest, rfl, -⟩ := slice?_eq_some_iff.mp hSlice
  have hText : c ∈ text :=
    List.mem_reverse.mp ((List.dropWhile_sublist _).mem (List.mem_reverse.mp hMem))
  exact List.mem_append_right before (List.mem_append_left rest hText)

/-- A diagnostic whose messages contain no escape character. -/
structure Diagnostic.Unescaped (d : Diagnostic) : Prop where
  message : FeatherScript.Unescaped d.message.toList
  labels : ∀ l ∈ d.labels, FeatherScript.Unescaped l.message.toList
  notes : ∀ note ∈ d.notes, FeatherScript.Unescaped note.toList

/-- A listing whose path and text contain no escape character. -/
structure Listing.Unescaped (src : Listing) : Prop where
  path : FeatherScript.Unescaped src.path.toList
  text : FeatherScript.Unescaped src.text

/-! ## Pieces of reports -/

theorem Severity.unescaped_text (severity : Severity) : Unescaped severity.text.toList := by
  cases severity <;> decide

theorem ErrorCode.unescaped_text (code : ErrorCode) : Unescaped code.text.toList := by
  cases code <;> decide

theorem unescaped_headline {d : Diagnostic} (h : d.Unescaped) :
    ∀ s ∈ d.headline, s.Unescaped := by
  simp [Diagnostic.headline, h.message, d.severity.unescaped_text, d.code.unescaped_text]

theorem unescaped_notePieces {note : String} (h : Unescaped note.toList) :
    ∀ s ∈ notePieces note, s.Unescaped := by
  simp [notePieces, h]

theorem unescaped_snippetPieces {l : Label} {s : Snippet} (h : Unescaped l.message.toList)
    (hText : Unescaped s.text) : ∀ piece ∈ l.snippetPieces s, piece.Unescaped := by
  have hStroke : l.stroke ≠ '\x1b' := by
    unfold Label.stroke
    split <;> decide
  have hBlank : ' ' ≠ '\x1b' := by decide
  have hRemark : ∀ piece ∈ (if l.message = "" then [] else [plain " ", inked l.ink l.message]),
      piece.Unescaped := by
    split <;> simp [h]
  intro piece hMem
  simp only [Label.snippetPieces, List.mem_append] at hMem
  rcases hMem with (hRows | hMem) | hMem
  · revert piece
    simp [hText, unescaped_word, unescaped_replicate hBlank, unescaped_replicate hStroke]
  · exact hRemark piece hMem
  · obtain rfl := List.mem_singleton.mp hMem
    simp

theorem unescaped_label {listing : Option Listing} {l : Label} (h : Unescaped l.message.toList)
    (hListing : ∀ src ∈ listing, src.Unescaped) :
    ∀ piece ∈ l.pieces listing, piece.Unescaped := by
  have hMarker : Unescaped l.marker.toList := by
    unfold Label.marker
    split <;> decide
  cases listing with
  | none => simp [Label.pieces, Span.text, hMarker, h, unescaped_natural]
  | some src =>
    have hSource := hListing src rfl
    refine List.forall_mem_cons.mpr ⟨?_, ?_⟩
    · simp [hMarker, hSource.path, unescaped_word]
    · intro piece hMem
      cases hSnippet : src.snippet? l.span with
      | none => simp [hSnippet] at hMem
      | some s =>
        rw [hSnippet, Option.elim_some] at hMem
        obtain ⟨shown, hShown, rfl⟩ := Option.map_eq_some_iff.mp hSnippet
        have hText : Unescaped shown := fun hIn =>
          hSource.text (LineTable.mem_of_lineText? hShown hIn)
        exact unescaped_snippetPieces h hText piece hMem

theorem unescaped_pieces {listing : Option Listing} {d : Diagnostic} (h : d.Unescaped)
    (hListing : ∀ src ∈ listing, src.Unescaped) :
    ∀ piece ∈ d.pieces listing, piece.Unescaped := by
  intro piece hMem
  simp only [Diagnostic.pieces, List.mem_append, List.mem_flatMap, List.mem_singleton] at hMem
  rcases hMem with ((hHeadline | ⟨l, hLabel, hMem⟩) | ⟨note, hNote, hMem⟩) | rfl
  · exact unescaped_headline h piece hHeadline
  · exact unescaped_label (h.labels l hLabel) hListing piece hMem
  · exact unescaped_notePieces (h.notes note hNote) piece hMem
  · simp

theorem unescaped_summary (errors warnings : Nat) :
    ∀ piece ∈ summary errors warnings, piece.Unescaped := by
  have hEnding : ∀ n, Unescaped (pluralEnding n).toList := by
    intro n
    unfold pluralEnding
    split <;> decide
  have hWarnings : ∀ n, Unescaped (warningsEmitted n).toList := by
    intro n
    simp [warningsEmitted, unescaped_natural, hEnding]
  have hErrors : Unescaped (previousErrors errors).toList := by
    unfold previousErrors
    split
    · decide
    · simp [unescaped_natural]
  unfold summary
  split
  · split
    · simp [hErrors, hWarnings]
    · simp [hErrors]
  · split
    · simp [hWarnings]
    · simp

/-! ## Reports -/

/-- Colours only add escape sequences. If path, source and messages contain no escape character,
then the escape sequences left out of what an emitter writes in colours, diagnostics and summary,
leave what it writes without colours. -/
theorem colours_add_escapes (source : Option (String × String)) (ds : List Diagnostic)
    (errors warnings : Nat)
    (hSource : ∀ s ∈ source, Unescaped s.1.toList ∧ Unescaped s.2.toList)
    (hDiagnostics : ∀ d ∈ ds, d.Unescaped) :
    let listing := source.map fun s => Listing.ofText s.1 s.2.toList
    let e := ((Emitter.start listing).emitAll ds).emitSummary errors warnings
    withoutEscapes false (e.text true).toList = (e.text false).toList := by
  intro listing e
  have hListing : ∀ src ∈ listing, src.Unescaped := by
    intro src hMem
    obtain ⟨s, hFrom, rfl⟩ := Option.map_eq_some_iff.mp hMem
    exact ⟨(hSource s hFrom).1, (hSource s hFrom).2⟩
  refine withoutEscapes_writeAll ?_
  intro piece hMem
  simp only [e, Emitter.emitSummary, Emitter.emitAll_eq, Emitter.toList_written_write,
    List.mem_append, List.mem_flatMap] at hMem
  rcases hMem with (hNone | ⟨d, hDiagnostic, hMem⟩) | hMem
  · cases hNone
  · exact unescaped_pieces (hDiagnostics d hDiagnostic) hListing piece hMem
  · exact unescaped_summary errors warnings piece hMem

/-- A warning with a remark and a note. -/
def remarkedFault : Diagnostic :=
  ⟨.alreadyDeclared, .warning, "again", [⟨false, ⟨0, 1⟩, "here"⟩], ["look"]⟩

set_option maxRecDepth 1024 in
/-- Severity, code, mark, remark, note and summary are in colours. -/
theorem colours_add_escapes_warning :
    (∀ s ∈ some ("p", "x"), Unescaped s.1.toList ∧ Unescaped s.2.toList) ∧
    (∀ d ∈ [remarkedFault], d.Unescaped) ∧
    let listing := (some ("p", "x")).map fun s => Listing.ofText s.1 s.2.toList
    let e := ((Emitter.start listing).emitAll [remarkedFault]).emitSummary 0 1
    e.text true = "\x1b[1;33mwarning\x1b[0m\x1b[1m[E6020]\x1b[0m: again\n      p:1:1\n    |\n"
      ++ "  1 | x\n    | \x1b[1;34m-\x1b[0m \x1b[1;34mhere\x1b[0m\n  = \x1b[1mnote\x1b[0m: look\n\n"
      ++ "\x1b[1;33mwarning\x1b[0m: 1 warning emitted\n" ∧
    withoutEscapes false (e.text true).toList = (e.text false).toList := by
  have hSource : ∀ s ∈ some ("p", "x"), Unescaped s.1.toList ∧ Unescaped s.2.toList := by
    intro s hMem
    obtain rfl := Option.some.inj hMem
    decide
  have hDiagnostics : ∀ d ∈ [remarkedFault], d.Unescaped := by
    intro d hMem
    obtain rfl := List.mem_singleton.mp hMem
    exact ⟨by decide, by decide, by decide⟩
  exact ⟨hSource, hDiagnostics, by decide +kernel,
    colours_add_escapes (some ("p", "x")) [remarkedFault] 0 1 hSource hDiagnostics⟩

end FeatherScript
