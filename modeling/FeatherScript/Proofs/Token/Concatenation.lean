import FeatherScript.Proofs.Token.Spelling

/-!
# Readings one after the other

What a list of lexemes leaves is read from left to right, and each lexeme only looks at its own text
and at the names so far. So the reading of two lists in a row is one reading behind the other, and
where a reading starts changes nothing but its spans.

* `Lexed.mapSpans`, `Lexed.followedBy`: moving the spans of a reading, and reading on behind it.
* `Lexed.SameBeforeEnd`: readings that differ in the place of the end only.
* `ofLexemes_append`, `ofLexemes_shift`: lists in a row, and lists elsewhere.
-/

namespace FeatherScript

open Text

/-! ## Moving spans -/

/-- The span some bytes further on. -/
def Span.shift (n : Nat) (s : Span) : Span := ⟨n + s.start, n + s.stop⟩

/-- The span some bytes further on if it starts at an offset or behind it. -/
def Span.shiftFrom (p n : Nat) (s : Span) : Span := if p ≤ s.start then s.shift n else s

def Token.mapSpan (f : Span → Span) (t : Token) : Token := ⟨t.kind, f t.span⟩

def LexError.mapSpan (f : Span → Span) : LexError → LexError
  | invalidChar found span => invalidChar found (f span)
  | intOutOfRange literal span => intOutOfRange literal (f span)
  | unterminatedComment span => unterminatedComment (f span)

theorem LexError.mapSpan_mapSpan (f g : Span → Span) (e : LexError) :
    (e.mapSpan f).mapSpan g = e.mapSpan (g ∘ f) := by
  cases e <;> rfl

theorem LexError.mapSpan_eq_self {f : Span → Span} {e : LexError} (h : f e.span = e.span) :
    e.mapSpan f = e := by
  cases e <;> exact congrArg _ h

/-- What was moved behind an offset moves on with all that is there. -/
theorem Span.shiftFrom_comp_shift (p n : Nat) : shiftFrom p n ∘ shift p = shift (n + p) := by
  funext s
  have hBehind : p ≤ (s.shift p).start := Nat.le_add_right p s.start
  rw [Function.comp_apply, shiftFrom, if_pos hBehind, shift, shift, shift, Nat.add_assoc,
    Nat.add_assoc]

theorem Span.shiftFrom_of_lt {p n : Nat} {s : Span} (h : s.start < p) : s.shiftFrom p n = s :=
  if_neg (Nat.not_le_of_lt h)

namespace Lexed

/-- The same tokens and errors at other places. -/
def mapSpans (f : Span → Span) (l : Lexed) : Lexed :=
  { tokens := l.tokens.map (.mapSpan f), errors := l.errors.map (.mapSpan f), names := l.names }

/-- A reading without its end, and another one behind it. -/
def followedBy (l m : Lexed) : Lexed :=
  { tokens := l.tokens.dropLast ++ m.tokens, errors := l.errors ++ m.errors, names := m.names }

/-- Two readings are the same, but for where they end. -/
structure SameBeforeEnd (l m : Lexed) : Prop where
  tokens : l.tokens.dropLast = m.tokens.dropLast
  errors : l.errors = m.errors
  names : l.names = m.names

variable {l m : Lexed} {f g : Span → Span}

theorem SameBeforeEnd.followedBy_eq (h : l.SameBeforeEnd m) (k : Lexed) :
    l.followedBy k = m.followedBy k := by
  rw [followedBy, followedBy, h.tokens, h.errors]

theorem mapSpans_mapSpans (f g : Span → Span) (l : Lexed) :
    (l.mapSpans f).mapSpans g = l.mapSpans (g ∘ f) := by
  have hErrors : LexError.mapSpan g ∘ LexError.mapSpan f = LexError.mapSpan (g ∘ f) :=
    funext fun e => e.mapSpan_mapSpan f g
  rw [mapSpans, mapSpans, mapSpans, List.map_map, List.map_map, hErrors]
  rfl

/-- A change that leaves a first reading alone changes what follows it. -/
theorem mapSpans_followedBy (hTokens : ∀ t ∈ l.tokens.dropLast, f t.span = t.span)
    (hErrors : ∀ e ∈ l.errors, f e.span = e.span) :
    (l.followedBy m).mapSpans f = l.followedBy (m.mapSpans f) := by
  have hTokens' : l.tokens.dropLast.map (.mapSpan f) = l.tokens.dropLast :=
    (List.map_congr_left fun t hMem => congrArg (Token.mk t.kind) (hTokens t hMem)).trans
      (List.map_id _)
  have hErrors' : l.errors.map (.mapSpan f) = l.errors :=
    (List.map_congr_left fun e hMem => LexError.mapSpan_eq_self (hErrors e hMem)).trans
      (List.map_id _)
  rw [mapSpans, followedBy, List.map_append, List.map_append, hTokens', hErrors']
  rfl

end Lexed

/-! ## Lists of lexemes -/

theorem tokens_ofLexemes_ne_nil (start : Nat) (names : NameTable) (ls : List Lexeme) :
    (Lexed.ofLexemes start names ls).tokens ≠ [] := by
  induction ls generalizing start names with
  | nil => nofun
  | cons l ls ih =>
    rw [ofLexemes_cons]
    exact List.append_ne_nil_of_right_ne_nil _ (ih _ _)

/-- Two lists of lexemes in a row are read one after the other. -/
theorem ofLexemes_append (start : Nat) (names : NameTable) (as bs : List Lexeme) :
    Lexed.ofLexemes start names (as ++ bs) = (Lexed.ofLexemes start names as).followedBy
      (.ofLexemes (start + byteLength (as.flatMap Lexeme.text))
        (Lexed.ofLexemes start names as).names bs) := by
  induction as generalizing start names with
  | nil => rfl
  | cons l as ih =>
    have hTokens := tokens_ofLexemes_ne_nil (start + byteLength l.text) (l.read names).2 as
    rw [List.cons_append, ofLexemes_cons, ih, ofLexemes_cons, List.flatMap_cons, byteLength_append,
      ← Nat.add_assoc]
    simp only [Lexed.followedBy, List.dropLast_append_of_ne_nil hTokens, List.append_assoc]

theorem Lexeme.error?_shift (n start : Nat) (l : Lexeme) :
    l.error? (n + start) = (l.error? start).map (.mapSpan (.shift n)) := by
  cases l with
  | digits first more =>
    simp only [error?]
    split
    · simp [LexError.mapSpan, Span.shift, Nat.add_assoc]
    · rfl
  | _ => simp [error?, LexError.mapSpan, Span.shift, Nat.add_assoc]

/-- Lexemes further on are read in the same way. -/
theorem ofLexemes_shift (n start : Nat) (names : NameTable) (ls : List Lexeme) :
    Lexed.ofLexemes (n + start) names ls =
      (Lexed.ofLexemes start names ls).mapSpans (.shift n) := by
  induction ls generalizing start names with
  | nil => rfl
  | cons l ls ih =>
    rw [ofLexemes_cons, ofLexemes_cons, Nat.add_assoc, ih, l.error?_shift]
    cases (l.read names).1 <;> cases l.error? start <;> rfl

theorem start_le_of_mem_errors {start : Nat} {names : NameTable} {ls : List Lexeme} {e : LexError}
    (h : e ∈ (Lexed.ofLexemes start names ls).errors) : start ≤ e.span.start := by
  rw [← Nat.add_zero start, ofLexemes_shift] at h
  obtain ⟨e', -, rfl⟩ := List.mem_map.mp h
  cases e' <;> exact Nat.le_add_right start _

/-- Lexemes are read as some others are, but for where they end. -/
def ReadAs (as bs : List Lexeme) : Prop :=
  ∀ start names, (Lexed.ofLexemes start names as).SameBeforeEnd (.ofLexemes start names bs)

theorem ReadAs.refl (as : List Lexeme) : ReadAs as as := fun _ _ => ⟨rfl, rfl, rfl⟩

theorem ReadAs.trans {as bs cs : List Lexeme} (h : ReadAs as bs) (hMore : ReadAs bs cs) :
    ReadAs as cs :=
  fun start names =>
    have hFirst := h start names
    have hSecond := hMore start names
    ⟨hFirst.tokens.trans hSecond.tokens, hFirst.errors.trans hSecond.errors,
      hFirst.names.trans hSecond.names⟩

theorem ReadAs.cons {as bs : List Lexeme} (h : ReadAs as bs) (l : Lexeme) :
    ReadAs (l :: as) (l :: bs) := by
  intro start names
  obtain ⟨hTokens, hErrors, hNames⟩ := h (start + byteLength l.text) (l.read names).2
  have hMore := tokens_ofLexemes_ne_nil (start + byteLength l.text) (l.read names).2
  rw [ofLexemes_cons, ofLexemes_cons]
  refine ⟨?_, congrArg ((l.error? start).toList ++ ·) hErrors, hNames⟩
  rw [List.dropLast_append_of_ne_nil (hMore as), List.dropLast_append_of_ne_nil (hMore bs), hTokens]

end FeatherScript
