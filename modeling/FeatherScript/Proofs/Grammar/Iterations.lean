import FeatherScript.Proofs.Grammar.Keeping
import FeatherScript.Proofs.Grammar.Recognition
import Mathlib.Data.List.ReduceOption

/-!
# The passes of the loops over statements

The statements of a program and those of a block are read by a loop each. A pass of such a loop
reads one statement, or records its error and skips what is left of it. Skipping inside a block
leaves the closing brace, where the loop stops; outside of blocks it takes the brace along. So every
pass consumes a token, and the loops come to where they stop.

* `Enclosing.Pass`, `Enclosing.Passes`: one pass of a loop, and several in a row.
* `State.Consumes`: tokens are consumed, none of them the end of the source.
* `Pass.consumes`, `Passes.consumes`: a pass consumes a token, and passes at least their number.
* `statements_passes`, `topStatements_passes`: a loop is its passes.
* `parse_progresses`: so is the reading of a program, which stops at the first end of the source.
-/

namespace FeatherScript.Grammar

/-! ## Consuming tokens -/

/-- The tokens before the first end of the source. -/
def beforeEnd (tokens : List Token) : List Token := tokens.takeWhile (·.kind ≠ .endOfFile)

/-- The tokens from the first end of the source on. -/
def fromEnd (tokens : List Token) : List Token := tokens.dropWhile (·.kind ≠ .endOfFile)

namespace State

/-- Some tokens are consumed between two states, none of them the end of the source. -/
structure Consumes (s : State) (word : List Token) (t : State) : Prop where
  rest : s.rest = word ++ t.rest
  noEnd : ∀ token ∈ word, token.kind ≠ .endOfFile

variable {s t u : State} {word more : List Token}

namespace Consumes

theorem trans (hFirst : s.Consumes word t) (hSecond : t.Consumes more u) :
    s.Consumes (word ++ more) u := by
  refine ⟨?_, fun token hToken => ?_⟩
  · rw [hFirst.rest, hSecond.rest, List.append_assoc]
  · exact (List.mem_append.mp hToken).elim (hFirst.noEnd token) (hSecond.noEnd token)

theorem left_eq (h : s.Consumes word t) : s.left = word.length + t.left := by
  rw [left, h.rest, List.length_append, left]

theorem beforeEnd_eq (h : s.Consumes word t) :
    beforeEnd s.rest = word ++ beforeEnd t.rest := by
  have hWord : ∀ token ∈ word, decide (token.kind ≠ .endOfFile) := by simpa using h.noEnd
  rw [beforeEnd, h.rest, List.takeWhile_append_of_pos hWord, beforeEnd]

/-- The first end of the source is still ahead. -/
theorem fromEnd_eq (h : s.Consumes word t) : fromEnd s.rest = fromEnd t.rest := by
  have hWord : ∀ token ∈ word, decide (token.kind ≠ .endOfFile) := by simpa using h.noEnd
  rw [fromEnd, h.rest, List.dropWhile_append_of_pos hWord, fromEnd]

theorem ne_nil (h : s.Consumes word t) (hLess : t.left < s.left) : word ≠ [] := by
  rintro rfl
  exact absurd hLess (Nat.not_lt.mpr (Nat.le_of_eq (h.left_eq.trans (Nat.zero_add _))))

end Consumes

theorem Advances.exists_consumes (h : s.Advances t) : ∃ word, s.Consumes word t := by
  obtain ⟨word, hRest, -, hWord⟩ := h.tokens
  exact ⟨word, hRest, hWord⟩

/-- At the end of the source nothing stands before it. -/
theorem rest_of_end (hEnd : s.AtEnd) : beforeEnd s.rest = [] ∧ fromEnd s.rest = s.rest := by
  obtain ⟨rest, last, table, errors⟩ := s
  cases rest with
  | nil => exact ⟨rfl, rfl⟩
  | cons token rest =>
    have hKind : token.kind = .endOfFile := hEnd
    simp [beforeEnd, fromEnd, hKind]

end State

/-! ## Passes -/

/-- What a run of statements is part of. -/
inductive Enclosing
  | program
  | block
deriving DecidableEq

namespace Enclosing

/-- Where the loop over the statements stops. -/
def Stops : Enclosing → State → Prop
  | program => State.AtEnd
  | block => State.AtClose

/-- How the loop goes on after an error. -/
def recover : Enclosing → State → ParseError → State
  | program => recoverOutside
  | block => State.recover

/-- One pass of the loop over statements: a statement is read, or it is skipped with its error. -/
inductive Pass (w : Enclosing) (s : State) : Option NodeId → State → Prop
  | read {id} (hMore : ¬ w.Stops s) (hOk : (statement s).result = .ok id) :
      Pass w s (some id) (statement s).state
  | skipped {e} (hMore : ¬ w.Stops s) (hError : (statement s).result = .error e) :
      Pass w s none (w.recover (statement s).state e)

/-- Passes in a row, with what each of them read. -/
inductive Passes (w : Enclosing) : State → List (Option NodeId) → State → Prop
  | nil {s} : Passes w s [] s
  | cons {s t u found founds} (hFirst : w.Pass s found t) (hMore : w.Passes t founds u) :
      Passes w s (found :: founds) u

variable {w : Enclosing} {s t u : State} {e : ParseError}

theorem advances_recover (w : Enclosing) (s : State) (e : ParseError) :
    (s.record e).Advances (w.recover s e) := by
  cases w with
  | program => exact advances_recoverOutside s e
  | block => exact s.advances_recover e

theorem stops_congr (hRest : t.rest = s.rest) : w.Stops t ↔ w.Stops s := by
  cases w with
  | program => exact State.atEnd_congr hRest
  | block => exact State.atClose_congr hRest

/-- Recovery consumes a token unless the loop stops there. -/
theorem recover_left_lt (hMore : ¬ w.Stops s) : (w.recover s e).left < s.left := by
  cases w with
  | program => exact recoverOutside_left_lt e hMore
  | block => exact s.recover_left_lt e hMore

namespace Pass

variable {found : Option NodeId}

theorem more (h : w.Pass s found t) : ¬ w.Stops s := by
  cases h with
  | read hMore _ => exact hMore
  | skipped hMore _ => exact hMore

theorem advances (h : w.Pass s found t) : s.Advances t := by
  cases h with
  | read => exact (statement s).advances
  | @skipped e =>
    exact (statement s).advances.trans
      (((statement s).state.advances_record e).trans (w.advances_recover _ e))

theorem unique {found' : Option NodeId} {t' : State} (h : w.Pass s found t)
    (h' : w.Pass s found' t') : found' = found ∧ t' = t := by
  cases h with
  | read _ hOk =>
    cases h' with
    | read _ hOk' =>
      cases hOk.symm.trans hOk'
      exact ⟨rfl, rfl⟩
    | skipped _ hError' => cases hOk.symm.trans hError'
  | skipped _ hError =>
    cases h' with
    | read _ hOk' => cases hError.symm.trans hOk'
    | skipped _ hError' =>
      cases hError.symm.trans hError'
      exact ⟨rfl, rfl⟩

/-- A pass leaves fewer tokens. If the statement fails before it consumes one, it fails where the
loop does not stop, and recovery consumes one. -/
theorem left_lt (h : w.Pass s found t) : t.left < s.left := by
  cases h with
  | read _ hOk => exact (statement s).consumes rfl (by rw [hOk]; rfl)
  | @skipped e hMore =>
    have hRecover := ((statement s).state.advances_record e).trans (w.advances_recover _ e)
    rcases Nat.lt_or_eq_of_le (statement s).left_le with hShorter | hSame
    · exact Nat.lt_of_le_of_lt hRecover.left_le hShorter
    · have hRest : (statement s).state.rest = s.rest :=
        (statement s).advances.suffix.eq_of_length hSame
      have hOpen : ¬ w.Stops (statement s).state := mt (stops_congr hRest).mp hMore
      exact Nat.lt_of_lt_of_le (recover_left_lt hOpen) (statement s).left_le

/-- Every pass consumes a token, and never the end of the source. -/
theorem consumes (h : w.Pass s found t) : ∃ word, word ≠ [] ∧ s.Consumes word t := by
  obtain ⟨word, hWord⟩ := h.advances.exists_consumes
  exact ⟨word, hWord.ne_nil h.left_lt, hWord⟩

end Pass

namespace Passes

variable {founds : List (Option NodeId)}

/-- Passes consume at least as many tokens as they are, and never the end of the source. -/
theorem consumes (h : w.Passes s founds t) :
    ∃ word, founds.length ≤ word.length ∧ s.Consumes word t := by
  induction h with
  | nil => exact ⟨[], Nat.le_refl 0, rfl, by simp⟩
  | cons hFirst _ ih =>
    obtain ⟨word, hSome, hWord⟩ := hFirst.consumes
    obtain ⟨more, hLength, hMore⟩ := ih
    have hOne : 0 < word.length := List.length_pos_iff.mpr hSome
    refine ⟨word ++ more, ?_, hWord.trans hMore⟩
    rw [List.length_cons, List.length_append]
    omega

theorem advances (h : w.Passes s founds t) : s.Advances t := by
  induction h with
  | nil => exact .refl _
  | cons hFirst _ ih => exact hFirst.advances.trans ih

theorem append {more : List (Option NodeId)} (h : w.Passes s founds t) (hMore : w.Passes t more u) :
    w.Passes s (founds ++ more) u := by
  induction h with
  | nil => exact hMore
  | cons hFirst _ ih => exact .cons hFirst (ih hMore)

/-- The passes up to where the loop stops are determined by where it starts. -/
theorem unique {founds' : List (Option NodeId)} {t' : State} (h : w.Passes s founds t)
    (hStop : w.Stops t) (h' : w.Passes s founds' t') (hStop' : w.Stops t') :
    founds' = founds ∧ t' = t := by
  induction h generalizing founds' with
  | nil =>
    cases h' with
    | nil => exact ⟨rfl, rfl⟩
    | cons hFirst _ => exact absurd hStop hFirst.more
  | cons hFirst _ ih =>
    cases h' with
    | nil => exact absurd hStop' hFirst.more
    | cons hFirst' hMore' =>
      obtain ⟨rfl, rfl⟩ := hFirst.unique hFirst'
      obtain ⟨rfl, rfl⟩ := ih hStop hMore'
      exact ⟨rfl, rfl⟩

end Passes

end Enclosing

/-! ## The loops -/

open Reply Enclosing

/-- The first part of a loop over statements is a pass. -/
theorem exists_pass (w : Enclosing) {s : State} (hMore : ¬ w.Stops s)
    {hRecover : ∀ (t : State) e, (t.record e).Advances (w.recover t e)}
    {hLess : ∀ (t : State) e, t.rest = s.rest → (w.recover t e).left < t.left} :
    ∃ found t, w.Pass s found t ∧
      ((statement s).orRecover w.recover hRecover hLess).Finds found t := by
  cases hResult : (statement s).result with
  | ok id => exact ⟨some id, _, .read hMore hResult, (orRecover_of_ok hResult).1,
      (orRecover_of_ok hResult).2⟩
  | error e => exact ⟨none, _, .skipped hMore hResult, (orRecover_of_error hResult).1,
      (orRecover_of_error hResult).2⟩

theorem Reply.Finds.andThen {α β : Type} {strict : Bool} {s t u : State} {r : Reply true s α}
    {next : α → (v : State) → v.left < s.left → Reply strict v β} {a : α} {b : β}
    (hFirst : r.Finds a t) (hNext : ∀ hLess, (next a t hLess).Finds b u) :
    (r.andThen next).Finds b u := by
  obtain ⟨hOk, rfl⟩ := hFirst
  obtain ⟨hLess, hResult, hState⟩ : ∃ hLess,
      (r.andThen next).result = (next a r.state hLess).result ∧
        (r.andThen next).state = (next a r.state hLess).state := andThen_of_ok hOk
  exact ⟨hResult.trans (hNext hLess).result, hState.trans (hNext hLess).state⟩

theorem Reply.Finds.bind_done {α β : Type} {s t : State} {r : Reply false s α} {f : α → β} {a : α}
    (h : r.Finds a t) : (r.bind fun a v _ => (done (f a) : Reply false v β)).Finds (f a) t := by
  obtain ⟨hOk, rfl⟩ := h
  have hWhole : (r.bind fun a v _ => (done (f a) : Reply false v β)).result = .ok (f a) ∧
      (r.bind fun a v _ => (done (f a) : Reply false v β)).state = r.state := bind_of_ok hOk
  exact ⟨hWhole.1, hWhole.2⟩

/-- A pass and those after it are what a loop finds. -/
theorem finds_more {s t u : State} {first : Reply true s (Option NodeId)} {found : Option NodeId}
    {founds : List (Option NodeId)}
    {next : (v : State) → v.left < s.left → Reply false v (List NodeId)}
    (hFirst : first.Finds found t) (hNext : ∀ hLess, (next t hLess).Finds founds.reduceOption u) :
    (first.andThen fun found v hLess => (next v hLess).bind fun more _ _ =>
      done (found.toList ++ more)).relax.Finds (found :: founds).reduceOption u := by
  have hWhole : (first.andThen fun found v hLess => (next v hLess).bind fun more _ _ =>
      (done (found.toList ++ more) : Reply false _ _)).Finds
        (found.toList ++ founds.reduceOption) u :=
    hFirst.andThen fun hLess => (hNext hLess).bind_done
  refine ⟨hWhole.result.trans ?_, hWhole.state⟩
  cases found with
  | none => rfl
  | some id => rfl

/-- The statements of a block are those of the passes up to where the block is closed or the source
ends. -/
theorem statements_passes (bound : List Token) (s : State) (hBound : s.left < bound.length) :
    ∃ founds t, Enclosing.block.Passes s founds t ∧ t.AtClose ∧
      (statements (nested bound) s hBound).Finds founds.reduceOption t := by
  rw [statements]
  split
  · next hClose => exact ⟨[], s, .nil, hClose, rfl, rfl⟩
  · next hMore =>
    obtain ⟨found, t, hPass, hFirst⟩ := exists_pass .block hMore
    obtain ⟨founds, u, hPasses, hClose, hFinds⟩ :=
      statements_passes bound t (Nat.lt_trans hPass.left_lt hBound)
    exact ⟨found :: founds, u, .cons hPass hPasses, hClose, finds_more hFirst fun _ => hFinds⟩
termination_by s.left
decreasing_by exact hPass.left_lt

/-- The statements of a program are those of the passes up to the end of the source. -/
theorem topStatements_passes (s : State) :
    ∃ founds t, Enclosing.program.Passes s founds t ∧ t.AtEnd ∧
      (topStatements s).Finds founds.reduceOption t := by
  rw [topStatements]
  split
  · next hEnd => exact ⟨[], s, .nil, hEnd, rfl, rfl⟩
  · next hMore =>
    obtain ⟨found, t, hPass, hFirst⟩ := exists_pass .program hMore
    obtain ⟨founds, u, hPasses, hEnd, hFinds⟩ := topStatements_passes t
    exact ⟨found :: founds, u, .cons hPass hPasses, hEnd, finds_more hFirst fun _ => hFinds⟩
termination_by s.left
decreasing_by exact hPass.left_lt

/-! ## Progress -/

/-- A reading consumes no end of the source, and a token if it succeeds. -/
def Reply.Progresses {α : Type} {strict : Bool} {s : State} (r : Reply strict s α) : Prop :=
  ∃ word, s.Consumes word r.state ∧ (r.result.isOk = true → word ≠ [])

theorem Reply.progresses {α : Type} {s : State} (r : Reply true s α) : r.Progresses := by
  obtain ⟨word, hWord⟩ := r.advances.exists_consumes
  exact ⟨word, hWord, fun hOk => hWord.ne_nil (r.consumes rfl hOk)⟩

/-- The parse that the passes of a program leave. -/
def parsedFrom (founds : List (Option NodeId)) (t : State) : Parsed :=
  { table := (t.table.addRun .origin founds.reduceOption).2
    root := (t.table.addRun .origin founds.reduceOption).1
    errors := t.errors.toList }

/-- A parse is what is left by the passes up to the end of the source. -/
theorem parse_passes (tokens : List Token) : ∃ founds t,
    Enclosing.program.Passes (.initial tokens) founds t ∧ t.AtEnd ∧
      parse tokens = parsedFrom founds t := by
  obtain ⟨founds, t, hPasses, hEnd, hFinds⟩ := topStatements_passes (.initial tokens)
  refine ⟨founds, t, hPasses, hEnd, ?_⟩
  rw [parse, parsedFrom, hFinds.result, hFinds.state]
  rfl

theorem parse_of_passes {tokens : List Token} {founds : List (Option NodeId)} {t : State}
    (hPasses : Enclosing.program.Passes (.initial tokens) founds t) (hEnd : t.AtEnd) :
    parse tokens = parsedFrom founds t := by
  obtain ⟨founds', t', hPasses', hEnd', hParse⟩ := parse_passes tokens
  obtain ⟨rfl, rfl⟩ := hPasses.unique hEnd hPasses' hEnd'
  exact hParse

end FeatherScript.Grammar
