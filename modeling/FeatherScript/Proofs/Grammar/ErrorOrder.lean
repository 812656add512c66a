import FeatherScript.Proofs.Grammar.Marks
import FeatherScript.Proofs.Grammar.Outcomes

/-!
# The order of syntax errors

A statement fails at the token at hand, and its error is recorded by the loop that it stands in.
Recovery then goes on behind that token, so no token is blamed twice. There are two exceptions. A
closing brace is left to the block that it closes, which consumes it next. The end of the source is
never consumed: there a block is not closed and fails too, so that its error is recorded by the loop
around it, and so on from block to block.

* `unclosed`: the number of opening braces without a closing one.
* `Reading`, `Failed`, `Paused`: the errors recorded so far, while a statement is read inside of
  some blocks, when it has failed, and between the statements of a loop.
* `Failed.recover`, `Paused.close`: recovery, and the end of a block.
* `statement_orderly`, `topStatements_ended`: every reading of statements.
* `errors_ordered`: the theorem.
-/

namespace FeatherScript

namespace Grammar

/-! ## Open braces -/

/-- The number of open braces after a token. -/
def nest (depth : Nat) (token : Token) : Nat :=
  match token.kind with
  | .symbol .leftBrace => depth + 1
  | .symbol .rightBrace => depth - 1
  | _ => depth

/-- The number of opening braces that no closing brace belongs to. -/
def unclosed (tokens : List Token) : Nat := tokens.foldl nest 0

theorem unclosed_snoc (tokens : List Token) (token : Token) :
    unclosed (tokens ++ [token]) = nest (unclosed tokens) token := by
  rw [unclosed, List.foldl_append, List.foldl_cons, List.foldl_nil, unclosed]

theorem le_nest {token : Token} (hKind : token.kind ≠ .symbol .rightBrace) (depth : Nat) :
    depth ≤ nest depth token := by
  unfold nest
  split
  · exact Nat.le_succ depth
  · next hClose => exact absurd hClose hKind
  · exact Nat.le_refl depth

/-- Without closing braces no block is closed. -/
theorem unclosed_le_append {seen more : List Token}
    (hMore : ∀ token ∈ more, token.kind ≠ .symbol .rightBrace) :
    unclosed seen ≤ unclosed (seen ++ more) := by
  induction more generalizing seen with
  | nil => rw [List.append_nil]
  | cons token more ih =>
    have hToken := le_nest (hMore token List.mem_cons_self) (unclosed seen)
    have hRest : unclosed (seen ++ [token]) ≤ unclosed (seen ++ [token] ++ more) :=
      ih fun x hMem => hMore x (List.mem_cons_of_mem _ hMem)
    rw [unclosed_snoc, List.append_assoc, List.singleton_append] at hRest
    exact Nat.le_trans hToken hRest

/-! ## Recorded errors -/

/-- Positions one after the other, all of them before `p`. -/
structure Ascend (ps : List Nat) (p : Nat) : Prop where
  increasing : ps.Pairwise (· < ·)
  below : ∀ q ∈ ps, q < p

theorem Ascend.mono {ps : List Nat} {p q : Nat} (h : Ascend ps p) (hLe : p ≤ q) : Ascend ps q :=
  ⟨h.increasing, fun r hMem => Nat.lt_of_lt_of_le (h.below r hMem) hLe⟩

theorem Ascend.snoc {ps : List Nat} {p q : Nat} (h : Ascend ps p) (hLess : p < q) :
    Ascend (ps ++ [p]) q := by
  refine ⟨List.pairwise_append.mpr ⟨h.increasing, List.pairwise_singleton _ _, ?_⟩, ?_⟩
  · intro r hMem p' hLast
    obtain rfl := List.mem_singleton.mp hLast
    exact h.below r hMem
  · intro r hMem
    rcases List.mem_append.mp hMem with hBefore | hLast
    · exact Nat.lt_trans (h.below r hBefore) hLess
    · obtain rfl := List.mem_singleton.mp hLast
      exact hLess

/-- The positions that recorded errors blame. -/
def blames (errors : Array ParseError) : List Nat := errors.toList.map ParseError.mark

theorem blames_push (errors : Array ParseError) (e : ParseError) :
    blames (errors.push e) = blames errors ++ [e.mark] := by
  simp [blames]

/-- Reading inside of `b` blocks: the errors so far blame tokens before the cursor. -/
structure ReadingAt (tokens seen : List Token) (b : Nat) (s : State) : Prop where
  stands : Stands tokens seen s
  depth : b ≤ unclosed seen
  ascend : Ascend (blames s.errors) seen.length

def Reading (tokens : List Token) (b : Nat) (s : State) : Prop := ∃ seen, ReadingAt tokens seen b s

/-- The end of the source, inside of `b` blocks. After errors about tokens before it there may be
one for a statement that is cut off, and one for each of `d` blocks more that are not closed. -/
structure EndedAt (tokens seen : List Token) (early cut : List ParseError) (d b : Nat) (s : State) :
    Prop where
  stands : Stands tokens seen s
  atEnd : s.AtEnd
  errors : s.errors.toList = early ++ cut ++ List.replicate d ⟨.closeBrace, s.current⟩
  early : Ascend (early.map ParseError.mark) seen.length
  once : cut.length ≤ 1
  cut : ∀ e ∈ cut, e.found = s.current
  depth : b + d ≤ unclosed seen

def Ended (tokens : List Token) (b : Nat) (s : State) : Prop :=
  ∃ seen early cut d, EndedAt tokens seen early cut d b s

/-- A reading inside of `b` blocks failed: at the token at hand, or for want of the closing brace of
one block more. -/
inductive Failed (tokens : List Token) (b : Nat) (e : ParseError) (s : State) : Prop
  | raised (hReading : Reading tokens b s) (hFound : e.found = s.current)
  | unclosed (hEnded : Ended tokens (b + 1) s) (hError : e = ⟨.closeBrace, s.current⟩)

/-- Between the statements of a block, inside of `b` blocks with it. The closing brace at hand may
have been blamed already. -/
inductive Paused (tokens : List Token) (b : Nat) (s : State) : Prop
  | clear (hReading : Reading tokens b s)
  | blamed {seen t e} (hReading : ReadingAt tokens seen b t) (hClose : t.kind = .symbol .rightBrace)
      (hFound : e.found = t.current) (hRest : s.rest = t.rest)
      (hErrors : s.errors = t.errors.push e)
  | ended (hEnded : Ended tokens b s)

variable {tokens : List Token} {b : Nat} {s t : State}

/-! ## Steps -/

theorem ReadingAt.congr {seen : List Token} (h : ReadingAt tokens seen b s)
    (hRest : t.rest = s.rest) (hErrors : t.errors = s.errors) : ReadingAt tokens seen b t :=
  ⟨h.stands.congr hRest, h.depth, hErrors ▸ h.ascend⟩

/-- Consuming tokens without a closing brace closes no block. -/
theorem ReadingAt.consume {seen word : List Token} (h : ReadingAt tokens seen b s)
    (hWord : s.Consumes word t) (hClose : ∀ token ∈ word, token.kind ≠ .symbol .rightBrace) :
    ∃ more, more.length = word.length ∧ Stands tokens (seen ++ more) t ∧
      b ≤ unclosed (seen ++ more) := by
  obtain ⟨more, hKinds, hStands⟩ := h.stands.consume hWord
  have hMore : ∀ token ∈ more, token.kind ≠ .symbol .rightBrace := by
    intro token hMem
    have hKind : token.kind ∈ word.map Token.kind := hKinds ▸ List.mem_map_of_mem hMem
    obtain ⟨x, hx, hSame⟩ := List.mem_map.mp hKind
    exact hSame ▸ hClose x hx
  have hLength : more.length = word.length := by
    rw [← List.length_map (f := Token.kind), hKinds, List.length_map]
  exact ⟨more, hLength, hStands, Nat.le_trans h.depth (unclosed_le_append hMore)⟩

theorem State.Takes.consumes {kind : TokenKind} {span : Span} (h : s.Takes kind span t)
    (hMore : kind ≠ .endOfFile) : s.Consumes [⟨kind, span⟩] t := by
  refine ⟨h.place.1, fun token hMem => ?_⟩
  obtain rfl := List.mem_singleton.mp hMem
  exact hMore

/-- The cursor moves behind the token that is taken. -/
theorem ReadingAt.take {seen : List Token} {kind : TokenKind} {span : Span}
    (h : ReadingAt tokens seen b s) (hMore : kind ≠ .endOfFile) (hTakes : s.Takes kind span t) :
    ∃ x, x.kind = kind ∧ Stands tokens (seen ++ [x]) t ∧
      Ascend (blames t.errors) (seen ++ [x]).length := by
  obtain ⟨more, hKinds, hStands⟩ := h.stands.consume (hTakes.consumes hMore)
  obtain ⟨x, rfl⟩ : ∃ x, more = [x] := List.length_eq_one_iff.mp (by
    simpa using congrArg List.length hKinds)
  have hKind : x.kind = kind := by simpa using hKinds
  refine ⟨x, hKind, hStands, hTakes.errors ▸ h.ascend.mono ?_⟩
  rw [List.length_append]
  exact Nat.le_add_right _ _

namespace Reading

theorem congr (h : Reading tokens b s) (hRest : t.rest = s.rest) (hErrors : t.errors = s.errors) :
    Reading tokens b t := h.imp fun _ hAt => hAt.congr hRest hErrors

theorem fail (h : Reading tokens b s) {expected : Expectation} :
    Failed tokens b ⟨expected, s.current⟩ s := .raised h rfl

theorem take {kind : TokenKind} {span : Span} (h : Reading tokens b s) (hMore : kind ≠ .endOfFile)
    (hClose : kind ≠ .symbol .rightBrace) (hTakes : s.Takes kind span t) : Reading tokens b t := by
  obtain ⟨seen, hAt⟩ := h
  obtain ⟨x, rfl, hStands, hAscend⟩ := hAt.take hMore hTakes
  refine ⟨seen ++ [x], hStands, ?_, hAscend⟩
  rw [unclosed_snoc]
  exact Nat.le_trans hAt.depth (le_nest hClose _)

/-- An opening brace opens a block. -/
theorem enter {span : Span} (h : Reading tokens b s)
    (hTakes : s.Takes (.symbol .leftBrace) span t) : Reading tokens (b + 1) t := by
  obtain ⟨seen, hAt⟩ := h
  obtain ⟨x, hKind, hStands, hAscend⟩ := hAt.take (TokenKind.symbol_ne_end _) hTakes
  refine ⟨seen ++ [x], hStands, ?_, hAscend⟩
  have hDepth := hAt.depth
  rw [unclosed_snoc, nest, hKind]
  exact Nat.succ_le_succ hDepth

end Reading

/-! ## Recovery -/

theorem skip_word (ts : List Token) (last : Span) : ∃ word, ts = word ++ (State.skip ts last).1 ∧
    ∀ token ∈ word, token.kind ≠ .endOfFile ∧ token.kind ≠ .symbol .rightBrace := by
  induction ts generalizing last with
  | nil => exact ⟨[], rfl, nofun⟩
  | cons token ts ih =>
    rw [State.skip]
    split
    · exact ⟨[], rfl, nofun⟩
    · next hOpen =>
      obtain ⟨hClose, hMore⟩ := not_or.mp hOpen
      split
      · exact ⟨[token], rfl, fun x hMem => List.mem_singleton.mp hMem ▸ ⟨hMore, hClose⟩⟩
      · obtain ⟨word, hSplit, hWord⟩ := ih token.span
        refine ⟨token :: word, congrArg (List.cons token) hSplit, fun x hMem => ?_⟩
        rcases List.mem_cons.mp hMem with rfl | hMem
        · exact ⟨hMore, hClose⟩
        · exact hWord x hMem

/-- Recovery consumes no closing brace, and some token unless a block or the source ends. -/
theorem recover_consumes (s : State) (e : ParseError) : ∃ word, s.Consumes word (s.recover e) ∧
    (∀ token ∈ word, token.kind ≠ .symbol .rightBrace) ∧ (¬ s.AtClose → word ≠ []) := by
  obtain ⟨word, hSplit, hWord⟩ := skip_word s.rest s.last
  have hConsumes : s.Consumes word (s.recover e) := ⟨hSplit, fun x hMem => (hWord x hMem).1⟩
  exact ⟨word, hConsumes, fun x hMem => (hWord x hMem).2,
    fun hOpen => hConsumes.ne_nil (s.recover_left_lt e hOpen)⟩

theorem current_congr (hRest : t.rest = s.rest) : t.current = s.current :=
  congrArg headToken hRest

/-- Where a reading comes to the end of the source, no error was recorded there yet. -/
theorem Reading.ended (h : Reading tokens b s) (hEnd : s.AtEnd) : Ended tokens b s := by
  obtain ⟨seen, hStands, hDepth, hAscend⟩ := h
  exact ⟨seen, s.errors.toList, [], 0, hStands, hEnd, by simp, hAscend, Nat.zero_le 1, nofun,
    hDepth⟩

/-- An error is about the position of the cursor. -/
theorem ReadingAt.mark_eq {seen : List Token} {e : ParseError} (h : ReadingAt tokens seen b s)
    (hFound : e.found = s.current) : e.mark = seen.length := by
  rw [ParseError.mark, hFound]
  exact h.stands.current_start

/-- A failed statement leaves its loop between two statements. -/
theorem Failed.recover {e : ParseError} (h : Failed tokens b e s) :
    Paused tokens b (s.recover e) := by
  cases h with
  | raised hReading hFound =>
    obtain ⟨seen, hAt⟩ := hReading
    by_cases hClose : s.AtClose
    · have hRest := s.recover_rest_of_atClose e hClose
      rcases hClose with hBrace | hEnd
      · exact .blamed hAt hBrace hFound hRest rfl
      · have hCurrent := current_congr hRest
        refine .ended ⟨seen, s.errors.toList, [e], 0, hAt.stands.congr hRest,
          (State.atEnd_congr hRest).mpr hEnd, ?_, hAt.ascend, Nat.le_refl 1, ?_, hAt.depth⟩
        · exact (Array.toList_push).trans (List.append_nil _).symm
        · intro e' hMem
          obtain rfl := List.mem_singleton.mp hMem
          rw [hFound, hCurrent]
    · obtain ⟨word, hWord, hNoBrace, hSome⟩ := recover_consumes s e
      obtain ⟨more, hLength, hStands, hDepth⟩ := hAt.consume hWord hNoBrace
      have hPos : 0 < more.length := hLength ▸ List.length_pos_iff.mpr (hSome hClose)
      have hLess : seen.length < (seen ++ more).length := by
        rw [List.length_append]
        omega
      refine .clear ⟨seen ++ more, hStands, hDepth, ?_⟩
      have hErrors : blames (s.recover e).errors = blames s.errors ++ [seen.length] := by
        rw [← hAt.mark_eq hFound]
        exact blames_push s.errors e
      rw [hErrors]
      exact hAt.ascend.snoc hLess
  | unclosed hEnded hError =>
    -- The block that is not closed is one of those whose errors stand at the end from now on.
    obtain ⟨seen, early, cut, d, hAt⟩ := hEnded
    have hRest := s.recover_rest_of_atClose e (.inr hAt.atEnd)
    have hCurrent := current_congr hRest
    have hDepth := hAt.depth
    refine .ended ⟨seen, early, cut, d + 1, hAt.stands.congr hRest,
      (State.atEnd_congr hRest).mpr hAt.atEnd, ?_, hAt.early, hAt.once, hCurrent ▸ hAt.cut,
      by omega⟩
    have hPushed : (s.recover e).errors.toList = s.errors.toList ++ [e] := Array.toList_push
    rw [hPushed, hAt.errors, hCurrent, hError, List.replicate_succ', List.append_assoc]

/-! ## Between statements -/

namespace Paused

/-- Where a loop goes on, its next statement starts with no token blamed twice. -/
theorem reading (h : Paused tokens b s) (hMore : ¬ s.AtClose) : Reading tokens b s := by
  cases h with
  | clear hReading => exact hReading
  | blamed _ hClose _ hRest _ => exact absurd (.inl ((State.kind_congr hRest).trans hClose)) hMore
  | ended hEnded =>
    obtain ⟨_, _, _, _, hAt⟩ := hEnded
    exact absurd (.inr hAt.atEnd) hMore

theorem ended_of_atEnd (h : Paused tokens b s) (hEnd : s.AtEnd) : Ended tokens b s := by
  cases h with
  | clear hReading => exact hReading.ended hEnd
  | blamed _ hClose _ hRest _ =>
    have hKind : s.kind = .symbol .rightBrace := (State.kind_congr hRest).trans hClose
    cases hKind.symm.trans hEnd
  | ended hEnded => exact hEnded

/-- Consuming the closing brace leaves the block; a brace that was blamed is behind the cursor. -/
theorem leave {span : Span} (h : Paused tokens b s)
    (hTakes : s.Takes (.symbol .rightBrace) span t) : Reading tokens (b - 1) t := by
  have hDepth : ∀ {seen : List Token} {x : Token}, b ≤ unclosed seen →
      x.kind = .symbol .rightBrace → b - 1 ≤ unclosed (seen ++ [x]) := by
    intro seen x hLe hKind
    rw [unclosed_snoc, nest, hKind]
    exact Nat.sub_le_sub_right hLe 1
  cases h with
  | clear hReading =>
    obtain ⟨seen, hAt⟩ := hReading
    obtain ⟨x, hKind, hStands, hAscend⟩ := hAt.take (TokenKind.symbol_ne_end _) hTakes
    exact ⟨seen ++ [x], hStands, hDepth hAt.depth hKind, hAscend⟩
  | @blamed seen u e hAt _ hFound hRest hErrors =>
    have hTakes' : u.Takes (.symbol .rightBrace) span
        { t with table := u.table, errors := u.errors } :=
      ⟨⟨hRest.symm.trans hTakes.place.1, hTakes.place.2⟩, rfl, rfl⟩
    obtain ⟨x, hKind, hStands, -⟩ := hAt.take (TokenKind.symbol_ne_end _) hTakes'
    refine ⟨seen ++ [x], hStands.congr rfl, hDepth hAt.depth hKind, ?_⟩
    rw [hTakes.errors, hErrors, blames_push, hAt.mark_eq hFound]
    refine hAt.ascend.snoc ?_
    rw [List.length_append]
    exact Nat.lt_succ_self seen.length
  | ended hEnded =>
    obtain ⟨_, _, _, _, hAt⟩ := hEnded
    cases hTakes.kind_eq.symm.trans hAt.atEnd

end Paused

/-! ## Readings -/

open Reply State

/-- A reading inside of `b` blocks goes on inside of them, or fails there. -/
abbrev Reply.Orderly {α : Type} {strict : Bool} (tokens : List Token) (b : Nat)
    (r : Reply strict s α) : Prop :=
  r.Leaves (fun _ => Reading tokens b) (Failed tokens b)

section

variable {α β : Type} {strict inner : Bool}

namespace Reading

theorem takeOr (h : Reading tokens b s) {read : TokenKind → Option α}
    {otherwise : Reply strict s β}
    {next : α → Span → (u : State) → u.left < s.left → Reply inner u β}
    (hRead : read (.symbol .rightBrace) = none) (hOtherwise : otherwise.Orderly tokens b)
    (hNext : ∀ a span u hLeft, Reading tokens b u → (next a span u hLeft).Orderly tokens b) :
    (s.takeOr read otherwise next).Orderly tokens b := by
  refine leaves_takeOr hOtherwise fun a kind span u hLeft hMore hTakes hSome => ?_
  refine hNext a span u hLeft (h.take hMore ?_ hTakes)
  rintro rfl
  cases hRead.symm.trans hSome

theorem eatOr (h : Reading tokens b s) {sign : Symbol} {otherwise : Reply strict s β}
    {next : Span → (u : State) → u.left < s.left → Reply inner u β} (hSign : sign ≠ .rightBrace)
    (hOtherwise : otherwise.Orderly tokens b)
    (hNext : ∀ span u hLeft, Reading tokens b u → (next span u hLeft).Orderly tokens b) :
    (s.eatOr sign otherwise next).Orderly tokens b :=
  h.takeOr (if_neg fun hSame => hSign (TokenKind.symbol.inj hSame).symm) hOtherwise
    fun _ span u hLeft => hNext span u hLeft

theorem advance (h : Reading tokens b s) (hKind : s.kind ≠ .symbol .rightBrace)
    {expected : Expectation} : (s.advance expected).Orderly tokens b := by
  refine leaves_takeOr (leaves_fail h.fail) fun _ kind span u _ hMore hTakes _ => ?_
  exact leaves_done (h.take hMore (hTakes.kind_eq ▸ hKind) hTakes)

theorem expect (h : Reading tokens b s) {sign : Symbol} (hSign : sign ≠ .rightBrace)
    {expected : Expectation} : (s.expect sign expected).Orderly tokens b :=
  h.eatOr hSign (leaves_fail h.fail) fun _ _ _ hAfter => leaves_done hAfter

theorem expectName (h : Reading tokens b s) : s.expectName.Orderly tokens b :=
  h.takeOr rfl (leaves_fail h.fail) fun _ _ _ _ hAfter => leaves_done hAfter

theorem optionalName (h : Reading tokens b s) : s.optionalName.Orderly tokens b :=
  h.takeOr rfl (leaves_done h) fun _ _ _ _ hAfter => leaves_done hAfter

theorem build (h : Reading tokens b s) {f : NodeTable → α × NodeTable}
    {hGrows : ∀ t : NodeTable, t.Grows (f t).2} : (s.build f hGrows).Orderly tokens b :=
  leaves_build (h.congr rfl rfl)

end Reading

/-- A symbol that is not at hand is asked for in vain. -/
theorem leaves_expect_of_ne {sign : Symbol} {expected : Expectation} {P : Span → State → Prop}
    {F : ParseError → State → Prop} (hKind : s.kind ≠ .symbol sign)
    (h : F ⟨expected, s.current⟩ s) : (s.expect sign expected).Leaves P F :=
  leaves_eatOr (leaves_fail h) fun _ _ _ hTakes => absurd hTakes.kind_eq hKind

/-- A block ends with its closing brace, or fails at the end of the source. -/
theorem Paused.close (h : Paused tokens (b + 1) s) (hClose : s.AtClose) :
    (s.expect .rightBrace .closeBrace).Orderly tokens b := by
  by_cases hKind : s.kind = .symbol .rightBrace
  · obtain ⟨span, t, hTakes⟩ := exists_takes (hKind ▸ TokenKind.symbol_ne_end .rightBrace)
    rw [hKind] at hTakes
    obtain ⟨hResult, hState, -⟩ : (s.expect .rightBrace .closeBrace).Reads span t :=
      reads_expect.mpr hTakes
    exact ⟨fun _ => hState ▸ h.leave hTakes, fun hError => nomatch hResult.symm.trans hError⟩
  · have hEnd : s.AtEnd := hClose.resolve_left hKind
    exact leaves_expect_of_ne hKind (.unclosed (h.ended_of_atEnd hEnd) rfl)

end

/-! ## Blocks -/

variable {bound : List Token} {below : Below bound}

/-- The nested expressions and statements are read in order. -/
structure Below.Orderly (tokens : List Token) (below : Below bound) : Prop where
  expression : ∀ {b s} hBound, Reading tokens b s → (below.expression s hBound).Orderly tokens b
  statement : ∀ {b s} hBound, Reading tokens b s → (below.statement s hBound).Orderly tokens b

/-- The loop of a block stops between two statements. -/
theorem statements_paused {F : ParseError → State → Prop} (hBelow : below.Orderly tokens)
    {s : State} {hBound : s.left < bound.length} (h : Paused tokens b s) :
    (statements below s hBound).Leaves (fun _ t => Paused tokens b t ∧ t.AtClose) F := by
  rw [statements]
  split
  · next hClose => exact leaves_done ⟨h, hClose⟩
  · next hMore =>
    have hStatement : (statementOrSkip below s hBound hMore).Leaves
        (fun _ => Paused tokens b) F :=
      (hBelow.statement hBound (h.reading hMore)).orRecover (fun _ _ => .clear)
        fun _ _ => Failed.recover
    refine (hStatement.andThen fun found t hLess hPaused => ?_).relax
    exact (statements_paused hBelow hPaused).bind fun _ _ _ hAfter => leaves_done hAfter
termination_by s.left

theorem block_orderly (hBelow : below.Orderly tokens) {hBound : s.left < bound.length}
    (h : Reading tokens b s) : (block below s hBound).Orderly tokens b := by
  refine leaves_eatOr (hBelow.statement hBound h) fun opening s₁ _ hOpen => ?_
  refine (statements_paused hBelow (.clear (h.enter hOpen))).bind fun ids s₂ _ hLoop => ?_
  exact (hLoop.1.close hLoop.2).andThen fun closing s₃ _ hAfter => hAfter.build

/-! ## Expressions -/

theorem paramNames_orderly {s : State} (h : Reading tokens b s) :
    (paramNames s).Orderly tokens b := by
  rw [paramNames]
  refine h.expectName.andThen fun name t hLess ht => ?_
  refine ht.eatOr (by decide) (leaves_done ht) fun _ u hLess' hu => ?_
  exact (paramNames_orderly hu).andThen fun _ _ _ hAfter => leaves_done hAfter
termination_by s.left

theorem params_orderly (h : Reading tokens b s) : (params s).Orderly tokens b := by
  rw [params]
  split
  · exact leaves_done h
  · exact (paramNames_orderly h).relax

theorem function_orderly (hBelow : below.Orderly tokens) {hBound : s.left ≤ bound.length}
    (hKind : s.kind ≠ .symbol .rightBrace) (h : Reading tokens b s) :
    (function below s hBound).Orderly tokens b := by
  refine (h.advance hKind).andThen fun start s₁ _ h₁ => ?_
  refine h₁.optionalName.bind fun name s₂ _ h₂ => ?_
  refine (h₂.expect (by decide)).andThen fun _ s₃ _ h₃ => ?_
  refine (params_orderly h₃).bind fun names s₄ _ h₄ => ?_
  refine (h₄.expect (by decide)).andThen fun _ s₅ _ h₅ => ?_
  exact (block_orderly hBelow h₅).andThen fun body s₆ _ h₆ => h₆.build

theorem leaf_orderly {form : Form} (hKind : s.kind ≠ .symbol .rightBrace)
    (h : Reading tokens b s) : (leaf s form).Orderly tokens b :=
  (h.advance hKind).andThen fun _ _ _ h₁ => h₁.build

theorem primary_orderly (hBelow : below.Orderly tokens) {hBound : s.left ≤ bound.length}
    (h : Reading tokens b s) : (primary below s hBound).Orderly tokens b := by
  unfold primary
  split
  · next hKind => exact leaf_orderly (by simp [hKind]) h
  · next hKind => exact leaf_orderly (by simp [hKind]) h
  · next hKind => exact leaf_orderly (by simp [hKind]) h
  · next hKind => exact function_orderly hBelow (by simp [hKind]) h
  · next hKind =>
    refine (h.advance (by simp [hKind])).andThen fun _ s₁ _ h₁ => ?_
    refine (hBelow.expression _ h₁).andThen fun inner s₂ _ h₂ => ?_
    exact (h₂.expect (by decide)).andThen fun _ _ _ h₃ => leaves_done h₃
  · next hKind => exact leaf_orderly (by simp [hKind]) h
  · next hKind => exact leaf_orderly (by simp [hKind]) h
  · exact leaves_fail h.fail

theorem argumentIds_orderly (hBelow : below.Orderly tokens) {s : State}
    {hBound : s.left < bound.length} (h : Reading tokens b s) :
    (argumentIds below s hBound).Orderly tokens b := by
  rw [argumentIds]
  refine (hBelow.expression hBound h).andThen fun id t hLess ht => ?_
  refine ht.eatOr (by decide) (leaves_done ht) fun _ u hLess' hu => ?_
  exact (argumentIds_orderly hBelow hu).andThen fun _ _ _ hAfter => leaves_done hAfter
termination_by s.left

theorem arguments_orderly (hBelow : below.Orderly tokens) {hBound : s.left < bound.length}
    (h : Reading tokens b s) : (arguments below s hBound).Orderly tokens b := by
  rw [arguments]
  split
  · exact leaves_done h
  · exact (argumentIds_orderly hBelow h).relax

theorem callSuffixes_orderly (hBelow : below.Orderly tokens) {s : State}
    {hBound : s.left ≤ bound.length} {callee : NodeId} (h : Reading tokens b s) :
    (callSuffixes below callee s hBound).Orderly tokens b := by
  rw [callSuffixes]
  refine h.eatOr (by decide) (leaves_done h) fun _ s₁ hLess h₁ => ?_
  refine (arguments_orderly hBelow h₁).bind fun args s₂ hLeft h₂ => ?_
  refine (h₂.expect (by decide)).andThen fun close s₃ hLess' h₃ => ?_
  exact h₃.build.bind fun call s₄ hLeft' h₄ => callSuffixes_orderly hBelow h₄
termination_by s.left

theorem postfixExpr_orderly (hBelow : below.Orderly tokens) {hBound : s.left ≤ bound.length}
    (h : Reading tokens b s) : (postfixExpr below s hBound).Orderly tokens b :=
  (primary_orderly hBelow h).andThen fun _ _ _ h₁ => callSuffixes_orderly hBelow h₁

/-- A way of reading operands that reads them in order. -/
def OperandOrderly (tokens : List Token)
    (operand : (s : State) → s.left ≤ bound.length → Reply true s NodeId) : Prop :=
  ∀ b s hBound, Reading tokens b s → (operand s hBound).Orderly tokens b

variable {read : TokenKind → Option Operator}
  {operand : (s : State) → s.left ≤ bound.length → Reply true s NodeId}

theorem operations_orderly (hRead : read (.symbol .rightBrace) = none)
    (hOperand : OperandOrderly tokens operand) {s : State} {hBound : s.left ≤ bound.length}
    {left : NodeId} (h : Reading tokens b s) :
    (operations read operand left s hBound).Orderly tokens b := by
  rw [operations]
  refine h.takeOr hRead (leaves_done h) fun op _ s₁ hLess h₁ => ?_
  refine (hOperand b s₁ _ h₁).andThen fun right s₂ hLess' h₂ => ?_
  exact h₂.build.bind fun whole s₃ hLeft h₃ => operations_orderly hRead hOperand h₃
termination_by s.left

theorem binaryLevel_orderly (hRead : read (.symbol .rightBrace) = none)
    (hOperand : OperandOrderly tokens operand) :
    OperandOrderly tokens (binaryLevel read operand) :=
  fun b s hBound h => (hOperand b s hBound h).andThen fun _ _ _ h₁ =>
    operations_orderly hRead hOperand h₁

theorem comparison_orderly (hBelow : below.Orderly tokens) :
    OperandOrderly tokens (comparison below) := by
  have hPostfix : OperandOrderly tokens (postfixExpr below) :=
    fun _ _ _ => postfixExpr_orderly hBelow
  have hMultiplicative : OperandOrderly tokens (multiplicative below) :=
    binaryLevel_orderly rfl hPostfix
  have hAdditive : OperandOrderly tokens (additive below) :=
    binaryLevel_orderly rfl hMultiplicative
  have hRead : comparisonOf? (.symbol .rightBrace) = none := rfl
  exact binaryLevel_orderly hRead hAdditive

theorem declaration_orderly (hBelow : below.Orderly tokens) {hBound : s.left ≤ bound.length}
    (hKind : s.kind ≠ .symbol .rightBrace) (h : Reading tokens b s) :
    (declaration below s hBound).Orderly tokens b := by
  refine (h.advance hKind).andThen fun start s₁ _ h₁ => ?_
  refine h₁.expectName.andThen fun name s₂ _ h₂ => ?_
  refine (h₂.expect (by decide)).andThen fun _ s₃ _ h₃ => ?_
  exact (hBelow.expression _ h₃).andThen fun value s₄ _ h₄ => h₄.build

theorem assignment_orderly (hBelow : below.Orderly tokens) {hBound : s.left ≤ bound.length}
    {name : Name} (hKind : s.kind ≠ .symbol .rightBrace) (h : Reading tokens b s) :
    (assignment below name s hBound).Orderly tokens b := by
  refine (h.advance hKind).andThen fun start s₁ _ h₁ => ?_
  refine (h₁.expect (by decide)).andThen fun _ s₂ _ h₂ => ?_
  exact (hBelow.expression _ h₂).andThen fun value s₃ _ h₃ => h₃.build

theorem expressionWith_orderly (hBelow : below.Orderly tokens) {hBound : s.left ≤ bound.length}
    (h : Reading tokens b s) : (expressionWith below s hBound).Orderly tokens b := by
  unfold expressionWith
  split
  · next hKind => exact declaration_orderly hBelow (by simp [hKind]) h
  · next hKind =>
    split
    · exact assignment_orderly hBelow (by simp [hKind]) h
    · exact comparison_orderly hBelow b s hBound h
  · exact comparison_orderly hBelow b s hBound h

/-! ## Statements -/

theorem terminator_orderly (h : Reading tokens b s) : (terminator s).Orderly tokens b := by
  refine h.eatOr (by decide) ?_ fun _ _ _ hAfter => leaves_done hAfter
  split
  · exact leaves_done h
  · exact leaves_fail h.fail

theorem parenthesized_orderly (hBelow : below.Orderly tokens) {hBound : s.left ≤ bound.length}
    (h : Reading tokens b s) : (parenthesized below s hBound).Orderly tokens b := by
  refine (h.expect (by decide)).andThen fun _ s₁ _ h₁ => ?_
  refine (hBelow.expression _ h₁).andThen fun inner s₂ _ h₂ => ?_
  exact (h₂.expect (by decide)).andThen fun _ _ _ h₃ => leaves_done h₃

theorem alternative_orderly (hBelow : below.Orderly tokens) {hBound : s.left < bound.length}
    (h : Reading tokens b s) : (alternative below s hBound).Orderly tokens b := by
  refine h.takeOr rfl (leaves_done h) fun _ _ s₁ _ h₁ => ?_
  exact (block_orderly hBelow h₁).andThen fun _ _ _ h₂ => leaves_done h₂

theorem branch_orderly (hBelow : below.Orderly tokens) {hBound : s.left ≤ bound.length}
    (hKind : s.kind ≠ .symbol .rightBrace) (h : Reading tokens b s) :
    (branch below s hBound).Orderly tokens b := by
  refine (h.advance hKind).andThen fun start s₁ _ h₁ => ?_
  refine (parenthesized_orderly hBelow h₁).andThen fun condition s₂ _ h₂ => ?_
  refine (block_orderly hBelow h₂).andThen fun consequent s₃ _ h₃ => ?_
  exact (alternative_orderly hBelow h₃).bind fun other s₄ _ h₄ => h₄.build

theorem loop_orderly (hBelow : below.Orderly tokens) {hBound : s.left ≤ bound.length}
    (hKind : s.kind ≠ .symbol .rightBrace) (h : Reading tokens b s) :
    (loop below s hBound).Orderly tokens b := by
  refine (h.advance hKind).andThen fun start s₁ _ h₁ => ?_
  refine (parenthesized_orderly hBelow h₁).andThen fun condition s₂ _ h₂ => ?_
  exact (block_orderly hBelow h₂).andThen fun body s₃ _ h₃ => h₃.build

theorem printing_orderly (hBelow : below.Orderly tokens) {hBound : s.left ≤ bound.length}
    (hKind : s.kind ≠ .symbol .rightBrace) (h : Reading tokens b s) :
    (printing below s hBound).Orderly tokens b := by
  refine (h.advance hKind).andThen fun start s₁ _ h₁ => ?_
  refine (parenthesized_orderly hBelow h₁).andThen fun argument s₂ _ h₂ => ?_
  exact (terminator_orderly h₂).bind fun _ s₃ _ h₃ => h₃.build

theorem statementWith_orderly (hBelow : below.Orderly tokens) {hBound : s.left ≤ bound.length}
    (h : Reading tokens b s) : (statementWith below s hBound).Orderly tokens b := by
  unfold statementWith
  split
  · next hKind => exact branch_orderly hBelow (by simp [hKind]) h
  · next hKind => exact loop_orderly hBelow (by simp [hKind]) h
  · next hKind => exact printing_orderly hBelow (by simp [hKind]) h
  · next hKind => exact leaf_orderly (by simp [hKind]) h
  · refine (expressionWith_orderly hBelow h).andThen fun id s₁ _ h₁ => ?_
    exact (terminator_orderly h₁).bind fun _ _ _ h₂ => leaves_done h₂

/-! ## Programs -/

theorem nested_orderly (tokens bound : List Token) : (nested bound).Orderly tokens := by
  induction hLength : bound.length using Nat.strongRecOn generalizing bound with
  | ind n ih =>
    have hRest : ∀ s : State, s.left < bound.length → (nested s.rest).Orderly tokens :=
      fun s hBound => ih s.left (hLength ▸ hBound) s.rest rfl
    constructor
    · intro b s hBound h
      rw [show (nested bound).expression s hBound = expression s from rfl, expression]
      exact expressionWith_orderly (hRest s hBound) h
    · intro b s hBound h
      rw [show (nested bound).statement s hBound = statement s from rfl, statement]
      exact statementWith_orderly (hRest s hBound) h

theorem statement_orderly (h : Reading tokens b s) : (statement s).Orderly tokens b := by
  rw [statement]
  exact statementWith_orderly (nested_orderly tokens s.rest) h

/-- Between the statements of a program, where a brace that closes nothing was consumed. -/
theorem Failed.recoverOutside {e : ParseError} (h : Failed tokens 0 e s) :
    Reading tokens 0 (recoverOutside s e) ∨ Ended tokens 0 (recoverOutside s e) := by
  have hPaused := h.recover
  rw [Grammar.recoverOutside]
  generalize s.recover e = u at hPaused ⊢
  by_cases hKind : u.kind = .symbol .rightBrace
  · obtain ⟨span, t, hTakes⟩ := exists_takes (hKind ▸ TokenKind.symbol_ne_end .rightBrace)
    rw [hKind] at hTakes
    have hReads : (strayBrace u).Reads () t :=
      reads_eatOr.mpr (.inl ⟨span, t, hTakes, hTakes.left_lt, reads_done.mpr ⟨rfl, rfl⟩⟩)
    exact .inl (hReads.state ▸ hPaused.leave hTakes)
  · have hReads : (strayBrace u).Reads () u :=
      reads_eatOr.mpr (.inr ⟨hKind, reads_done.mpr ⟨rfl, rfl⟩⟩)
    rw [hReads.state]
    by_cases hEnd : u.AtEnd
    · exact .inr (hPaused.ended_of_atEnd hEnd)
    · exact .inl (hPaused.reading (not_or.mpr ⟨hKind, hEnd⟩))

/-- Reading the statements of a program comes to the end with the errors in order. -/
theorem topStatements_ended {F : ParseError → State → Prop} {s : State}
    (h : Reading tokens 0 s ∨ Ended tokens 0 s) :
    (topStatements s).Leaves (fun _ => Ended tokens 0) F := by
  rw [topStatements]
  split
  · next hEnd => exact leaves_done (h.elim (fun hReading => hReading.ended hEnd) id)
  · next hMore =>
    have hReading : Reading tokens 0 s := by
      refine h.resolve_right ?_
      rintro ⟨_, _, _, _, hAt⟩
      exact hMore hAt.atEnd
    have hStatement : (topStatement s hMore).Leaves
        (fun _ t => Reading tokens 0 t ∨ Ended tokens 0 t) F :=
      (statement_orderly hReading).orRecover (fun _ _ => .inl) fun _ _ => Failed.recoverOutside
    refine (hStatement.andThen fun found t hLess hNext => ?_).relax
    exact (topStatements_ended hNext).bind fun _ _ _ hAfter => leaves_done hAfter
termination_by s.left

/-! ## The theorem -/

/-- The errors at the end of the source blame its position, and come after those that blame tokens
before it. -/
theorem EndedAt.marks_eq {seen : List Token} {early cut : List ParseError} {d : Nat}
    (h : EndedAt tokens seen early cut d b s) : s.errors.toList.map ParseError.mark =
      early.map ParseError.mark ++ List.replicate (cut.length + d) seen.length := by
  have hEnd : s.current.span.start = seen.length := h.stands.current_start
  have hCut : cut.map ParseError.mark = List.replicate cut.length seen.length := by
    refine List.map_eq_replicate_iff.mpr fun e hMem => ?_
    rw [ParseError.mark, h.cut e hMem, hEnd]
  rw [h.errors, List.map_append, List.map_append, hCut, List.map_replicate, ParseError.mark, hEnd,
    List.append_assoc, List.replicate_append_replicate]

/-- Recovery records one error, whatever the statement is part of. -/
theorem errors_enclosing_recover (w : Enclosing) (s : State) (e : ParseError) :
    (w.recover s e).errors = s.errors.push e := by
  cases w with
  | block => rfl
  | program =>
    have hStray : (strayBrace (s.recover e)).Keeps (·.errors = s.errors.push e) :=
      keeps_eatOr (keptByTokens_errors _) keeps_done fun _ _ _ _ => keeps_done
    exact hStray rfl

/-- The errors of a parse, for all tokens. They hold the tokens at the positions that they blame.
The positions rise strictly up to the end of the source, which may be blamed several times at last:
at most once for a statement that is cut off there, and once for each of some blocks whose closing
brace is missing, of which there are no more than opening braces without a closing one. Every
statement that is skipped, in a program or a block, records one error, and this blames the token at
which the reading of the statement stopped. -/
theorem errors_ordered (tokens : List Token) :
    (parse tokens).errors.map ParseError.found = (blamed tokens).map (tokenAt tokens) ∧
    (∃ (early : List Nat) (cut : List ParseError) (d : Nat),
      early.Pairwise (· < ·) ∧ (∀ p ∈ early, p < (beforeEnd tokens).length) ∧
      blamed tokens = early ++ List.replicate (cut.length + d) (beforeEnd tokens).length ∧
      (parse tokens).errors.drop early.length =
        cut ++ List.replicate d ⟨.closeBrace, tokenAt tokens (beforeEnd tokens).length⟩ ∧
      cut.length ≤ 1 ∧ d ≤ unclosed (beforeEnd tokens)) ∧
    ∀ (w : Enclosing) s t, w.Pass s none t → ∃ e, (statement s).result = .error e ∧
      e.found = (statement s).state.current ∧ t.errors = (statement s).state.errors.push e := by
  refine ⟨?_, ?_, fun w s t hPass => ?_⟩
  · rw [errors_eq_unmark, blamed, List.map_map, List.map_map]
    rfl
  · have hStart : Reading tokens 0 (.initial (marks 0 tokens)) :=
      ⟨[], .initial tokens, Nat.le_refl 0, .nil, nofun⟩
    obtain ⟨⟨ids, hOk⟩, -⟩ := topStatements_ends (.initial (marks 0 tokens))
    obtain ⟨seen, early, cut, d, hAt⟩ : Ended tokens 0 _ :=
      (topStatements_ended (F := fun _ _ => True) (.inl hStart)).ok hOk
    obtain rfl := hAt.stands.seen_of_atEnd hAt.atEnd
    have hErrors : (parse (marks 0 tokens)).errors = _ := hAt.errors
    refine ⟨early.map ParseError.mark, cut.map (unmark tokens), d, hAt.early.increasing,
      hAt.early.below, ?_, ?_, ?_, ?_⟩
    · rw [List.length_map]
      exact hAt.marks_eq
    · rw [errors_eq_unmark, hErrors, List.append_assoc, List.map_append, List.length_map,
        ← List.length_map (unmark tokens), List.drop_left, List.map_append, List.map_replicate,
        unmark, ParseError.mark, hAt.stands.current_start]
    · rw [List.length_map]
      exact hAt.once
    · exact (Nat.zero_add d).symm ▸ hAt.depth
  · cases hPass with
    | @skipped e _ hError =>
      exact ⟨e, hError, (statement s).faults e hError, errors_enclosing_recover w _ e⟩

/-- The kinds of `while(a){)}` and of `while(a){while(a){`. -/
def openLoops : List TokenKind :=
  let head : List TokenKind :=
    [.keyword .kwWhile, .symbol .leftParen, .ident ⟨1⟩, .symbol .rightParen, .symbol .leftBrace]
  head ++ [.symbol .rightParen, .symbol .rightBrace] ++ head ++ head

-- The two blocks that are not closed blame the end of the source, one after the other.
example : blamed (openLoops.map (Token.mk · .origin)) = [5, 17, 17] := by decide +kernel

end Grammar

end FeatherScript
