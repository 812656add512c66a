import FeatherScript.Grammar.Program
import FeatherScript.Proofs.Grammar.Derivation

/-!
# Clean readings

A reading is clean when it succeeds and no error was recorded during it, not even one that it
recovered from. `Reply.Reads` says so of a reply, with what was read and the state left behind; a
clean reading is made of clean readings, because errors are never taken back.

* `Reply.reads_andThen`, `Reply.reads_bind`: one reading after another.
* `State.reads_takeOr`, `State.reads_eatOr`: one token, or otherwise.
* `Reply.reads_orRecover`: recovery is never part of a clean reading.
* `Reply.andThen_of_ok`, `Reply.bind_of_ok`, `Reply.orRecover_of_ok` and those of errors: a whole
  reading, clean or not, in terms of its first part.
-/

namespace FeatherScript

/-! ## Tokens of a state -/

namespace TokenKind

theorem int_ne_end (value : Int64) : TokenKind.int value ≠ .endOfFile := by simp

theorem ident_ne_end (name : Name) : TokenKind.ident name ≠ .endOfFile := by simp

theorem keyword_ne_end (word : Keyword) : TokenKind.keyword word ≠ .endOfFile := by simp

theorem symbol_ne_end (sign : Symbol) : TokenKind.symbol sign ≠ .endOfFile := by simp

end TokenKind

namespace Grammar

namespace State

/-- The place a state has come to. -/
def place (s : State) : Place := ⟨s.last, s.rest⟩

/-- The token at hand leads from one state to another; nothing else changes. -/
structure Takes (s : State) (kind : TokenKind) (span : Span) (t : State) : Prop where
  place : Grammar.Takes kind span s.place t.place
  table : t.table = s.table
  errors : t.errors = s.errors

theorem kind_place (s : State) : s.place.kind = s.kind := rfl

theorem Takes.kind_eq {s t : State} {kind : TokenKind} {span : Span}
    (h : s.Takes kind span t) : s.kind = kind := by
  have hRest : s.rest = ⟨kind, span⟩ :: t.rest := h.place.1
  rw [State.kind, current, hRest]
  rfl

/-- A token other than the end of the source can be taken. -/
theorem exists_takes {s : State} (hMore : s.kind ≠ .endOfFile) :
    ∃ span t, s.Takes s.kind span t := by
  obtain ⟨rest, last, table, errors⟩ := s
  cases rest with
  | nil => exact absurd rfl hMore
  | cons token rest =>
    exact ⟨token.span, ⟨rest, token.span, table, errors⟩, ⟨rfl, rfl⟩, rfl, rfl⟩

theorem takes_of_place {s : State} {kind : TokenKind} {span : Span} {q : Place}
    (h : Grammar.Takes kind span s.place q) : ∃ t, s.Takes kind span t ∧ t.place = q :=
  ⟨⟨q.rest, q.last, s.table, s.errors⟩, ⟨h, rfl, rfl⟩, rfl⟩

theorem Takes.left_lt {s t : State} {kind : TokenKind} {span : Span} (h : s.Takes kind span t) :
    t.left < s.left := by
  have hRest : s.rest = ⟨kind, span⟩ :: t.rest := h.place.1
  rw [left, left, hRest]
  exact Nat.lt_succ_self t.rest.length

/-- Taking the token at hand leads to one state only. -/
theorem Takes.unique {s t u : State} {kind kind' : TokenKind} {span span' : Span}
    (h : s.Takes kind span t) (h' : s.Takes kind' span' u) :
    kind = kind' ∧ span = span' ∧ t = u := by
  obtain ⟨⟨hRest, hLast⟩, hTable, hErrors⟩ := h
  obtain ⟨⟨hRest', hLast'⟩, hTable', hErrors'⟩ := h'
  obtain ⟨hToken, hTail⟩ := List.cons.inj (hRest.symm.trans hRest')
  cases hToken
  refine ⟨rfl, rfl, ?_⟩
  obtain ⟨rest, last, table, errors⟩ := t
  obtain ⟨rest', last', table', errors'⟩ := u
  simp_all [State.place]

/-- Along a reading without new errors no part of it recorded one. -/
theorem Advances.errors_eq {s t u : State} (hFirst : s.Advances t) (hSecond : t.Advances u)
    (hErrors : u.errors = s.errors) : t.errors = s.errors := by
  have hFrom := hFirst.errors
  have hTo := hSecond.errors
  rw [hErrors] at hTo
  exact Array.toList_inj.mp (hTo.eq_of_length_le hFrom.length_le)

end State

/-! ## Replies -/

namespace Reply

variable {α β : Type} {s t : State} {strict : Bool}

/-- A reply reads something without an error and leaves a state. -/
structure Reads (r : Reply strict s α) (a : α) (t : State) : Prop where
  result : r.result = .ok a
  state : r.state = t
  errors : t.errors = s.errors

theorem Reads.advances {r : Reply strict s α} {a : α} (h : r.Reads a t) : s.Advances t :=
  h.state ▸ r.advances

theorem reads_done {a b : α} : (done a : Reply false s α).Reads b t ↔ b = a ∧ t = s := by
  constructor
  · rintro ⟨hResult, hState, -⟩
    exact ⟨(Except.ok.inj hResult).symm, hState.symm⟩
  · rintro ⟨rfl, rfl⟩
    exact ⟨rfl, rfl, rfl⟩

theorem not_reads_fail {expected : Expectation} {a : α} :
    ¬ (fail expected : Reply strict s α).Reads a t := fun h => nomatch h.result

theorem reads_relax {r : Reply strict s α} {a : α} : r.relax.Reads a t ↔ r.Reads a t :=
  ⟨fun h => ⟨h.result, h.state, h.errors⟩, fun h => ⟨h.result, h.state, h.errors⟩⟩

theorem reads_andThen {r : Reply true s α}
    {next : α → (u : State) → u.left < s.left → Reply strict u β} {b : β} :
    (r.andThen next).Reads b t ↔
      ∃ a u, ∃ hLeft : u.left < s.left, r.Reads a u ∧ (next a u hLeft).Reads b t := by
  unfold andThen
  split
  · next e hResult =>
    constructor
    · intro h
      cases h.result
    · rintro ⟨a, u, hLeft, hFirst, -⟩
      cases hResult.symm.trans hFirst.result
  · next a hResult =>
    constructor
    · rintro ⟨hOk, hState, hErrors⟩
      have hLeft : r.state.left < s.left := r.consumes rfl (by rw [hResult]; rfl)
      have hSecond : r.state.Advances t := hState ▸ (next a r.state hLeft).advances
      have hClean := r.advances.errors_eq hSecond hErrors
      exact ⟨a, r.state, hLeft, ⟨hResult, rfl, hClean⟩, ⟨hOk, hState, hErrors.trans hClean.symm⟩⟩
    · rintro ⟨a', u, hLeft, ⟨hResult', rfl, hClean⟩, ⟨hOk, hState, hErrors⟩⟩
      cases hResult.symm.trans hResult'
      exact ⟨hOk, hState, hErrors.trans hClean⟩

theorem reads_bind {r : Reply false s α}
    {next : α → (u : State) → u.left ≤ s.left → Reply strict u β} {b : β} :
    (r.bind next).Reads b t ↔
      ∃ a u, ∃ hLeft : u.left ≤ s.left, r.Reads a u ∧ (next a u hLeft).Reads b t := by
  unfold bind
  split
  · next e hResult =>
    constructor
    · intro h
      cases h.result
    · rintro ⟨a, u, hLeft, hFirst, -⟩
      cases hResult.symm.trans hFirst.result
  · next a hResult =>
    constructor
    · rintro ⟨hOk, hState, hErrors⟩
      have hSecond : r.state.Advances t := hState ▸ (next a r.state r.left_le).advances
      have hClean := r.advances.errors_eq hSecond hErrors
      exact ⟨a, r.state, r.left_le, ⟨hResult, rfl, hClean⟩,
        ⟨hOk, hState, hErrors.trans hClean.symm⟩⟩
    · rintro ⟨a', u, hLeft, ⟨hResult', rfl, hClean⟩, ⟨hOk, hState, hErrors⟩⟩
      cases hResult.symm.trans hResult'
      exact ⟨hOk, hState, hErrors.trans hClean⟩

theorem reads_orRecover {r : Reply true s α} {recover : State → ParseError → State}
    {hRecover : ∀ (t : State) e, (t.record e).Advances (recover t e)}
    {hLess : ∀ (t : State) e, t.rest = s.rest → (recover t e).left < t.left} {found : Option α} :
    (r.orRecover recover hRecover hLess).Reads found t ↔ ∃ a, found = some a ∧ r.Reads a t := by
  unfold orRecover
  split
  · next a hResult =>
    constructor
    · rintro ⟨hOk, hState, hErrors⟩
      exact ⟨a, (Except.ok.inj hOk).symm, hResult, hState, hErrors⟩
    · rintro ⟨a', rfl, hOk, hState, hErrors⟩
      cases hResult.symm.trans hOk
      exact ⟨rfl, hState, hErrors⟩
  · next e hResult =>
    constructor
    · rintro ⟨-, rfl, hErrors⟩
      have hRecord := r.state.advances_record e
      have hClean := r.advances.errors_eq (hRecord.trans (hRecover r.state e)) hErrors
      have hPushed := (r.advances.trans hRecord).errors_eq (hRecover r.state e) hErrors
      have hSize := congrArg Array.size (hPushed.trans hClean.symm)
      simp [State.record] at hSize
    · rintro ⟨a, -, hOk, -, -⟩
      cases hResult.symm.trans hOk

/-! ### Replies whose first part is known -/

section

variable {r : Reply true s α} {next : α → (t : State) → t.left < s.left → Reply strict t β}
  {q : Reply false s α} {more : α → (t : State) → t.left ≤ s.left → Reply strict t β}

theorem andThen_of_error {e : ParseError} (h : r.result = .error e) :
    (r.andThen next).result = .error e ∧ (r.andThen next).state = r.state := by
  unfold andThen
  split
  · next hResult =>
    cases hResult.symm.trans h
    exact ⟨rfl, rfl⟩
  · next hResult => cases hResult.symm.trans h

theorem andThen_of_ok {a : α} (h : r.result = .ok a) : ∃ hLeft,
    (r.andThen next).result = (next a r.state hLeft).result ∧
      (r.andThen next).state = (next a r.state hLeft).state := by
  refine ⟨r.consumes rfl (by rw [h]; rfl), ?_⟩
  unfold andThen
  split
  · next hResult => cases hResult.symm.trans h
  · next hResult =>
    cases hResult.symm.trans h
    exact ⟨rfl, rfl⟩

theorem bind_of_error {e : ParseError} (h : q.result = .error e) :
    (q.bind more).result = .error e ∧ (q.bind more).state = q.state := by
  unfold bind
  split
  · next hResult =>
    cases hResult.symm.trans h
    exact ⟨rfl, rfl⟩
  · next hResult => cases hResult.symm.trans h

theorem bind_of_ok {a : α} (h : q.result = .ok a) :
    (q.bind more).result = (more a q.state q.left_le).result ∧
      (q.bind more).state = (more a q.state q.left_le).state := by
  unfold bind
  split
  · next hResult => cases hResult.symm.trans h
  · next hResult =>
    cases hResult.symm.trans h
    exact ⟨rfl, rfl⟩

variable {recover : State → ParseError → State}
  {hRecover : ∀ (t : State) e, (t.record e).Advances (recover t e)}
  {hLess : ∀ (t : State) e, t.rest = s.rest → (recover t e).left < t.left}

theorem orRecover_of_error {e : ParseError} (h : r.result = .error e) :
    (r.orRecover recover hRecover hLess).result = .ok none ∧
      (r.orRecover recover hRecover hLess).state = recover r.state e := by
  unfold orRecover
  split
  · next hResult => cases hResult.symm.trans h
  · next hResult =>
    cases hResult.symm.trans h
    exact ⟨rfl, rfl⟩

theorem orRecover_of_ok {a : α} (h : r.result = .ok a) :
    (r.orRecover recover hRecover hLess).result = .ok (some a) ∧
      (r.orRecover recover hRecover hLess).state = r.state := by
  unfold orRecover
  split
  · next hResult =>
    cases hResult.symm.trans h
    exact ⟨rfl, rfl⟩
  · next hResult => cases hResult.symm.trans h

end

end Reply

/-! ## Single tokens -/

namespace State

variable {α β : Type} {s t : State} {strict inner : Bool}

theorem reads_takeOr {read : TokenKind → Option α} {otherwise : Reply strict s β}
    {next : α → Span → (u : State) → u.left < s.left → Reply inner u β} {b : β} :
    (s.takeOr read otherwise next).Reads b t ↔
      (∃ a kind span u, s.Takes kind span u ∧ kind ≠ .endOfFile ∧ read kind = some a ∧
        ∃ hLeft, (next a span u hLeft).Reads b t) ∨
      ((s.kind = .endOfFile ∨ read s.kind = none) ∧ otherwise.Reads b t) := by
  obtain ⟨rest, last, table, errors⟩ := s
  cases rest with
  | nil =>
    constructor
    · exact fun h => .inr ⟨.inl rfl, h⟩
    · rintro (⟨a, kind, span, u, hTakes, -⟩ | ⟨-, h⟩)
      · cases hTakes.place.1
      · exact h
  | cons token rest =>
    have hTakes : State.Takes ⟨token :: rest, last, table, errors⟩ token.kind token.span
        ⟨rest, token.span, table, errors⟩ := ⟨⟨rfl, rfl⟩, rfl, rfl⟩
    unfold takeOr
    dsimp only
    split
    · next hEnd =>
      constructor
      · exact fun h => .inr ⟨.inl hEnd, h⟩
      · rintro (⟨a, kind, span, u, hTakes', hMore, -⟩ | ⟨-, h⟩)
        · exact absurd ((hTakes'.unique hTakes).1.trans hEnd) hMore
        · exact h
    · next hMore =>
      split
      · next hNone =>
        constructor
        · exact fun h => .inr ⟨.inr hNone, h⟩
        · rintro (⟨a, kind, span, u, hTakes', -, hSome, -⟩ | ⟨-, h⟩)
          · rw [(hTakes'.unique hTakes).1, hNone] at hSome
            cases hSome
          · exact h
      · next a hSome =>
        constructor
        · rintro ⟨hOk, hState, hErrors⟩
          exact .inl ⟨a, token.kind, token.span, _, hTakes, hMore, hSome,
            Nat.lt_succ_self rest.length, hOk, hState, hErrors⟩
        · rintro (⟨a', kind, span, u, hTakes', -, hSome', hLeft, h⟩ | ⟨hEnd | hNone, -⟩)
          · obtain ⟨rfl, rfl, rfl⟩ := hTakes'.unique hTakes
            cases hSome.symm.trans hSome'
            exact ⟨h.result, h.state, h.errors⟩
          · exact absurd hEnd hMore
          · cases hSome.symm.trans hNone

theorem symbolOf?_eq_some_iff {sign : Symbol} {kind : TokenKind} {a : Unit} :
    symbolOf? sign kind = some a ↔ kind = .symbol sign := by
  rw [symbolOf?, Option.ite_none_right_eq_some]
  exact and_iff_left rfl

theorem nameOf?_eq_some_iff {kind : TokenKind} {name : Name} :
    nameOf? kind = some name ↔ kind = .ident name := by
  cases kind <;> simp [nameOf?]

theorem reads_eatOr {sign : Symbol} {otherwise : Reply strict s β}
    {next : Span → (u : State) → u.left < s.left → Reply inner u β} {b : β} :
    (s.eatOr sign otherwise next).Reads b t ↔
      (∃ span u, s.Takes (.symbol sign) span u ∧ ∃ hLeft, (next span u hLeft).Reads b t) ∨
      (s.kind ≠ .symbol sign ∧ otherwise.Reads b t) := by
  rw [eatOr, reads_takeOr]
  constructor
  · rintro (⟨a, kind, span, u, hTakes, -, hRead, hNext⟩ | ⟨hOther, h⟩)
    · rw [symbolOf?_eq_some_iff.mp hRead] at hTakes
      exact .inl ⟨span, u, hTakes, hNext⟩
    · refine .inr ⟨fun hKind => ?_, h⟩
      rw [hKind] at hOther
      simp [symbolOf?] at hOther
  · rintro (⟨span, u, hTakes, hNext⟩ | ⟨hOther, h⟩)
    · exact .inl ⟨(), _, span, u, hTakes, TokenKind.symbol_ne_end sign,
        symbolOf?_eq_some_iff.mpr rfl, hNext⟩
    · exact .inr ⟨.inr (if_neg hOther), h⟩

theorem reads_advance {expected : Expectation} {span : Span} :
    (s.advance expected).Reads span t ↔ ∃ kind, kind ≠ .endOfFile ∧ s.Takes kind span t := by
  rw [advance, reads_takeOr]
  constructor
  · rintro (⟨a, kind, span', u, hTakes, hMore, -, -, h⟩ | ⟨-, h⟩)
    · obtain ⟨rfl, rfl⟩ := Reply.reads_done.mp h
      exact ⟨kind, hMore, hTakes⟩
    · exact (Reply.not_reads_fail h).elim
  · rintro ⟨kind, hMore, hTakes⟩
    exact .inl ⟨kind, kind, span, t, hTakes, hMore, rfl, hTakes.left_lt,
      Reply.reads_done.mpr ⟨rfl, rfl⟩⟩

theorem reads_expect {sign : Symbol} {expected : Expectation} {span : Span} :
    (s.expect sign expected).Reads span t ↔ s.Takes (.symbol sign) span t := by
  rw [expect, reads_eatOr]
  constructor
  · rintro (⟨span', u, hTakes, -, h⟩ | ⟨-, h⟩)
    · obtain ⟨rfl, rfl⟩ := Reply.reads_done.mp h
      exact hTakes
    · exact (Reply.not_reads_fail h).elim
  · intro hTakes
    exact .inl ⟨span, t, hTakes, hTakes.left_lt, Reply.reads_done.mpr ⟨rfl, rfl⟩⟩

theorem reads_expectName {name : Name} :
    s.expectName.Reads name t ↔ ∃ span, s.Takes (.ident name) span t := by
  rw [expectName, reads_takeOr]
  constructor
  · rintro (⟨a, kind, span, u, hTakes, -, hRead, -, h⟩ | ⟨-, h⟩)
    · obtain ⟨rfl, rfl⟩ := Reply.reads_done.mp h
      rw [nameOf?_eq_some_iff.mp hRead] at hTakes
      exact ⟨span, hTakes⟩
    · exact (Reply.not_reads_fail h).elim
  · rintro ⟨span, hTakes⟩
    exact .inl ⟨name, _, span, t, hTakes, TokenKind.ident_ne_end name, nameOf?_eq_some_iff.mpr rfl,
      hTakes.left_lt, Reply.reads_done.mpr ⟨rfl, rfl⟩⟩

theorem reads_optionalName {name : Option Name} :
    s.optionalName.Reads name t ↔
      (∃ n span, name = some n ∧ s.Takes (.ident n) span t) ∨
      ((∀ n, s.kind ≠ .ident n) ∧ name = none ∧ t = s) := by
  rw [optionalName, reads_takeOr]
  constructor
  · rintro (⟨n, kind, span, u, hTakes, -, hRead, -, h⟩ | ⟨hOther, h⟩)
    · obtain ⟨rfl, rfl⟩ := Reply.reads_done.mp h
      rw [nameOf?_eq_some_iff.mp hRead] at hTakes
      exact .inl ⟨n, span, rfl, hTakes⟩
    · refine .inr ⟨fun n hKind => ?_, Reply.reads_done.mp h⟩
      rw [hKind] at hOther
      simp [nameOf?] at hOther
  · rintro (⟨n, span, rfl, hTakes⟩ | ⟨hOther, rfl, rfl⟩)
    · exact .inl ⟨n, _, span, t, hTakes, TokenKind.ident_ne_end n, nameOf?_eq_some_iff.mpr rfl,
        hTakes.left_lt, Reply.reads_done.mpr ⟨rfl, rfl⟩⟩
    · refine .inr ⟨.inr ?_, Reply.reads_done.mpr ⟨rfl, rfl⟩⟩
      cases hRead : nameOf? t.kind with
      | none => rfl
      | some n => exact absurd (nameOf?_eq_some_iff.mp hRead) (hOther n)

/-! ## Nodes -/

theorem reads_build {f : NodeTable → α × NodeTable} {hGrows : ∀ u : NodeTable, u.Grows (f u).2}
    {a : α} :
    (s.build f hGrows).Reads a t ↔ a = (f s.table).1 ∧ t = { s with table := (f s.table).2 } := by
  constructor
  · rintro ⟨hResult, hState, -⟩
    exact ⟨(Except.ok.inj hResult).symm, hState.symm⟩
  · rintro ⟨rfl, rfl⟩
    exact ⟨rfl, rfl, rfl⟩

theorem reads_addNode {form : Form} {span : Span} {id : NodeId} :
    (s.addNode form span).Reads id t ↔
      id = (s.table.addNode form span).1 ∧ t = { s with table := (s.table.addNode form span).2 } :=
  reads_build

end State

end Grammar

end FeatherScript
