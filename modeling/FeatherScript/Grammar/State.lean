import FeatherScript.Grammar.ParseError
import FeatherScript.Node.Build

/-!
# Reading tokens

The state of the parser is the tokens not yet consumed, the span of the token consumed last, the
table of the nodes stored so far and the errors recorded so far. The end of the source is never
consumed, and where the tokens run out it stands in for the missing token.

A reply to a state is what was read there, or the error that stopped the reading, with the state
after it. Its proofs say that the reading advanced (`State.Advances`): tokens were consumed, nodes
stored and errors recorded, and nothing was taken back. For a strict reply they also say that a
successful reading consumed a token; recursion through replies ends because of them. An error is
always about the token at hand where the reading stopped.

* `Reply.andThen` and `Reply.bind` read on after a strict reply and after any reply.
* `State.takeOr` consumes one token of a wanted kind and reads on, or answers otherwise; all other
  consumption is built from it.
* `State.recover` records an error and skips to the end of the statement; `Reply.orRecover` reads on
  from there.
-/

namespace FeatherScript.Grammar

/-- Where the parser stands and what it has made so far. -/
structure State where
  rest : List Token
  last : Span
  table : NodeTable
  errors : Array ParseError

namespace State

def left (s : State) : Nat := s.rest.length

def current (s : State) : Token := s.rest.head?.getD ⟨.endOfFile, .origin⟩

def kind (s : State) : TokenKind := s.current.kind

def nextKind (s : State) : TokenKind := (s.rest[1]?).elim .endOfFile Token.kind

/-- The end of the source has been reached. -/
def AtEnd (s : State) : Prop := s.kind = .endOfFile

/-- The token at hand closes a block, or the end has been reached. -/
def AtClose (s : State) : Prop := s.kind = .symbol .rightBrace ∨ s.AtEnd

instance (s : State) : Decidable s.AtEnd := inferInstanceAs (Decidable (_ = _))

instance (s : State) : Decidable s.AtClose := inferInstanceAs (Decidable (_ ∨ _))

theorem kind_congr {s t : State} (hRest : t.rest = s.rest) : t.kind = s.kind := by
  rw [kind, kind, current, current, hRest]

theorem atEnd_congr {s t : State} (hRest : t.rest = s.rest) : t.AtEnd ↔ s.AtEnd := by
  rw [AtEnd, AtEnd, kind_congr hRest]

theorem atClose_congr {s t : State} (hRest : t.rest = s.rest) : t.AtClose ↔ s.AtClose := by
  rw [AtClose, AtClose, kind_congr hRest, atEnd_congr hRest]

/-! ## Advancing -/

/-- The span of the last of some tokens; the given one if there are none. -/
def lastSpan (before : Span) (word : List Token) : Span :=
  word.foldl (fun _ token => token.span) before

/-- What reading may do to a state: consume tokens before the end of the source, add to the table
and record further errors. -/
structure Advances (s t : State) : Prop where
  tokens : ∃ word, s.rest = word ++ t.rest ∧ t.last = lastSpan s.last word ∧
    ∀ token ∈ word, token.kind ≠ .endOfFile
  table : s.table.Grows t.table
  errors : s.errors.toList <+: t.errors.toList

namespace Advances

theorem refl (s : State) : s.Advances s :=
  ⟨⟨[], rfl, rfl, nofun⟩, .refl _, List.prefix_rfl⟩

theorem trans {s t u : State} (hFirst : s.Advances t) (hSecond : t.Advances u) :
    s.Advances u := by
  obtain ⟨word, hRest, hLast, hWord⟩ := hFirst.tokens
  obtain ⟨more, hRest', hLast', hMore⟩ := hSecond.tokens
  refine ⟨⟨word ++ more, ?_, ?_, ?_⟩, hFirst.table.trans hSecond.table,
    hFirst.errors.trans hSecond.errors⟩
  · rw [hRest, hRest', List.append_assoc]
  · rw [hLast', hLast, lastSpan, lastSpan, lastSpan, List.foldl_append]
  · intro token hToken
    exact (List.mem_append.mp hToken).elim (hWord token) (hMore token)

theorem suffix {s t : State} (h : s.Advances t) : t.rest <:+ s.rest := by
  obtain ⟨word, hRest, -, -⟩ := h.tokens
  exact ⟨word, hRest.symm⟩

theorem left_le {s t : State} (h : s.Advances t) : t.left ≤ s.left := h.suffix.length_le

end Advances

end State

/-! ## Replies -/

/-- The outcome of reading from a state, and the state afterwards. -/
structure Reply (strict : Bool) (s : State) (α : Type) where
  result : Except ParseError α
  state : State
  advances : s.Advances state
  consumes : strict = true → result.isOk = true → state.left < s.left
  faults : ∀ e, result = .error e → e.found = state.current

namespace Reply

variable {α β : Type} {s : State} {strict : Bool}

theorem left_le (r : Reply strict s α) : r.state.left ≤ s.left := r.advances.left_le

/-- Reading nothing, with a result. -/
def done (a : α) : Reply false s α := ⟨.ok a, s, .refl s, nofun, nofun⟩

/-- Failing at the token at hand. -/
def fail (expected : Expectation) : Reply strict s α :=
  ⟨.error ⟨expected, s.current⟩, s, .refl s, nofun, fun _ hError => by cases hError; rfl⟩

/-- The same reply, without the promise to consume. -/
def relax (r : Reply strict s α) : Reply false s α :=
  ⟨r.result, r.state, r.advances, nofun, r.faults⟩

/-- Reading on after a successful strict reply, in a state with fewer tokens left. -/
def andThen (r : Reply true s α)
    (next : α → (t : State) → t.left < s.left → Reply strict t β) : Reply true s β :=
  match hResult : r.result with
  | .error e =>
    ⟨.error e, r.state, r.advances, nofun,
      fun _ hError => Except.error.inj hError ▸ r.faults e hResult⟩
  | .ok a =>
    have hLeft : r.state.left < s.left := r.consumes rfl (by rw [hResult]; rfl)
    let r' := next a r.state hLeft
    ⟨r'.result, r'.state, r.advances.trans r'.advances,
      fun _ _ => Nat.lt_of_le_of_lt r'.left_le hLeft, r'.faults⟩

/-- Reading on after a successful reply; the whole consumes as much as its second part promises. -/
def bind (r : Reply false s α)
    (next : α → (t : State) → t.left ≤ s.left → Reply strict t β) : Reply strict s β :=
  match hResult : r.result with
  | .error e =>
    ⟨.error e, r.state, r.advances, nofun,
      fun _ hError => Except.error.inj hError ▸ r.faults e hResult⟩
  | .ok a =>
    let r' := next a r.state r.left_le
    ⟨r'.result, r'.state, r.advances.trans r'.advances,
      fun hStrict hOk => Nat.lt_of_lt_of_le (r'.consumes hStrict hOk) r.left_le, r'.faults⟩

/-- The reply to a state as one to a state with more tokens left, of which some were consumed. -/
def after {t : State} (r : Reply strict t α) (hAdvances : s.Advances t)
    (hLeft : t.left < s.left) : Reply true s α :=
  ⟨r.result, r.state, hAdvances.trans r.advances,
    fun _ _ => Nat.lt_of_le_of_lt r.left_le hLeft, r.faults⟩

/-- A strict reply where a promise to consume may or may not be asked for. -/
def weaken (r : Reply true s α) : Reply strict s α :=
  ⟨r.result, r.state, r.advances, fun _ => r.consumes rfl, r.faults⟩

end Reply

/-! ## Single tokens -/

namespace State

variable {α β : Type} {strict inner : Bool}

theorem advances_cons {token : Token} (last : Span) (table : NodeTable)
    (errors : Array ParseError) (rest : List Token) (hKind : token.kind ≠ .endOfFile) :
    Advances ⟨token :: rest, last, table, errors⟩ ⟨rest, token.span, table, errors⟩ :=
  ⟨⟨[token], rfl, rfl, by simpa using hKind⟩, .refl table, List.prefix_rfl⟩

/-- Consumes the token at hand if its kind is wanted and reads on with what is read from it and its
span; otherwise the reply is the given one. The end of the source is never consumed. -/
@[macro_inline] def takeOr (s : State) (read : TokenKind → Option α) (otherwise : Reply strict s β)
    (next : α → Span → (t : State) → t.left < s.left → Reply inner t β) : Reply strict s β :=
  match s, otherwise, next with
  | ⟨[], _, _, _⟩, otherwise, _ => otherwise
  | ⟨token :: rest, last, table, errors⟩, otherwise, next =>
    if hKind : token.kind = .endOfFile then otherwise
    else
      match read token.kind with
      | none => otherwise
      | some a =>
        have hLeft : left ⟨rest, token.span, table, errors⟩
            < left ⟨token :: rest, last, table, errors⟩ :=
          Nat.lt_succ_self rest.length
        ((next a token.span ⟨rest, token.span, table, errors⟩ hLeft).after
          (advances_cons last table errors rest hKind) hLeft).weaken

/-- What is read from a symbol: nothing more than that it is the wanted one. -/
def symbolOf? (sign : Symbol) (k : TokenKind) : Option Unit :=
  if k = .symbol sign then some () else none

/-- Consumes a symbol if it is at hand and reads on; otherwise the reply is the given one. -/
@[macro_inline] def eatOr (s : State) (sign : Symbol) (otherwise : Reply strict s β)
    (next : Span → (t : State) → t.left < s.left → Reply inner t β) : Reply strict s β :=
  s.takeOr (symbolOf? sign) otherwise fun _ span t hLeft => next span t hLeft

/-- Consumes the token at hand, whatever it is; the result is its span. At the end this fails. -/
def advance (s : State) (expected : Expectation) : Reply true s Span :=
  s.takeOr some (.fail expected) fun _ span _ _ => .done span

/-- Consumes one symbol, or fails; the result is its span. -/
def expect (s : State) (sign : Symbol) (expected : Expectation) : Reply true s Span :=
  s.eatOr sign (.fail expected) fun span _ _ => .done span

/-- The name of an identifier. -/
def nameOf? : TokenKind → Option Name
  | .ident name => some name
  | _ => none

/-- Consumes an identifier, or fails. -/
def expectName (s : State) : Reply true s Name :=
  s.takeOr nameOf? (.fail .identifier) fun name _ _ _ => .done name

/-- Consumes an identifier if there is one. -/
def optionalName (s : State) : Reply false s (Option Name) :=
  s.takeOr nameOf? (.done none) fun name _ _ _ => .done (some name)

/-! ## Nodes and errors -/

/-- Extends the node table. -/
def build (s : State) (f : NodeTable → α × NodeTable) (hGrows : ∀ t : NodeTable, t.Grows (f t).2) :
    Reply false s α :=
  match s with
  | ⟨rest, last, table, errors⟩ =>
    have hTable := hGrows table
    match hResult : f table with
    | (a, extended) =>
      ⟨.ok a, ⟨rest, last, extended, errors⟩,
        ⟨⟨[], rfl, rfl, nofun⟩, by rw [hResult] at hTable; exact hTable, List.prefix_rfl⟩,
        nofun, nofun⟩

/-- Stores one node. -/
def addNode (s : State) (form : Form) (span : Span) : Reply false s NodeId :=
  s.build (·.addNode form span) fun t => t.grows_addNode form span

def spanOf (s : State) (id : NodeId) : Span := s.table.spanOf id

/-- Skips tokens up to a closing brace or the end, or just past a semicolon, whichever is first. -/
def skip : List Token → Span → List Token × Span
  | [], last => ([], last)
  | token :: rest, last =>
    if token.kind = .symbol .rightBrace ∨ token.kind = .endOfFile then (token :: rest, last)
    else if token.kind = .symbol .semicolon then (rest, token.span)
    else skip rest token.span

/-- Records an error and skips to the end of the statement it is in. -/
def recover (s : State) (e : ParseError) : State :=
  match s with
  | ⟨rest, last, table, errors⟩ =>
    let (rest, last) := skip rest last
    ⟨rest, last, table, errors.push e⟩

theorem advances_skip (rest : List Token) (last : Span) (table : NodeTable)
    (errors : Array ParseError) :
    Advances ⟨rest, last, table, errors⟩
      ⟨(skip rest last).1, (skip rest last).2, table, errors⟩ := by
  induction rest generalizing last with
  | nil => exact .refl _
  | cons token rest ih =>
    rw [skip]
    split
    · exact .refl _
    · next hOpen =>
      have hToken := advances_cons last table errors rest fun hEnd => hOpen (.inr hEnd)
      split
      · exact hToken
      · exact hToken.trans (ih token.span)

def record (s : State) (e : ParseError) : State := { s with errors := s.errors.push e }

theorem advances_record (s : State) (e : ParseError) : s.Advances (s.record e) :=
  ⟨⟨[], rfl, rfl, nofun⟩, .refl _, by simp [record]⟩

/-- Recovery starts by recording the error. -/
theorem advances_recover (s : State) (e : ParseError) : (s.record e).Advances (s.recover e) :=
  advances_skip s.rest s.last s.table (s.errors.push e)

/-- Recovery consumes a token unless it starts at the end of a block. -/
theorem recover_left_lt {s : State} (e : ParseError) (hOpen : ¬ s.AtClose) :
    (s.recover e).left < s.left := by
  obtain ⟨rest, last, table, errors⟩ := s
  cases rest with
  | nil => exact absurd (.inr rfl) hOpen
  | cons token rest =>
    have hKind : ¬ (token.kind = .symbol .rightBrace ∨ token.kind = .endOfFile) := hOpen
    simp only [recover, left, skip, if_neg hKind]
    split
    · exact Nat.lt_succ_self rest.length
    · exact Nat.lt_succ_of_le (advances_skip rest token.span table (errors.push e)).left_le

/-- At the end of a block recovery consumes nothing. -/
theorem recover_rest_of_atClose {s : State} (e : ParseError) (hClose : s.AtClose) :
    (s.recover e).rest = s.rest := by
  obtain ⟨rest, last, table, errors⟩ := s
  cases rest with
  | nil => rfl
  | cons token rest =>
    have hKind : token.kind = .symbol .rightBrace ∨ token.kind = .endOfFile := hClose
    simp only [recover, skip, if_pos hKind]

end State

/-- The result of a strict reply, or nothing after recovery from its error. Where the reading failed
before it consumed anything, recovery has to. -/
def Reply.orRecover {α : Type} {s : State} (r : Reply true s α)
    (recover : State → ParseError → State)
    (hRecover : ∀ (t : State) e, (t.record e).Advances (recover t e))
    (hLess : ∀ t e, t.rest = s.rest → (recover t e).left < t.left) : Reply true s (Option α) :=
  match hResult : r.result with
  | .ok a =>
    ⟨.ok (some a), r.state, r.advances, fun _ _ => r.consumes rfl (by rw [hResult]; rfl), nofun⟩
  | .error e =>
    have hAfter := (r.state.advances_record e).trans (hRecover r.state e)
    { result := .ok none
      state := recover r.state e
      advances := r.advances.trans hAfter
      consumes := fun _ _ => by
        rcases Nat.lt_or_eq_of_le r.left_le with hShorter | hSame
        · exact Nat.lt_of_le_of_lt hAfter.left_le hShorter
        · have hRest : r.state.rest = s.rest := r.advances.suffix.eq_of_length hSame
          exact Nat.lt_of_lt_of_le (hLess r.state e hRest) r.left_le
      faults := nofun }

end FeatherScript.Grammar
