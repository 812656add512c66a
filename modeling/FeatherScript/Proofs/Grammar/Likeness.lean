import FeatherScript.Proofs.Grammar.Soundness
import FeatherScript.Proofs.Token.Renaming

/-!
# Two readings side by side

The parser looks at the kinds of tokens only, and merely carries names, spans and numbers along. So
two readings of tokens that are alike run in step: both succeed or both fail, and what they store
and record is alike. What alike means is a parameter: a relation for each sort of data, such that
everything the parser does with the data respects it.

* `Likeness`, `Likeness.Respected`: the relations, and that the steps of the parser respect them.
* `Likeness.States`, `Likeness.Replies`: states and replies that are alike.
* `Replies.andThen`, `Replies.bind`, `Replies.orRecover`: one reading after another.
* `States.takeOr`, `States.build`, `States.recover`: the steps of readings.
-/

namespace FeatherScript

/-- Two results that are both successes or both failures, and related as such. -/
inductive ResultsAlike {ε α β : Type} (E : ε → ε → Prop) (P : α → β → Prop) :
    Except ε α → Except ε β → Prop
  | ok {a b} (h : P a b) : ResultsAlike E P (.ok a) (.ok b)
  | error {e e'} (h : E e e') : ResultsAlike E P (.error e) (.error e')

namespace Grammar

/-- The first of some tokens, or the end of the source where there is none. -/
def headToken (tokens : List Token) : Token := tokens.head?.getD ⟨.endOfFile, .origin⟩

/-! ## Relations of data -/

/-- What makes the data of two readings alike. The readings run side by side from where `start`
tokens are left in the first; the spans of what they consumed before need not be alike. -/
structure Likeness where
  Names : Name → Name → Prop
  Tokens : Token → Token → Prop
  Spans : Span → Span → Prop
  Ids : NodeId → NodeId → Prop
  ArgSlices : Slice → Slice → Prop
  ParamSlices : Slice → Slice → Prop
  Tables : NodeTable → NodeTable → Prop
  Errors : Array ParseError → Array ParseError → Prop
  start : Nat

namespace Likeness

/-- The same construct, of data that is alike. -/
inductive Forms (L : Likeness) : Form → Form → Prop
  | int (value) : Forms L (.int value) (.int value)
  | bool (value) : Forms L (.bool value) (.bool value)
  | null : Forms L .null .null
  | ref {n n'} (hName : L.Names n n') : Forms L (.ref n) (.ref n')
  | print {a a'} (hArgument : L.Ids a a') : Forms L (.print a) (.print a')
  | binary (op) {a a' b b'} (hLeft : L.Ids a a') (hRight : L.Ids b b') :
      Forms L (.binary op a b) (.binary op a' b')
  | branch {c c' a a' b b'} (hCondition : L.Ids c c') (hConsequent : L.Ids a a')
      (hAlternative : Option.Rel L.Ids b b') : Forms L (.branch c a b) (.branch c' a' b')
  | loop {c c' b b'} (hCondition : L.Ids c c') (hBody : L.Ids b b') :
      Forms L (.loop c b) (.loop c' b')
  | sequence {a a' b b'} (hFirst : L.Ids a a') (hSecond : L.Ids b b') :
      Forms L (.sequence a b) (.sequence a' b')
  | declare {n n' a a'} (hName : L.Names n n') (hValue : L.Ids a a') :
      Forms L (.declare n a) (.declare n' a')
  | assign {n n' a a'} (hName : L.Names n n') (hValue : L.Ids a a') :
      Forms L (.assign n a) (.assign n' a')
  | function {p p' b b'} (hParams : L.ParamSlices p p') (hBody : L.Ids b b') :
      Forms L (.function p b) (.function p' b')
  | call {f f' a a'} (hCallee : L.Ids f f') (hArgs : L.ArgSlices a a') :
      Forms L (.call f a) (.call f' a')

/-- Errors that ask for the same in the place of tokens that are alike. -/
structure Faults (L : Likeness) (e e' : ParseError) : Prop where
  expected : e'.expected = e.expected
  found : L.Tokens e.found e'.found

/-- Two additions to tables: what was added is related, and the tables are alike. -/
structure Additions (L : Likeness) {α : Type} (A : α → α → Prop) (x y : α × NodeTable) :
    Prop where
  added : A x.1 y.1
  table : L.Tables x.2 y.2

/-- What the parser does with data respects what makes it alike. -/
structure Respected (L : Likeness) : Prop where
  kind : ∀ {x y}, L.Tokens x y → x.kind.Alike L.Names y.kind
  span : ∀ {x y}, L.Tokens x y → L.Spans x.span y.span
  merge : ∀ {a a' b b'}, L.Spans a a' → L.Spans b b' → L.Spans (a.merge b) (a'.merge b')
  spanOf : ∀ {t t' i i'}, L.Tables t t' → L.Ids i i' → L.Spans (t.spanOf i) (t'.spanOf i')
  node : ∀ {t t' form form' span span'}, L.Tables t t' → L.Forms form form' →
    L.Spans span span' → L.Additions L.Ids (t.addNode form span) (t'.addNode form' span')
  args : ∀ {t t' ids ids'}, L.Tables t t' → List.Forall₂ L.Ids ids ids' →
    L.Additions L.ArgSlices (t.addArgs ids) (t'.addArgs ids')
  params : ∀ {t t' names names'}, L.Tables t t' → List.Forall₂ L.Names names names' →
    L.Additions L.ParamSlices (t.addParams names) (t'.addParams names')
  push : ∀ {errors errors' e e'}, L.Errors errors errors' → L.Faults e e' →
    L.Errors (errors.push e) (errors'.push e')

variable {L : Likeness}

/-! ## Constructs of several nodes -/

namespace Respected

variable {t t' : NodeTable} {a a' b b' : NodeId} {ids ids' : List NodeId}
  {names names' : List Name} {span span' : Span}

theorem addPair (hL : L.Respected) (h : L.Tables t t') (hFirst : L.Ids a a')
    (hSecond : L.Ids b b') : L.Additions L.Ids (t.addPair a b) (t'.addPair a' b') :=
  hL.node h (.sequence hFirst hSecond) (hL.merge (hL.spanOf h hFirst) (hL.spanOf h hSecond))

theorem addChain (hL : L.Respected) (h : L.Tables t t') (hFirst : L.Ids a a')
    (hMore : List.Forall₂ L.Ids ids ids') :
    L.Additions L.Ids (t.addChain a ids) (t'.addChain a' ids') := by
  induction hMore generalizing t t' a a' with
  | nil => exact ⟨hFirst, h⟩
  | cons hSecond _ ih =>
    have hPair := hL.addPair h hFirst hSecond
    exact ih hPair.table hPair.added

theorem addRun (hL : L.Respected) (h : L.Tables t t') (hSpan : L.Spans span span')
    (hIds : List.Forall₂ L.Ids ids ids') :
    L.Additions L.Ids (t.addRun span ids) (t'.addRun span' ids') := by
  cases hIds with
  | nil => exact hL.node h .null hSpan
  | cons hFirst hMore => exact hL.addChain h hFirst hMore

theorem addBinary (hL : L.Respected) (h : L.Tables t t') (op : Operator) (hLeft : L.Ids a a')
    (hRight : L.Ids b b') : L.Additions L.Ids (t.addBinary op a b) (t'.addBinary op a' b') :=
  hL.node h (.binary op hLeft hRight) (hL.merge (hL.spanOf h hLeft) (hL.spanOf h hRight))

theorem addCall (hL : L.Respected) (h : L.Tables t t') (hCallee : L.Ids a a')
    (hIds : List.Forall₂ L.Ids ids ids') (hClose : L.Spans span span') :
    L.Additions L.Ids (t.addCall a ids span) (t'.addCall a' ids' span') := by
  have hArgs := hL.args h hIds
  exact hL.node hArgs.table (.call hCallee hArgs.added)
    (hL.merge (hL.spanOf hArgs.table hCallee) hClose)

theorem addFunction (hL : L.Respected) (h : L.Tables t t') {name name' : Option Name}
    (hName : Option.Rel L.Names name name') (hNames : List.Forall₂ L.Names names names')
    (hBody : L.Ids a a') (hSpan : L.Spans span span') :
    L.Additions L.Ids (t.addFunction name names a span)
      (t'.addFunction name' names' a' span') := by
  have hParams := hL.params h hNames
  have hFunction := hL.node hParams.table (.function hParams.added hBody) hSpan
  cases hName with
  | none => exact hFunction
  | some hName => exact hL.node hFunction.table (.declare hName hFunction.added) hSpan

end Respected

/-! ## States -/

/-- Lists of tokens that are alike up to the first end of the source. -/
inductive Aligned (L : Likeness) : List Token → List Token → Prop
  | stop {ts ts'} (hEnd : (headToken ts).kind = .endOfFile)
      (hTokens : L.Tokens (headToken ts) (headToken ts')) : Aligned L ts ts'
  | next {x y ts ts'} (hMore : x.kind ≠ .endOfFile) (hTokens : L.Tokens x y)
      (hRest : Aligned L ts ts') : Aligned L (x :: ts) (y :: ts')

/-- States of two readings side by side. -/
structure States (L : Likeness) (s s' : State) : Prop where
  rest : L.Aligned s.rest s'.rest
  last : s.left < L.start → L.Spans s.last s'.last
  begun : s.left ≤ L.start
  table : L.Tables s.table s'.table
  errors : L.Errors s.errors s'.errors

/-- A kind without a name is one of two alike kinds if it is the other. -/
theorem kind_eq_iff {R : Name → Name → Prop} {kind kind' fixed : TokenKind}
    (h : kind.Alike R kind') (hFixed : ∀ n, fixed ≠ .ident n) : kind' = fixed ↔ kind = fixed := by
  cases h with
  | ident =>
    exact ⟨fun hSame => absurd hSame.symm (hFixed _), fun hSame => absurd hSame.symm (hFixed _)⟩
  | other => exact Iff.rfl

theorem kind_alike_self (kind : TokenKind) : kind.Alike Eq kind := by
  cases kind with
  | ident name => exact .ident rfl
  | _ => exact .other rfl

theorem Aligned.head {ts ts' : List Token} (h : L.Aligned ts ts') :
    L.Tokens (headToken ts) (headToken ts') := by
  cases h with
  | stop _ hTokens => exact hTokens
  | next _ hTokens _ => exact hTokens

namespace States

variable {s s' : State}

theorem current (h : L.States s s') : L.Tokens s.current s'.current := h.rest.head

theorem kind (hL : L.Respected) (h : L.States s s') : s.kind.Alike L.Names s'.kind :=
  hL.kind h.current

theorem kind_iff (hL : L.Respected) (h : L.States s s') {fixed : TokenKind}
    (hFixed : ∀ n, fixed ≠ .ident n) : s'.kind = fixed ↔ s.kind = fixed :=
  kind_eq_iff (h.kind hL) hFixed

theorem atEnd_iff (hL : L.Respected) (h : L.States s s') : s'.AtEnd ↔ s.AtEnd :=
  h.kind_iff hL nofun

theorem atClose_iff (hL : L.Respected) (h : L.States s s') : s'.AtClose ↔ s.AtClose :=
  or_congr (h.kind_iff hL nofun) (h.atEnd_iff hL)

/-- The kinds that the parser looks ahead to are alike, except past the end of the source. -/
theorem nextKind (hL : L.Respected) (h : L.States s s') (hMore : s.kind ≠ .endOfFile) :
    s.nextKind.Alike L.Names s'.nextKind := by
  have hNext : ∀ u : State, u.nextKind = (headToken u.rest.tail).kind := by
    rintro ⟨rest, last, table, errors⟩
    rcases rest with _ | ⟨x, _ | ⟨y, rest⟩⟩ <;> rfl
  have hTail : L.Aligned s.rest.tail s'.rest.tail := by
    obtain ⟨rest, last, table, errors⟩ := s
    obtain ⟨rest', last', table', errors'⟩ := s'
    cases h.rest with
    | stop hEnd _ => exact absurd hEnd hMore
    | next _ _ hRest => exact hRest
  rw [hNext s, hNext s']
  exact hL.kind hTail.head

end States

/-! ## Replies -/

/-- Replies that both read something, which is related, or both fail, and leave alike states. -/
structure Replies (L : Likeness) {α β : Type} {s s' : State} {strict strict' : Bool}
    (A : α → β → Prop) (r : Reply strict s α) (r' : Reply strict' s' β) : Prop where
  result : ResultsAlike L.Faults A r.result r'.result
  state : L.States r.state r'.state

open Reply

variable {α α' β β' : Type} {s s' : State} {strict strict' inner inner' : Bool}
  {A : α → α' → Prop} {B : β → β' → Prop}

namespace States

theorem done {a : α} {a' : α'} (h : L.States s s') (hResult : A a a') :
    L.Replies A (done a : Reply false s α) (done a' : Reply false s' α') := ⟨.ok hResult, h⟩

theorem fail {expected : Expectation} (h : L.States s s') :
    L.Replies A (fail expected : Reply strict s α) (fail expected : Reply strict' s' α') :=
  ⟨.error ⟨rfl, h.current⟩, h⟩

end States

namespace Replies

theorem relax {r : Reply true s α} {r' : Reply true s' α'} (h : L.Replies A r r') :
    L.Replies A r.relax r'.relax := ⟨h.result, h.state⟩

/-- Replies that are alike have both failed, or both succeeded. -/
theorem cases {r : Reply strict s α} {r' : Reply strict' s' α'} (h : L.Replies A r r') :
    (∃ e e', r.result = .error e ∧ r'.result = .error e' ∧ L.Faults e e') ∨
      ∃ a a', r.result = .ok a ∧ r'.result = .ok a' ∧ A a a' := by
  obtain ⟨hResult, -⟩ := h
  generalize r.result = x at hResult ⊢
  generalize r'.result = y at hResult ⊢
  cases hResult with
  | ok hValue => exact .inr ⟨_, _, rfl, rfl, hValue⟩
  | error hError => exact .inl ⟨_, _, rfl, rfl, hError⟩

theorem of_eq {u u' : State} {strict₁ strict₂ : Bool} {r : Reply strict s α}
    {r' : Reply strict' s' α'} {q : Reply strict₁ u α} {q' : Reply strict₂ u' α'}
    (h : L.Replies A r r') (hFirst : q.result = r.result ∧ q.state = r.state)
    (hSecond : q'.result = r'.result ∧ q'.state = r'.state) : L.Replies A q q' := by
  refine ⟨?_, ?_⟩
  · rw [hFirst.1, hSecond.1]
    exact h.result
  · rw [hFirst.2, hSecond.2]
    exact h.state

theorem of_error {u u' : State} {strict₁ strict₂ : Bool} {r : Reply strict s α}
    {r' : Reply strict' s' α'} {q : Reply strict₁ u β} {q' : Reply strict₂ u' β'}
    {e e' : ParseError} (h : L.Replies A r r') (he : L.Faults e e')
    (hFirst : q.result = .error e ∧ q.state = r.state)
    (hSecond : q'.result = .error e' ∧ q'.state = r'.state) : L.Replies B q q' := by
  refine ⟨?_, ?_⟩
  · rw [hFirst.1, hSecond.1]
    exact .error he
  · rw [hFirst.2, hSecond.2]
    exact h.state

theorem andThen {r : Reply true s α} {r' : Reply true s' α'}
    {next : α → (t : State) → t.left < s.left → Reply strict t β}
    {next' : α' → (t : State) → t.left < s'.left → Reply strict' t β'} (h : L.Replies A r r')
    (hNext : ∀ a a' t t' hLeft hLeft', A a a' → L.States t t' →
      L.Replies B (next a t hLeft) (next' a' t' hLeft')) :
    L.Replies B (r.andThen next) (r'.andThen next') := by
  obtain ⟨e, e', hError, hError', he⟩ | ⟨a, a', hOk, hOk', ha⟩ := h.cases
  · exact h.of_error he (andThen_of_error hError) (andThen_of_error hError')
  · obtain ⟨hLeft, hFirst⟩ := andThen_of_ok hOk
    obtain ⟨hLeft', hSecond⟩ := andThen_of_ok hOk'
    exact (hNext a a' _ _ hLeft hLeft' ha h.state).of_eq hFirst hSecond

theorem bind {r : Reply false s α} {r' : Reply false s' α'}
    {next : α → (t : State) → t.left ≤ s.left → Reply strict t β}
    {next' : α' → (t : State) → t.left ≤ s'.left → Reply strict' t β'} (h : L.Replies A r r')
    (hNext : ∀ a a' t t' hLeft hLeft', A a a' → L.States t t' →
      L.Replies B (next a t hLeft) (next' a' t' hLeft')) :
    L.Replies B (r.bind next) (r'.bind next') := by
  obtain ⟨e, e', hError, hError', he⟩ | ⟨a, a', hOk, hOk', ha⟩ := h.cases
  · exact h.of_error he (bind_of_error hError) (bind_of_error hError')
  · exact (hNext a a' _ _ r.left_le r'.left_le ha h.state).of_eq (bind_of_ok hOk) (bind_of_ok hOk')

/-- Recovery from alike errors, by ways that keep states alike. -/
theorem orRecover {r : Reply true s α} {r' : Reply true s' α'}
    {recover : State → ParseError → State}
    {hRecover : ∀ (t : State) e, (t.record e).Advances (recover t e)}
    {hLess : ∀ (t : State) e, t.rest = s.rest → (recover t e).left < t.left}
    {hLess' : ∀ (t : State) e, t.rest = s'.rest → (recover t e).left < t.left}
    (h : L.Replies A r r')
    (hAlike : ∀ {t t' : State} {e e'}, L.States t t' → L.Faults e e' →
      L.States (recover t e) (recover t' e')) :
    L.Replies (Option.Rel A) (r.orRecover recover hRecover hLess)
      (r'.orRecover recover hRecover hLess') := by
  obtain ⟨e, e', hError, hError', he⟩ | ⟨a, a', hOk, hOk', ha⟩ := h.cases
  · obtain ⟨hResult, hState⟩ := orRecover_of_error hError
    obtain ⟨hResult', hState'⟩ := orRecover_of_error hError'
    refine ⟨?_, ?_⟩
    · rw [hResult, hResult']
      exact .ok .none
    · rw [hState, hState']
      exact hAlike h.state he
  · obtain ⟨hResult, hState⟩ := orRecover_of_ok hOk
    obtain ⟨hResult', hState'⟩ := orRecover_of_ok hOk'
    refine ⟨?_, ?_⟩
    · rw [hResult, hResult']
      exact .ok (.some ha)
    · rw [hState, hState']
      exact h.state

end Replies

/-! ## Steps of readings -/

open State

/-- What is read from a kind without looking at its name is read from alike kinds. -/
theorem read_alike {R : Name → Name → Prop} {read : TokenKind → Option α}
    (hName : ∀ n, read (.ident n) = none) (kind kind' : TokenKind) (h : kind.Alike R kind') :
    Option.Rel Eq (read kind) (read kind') := by
  cases h with
  | ident =>
    rw [hName, hName]
    exact .none
  | other =>
    cases read kind with
    | none => exact .none
    | some a => exact .some rfl

theorem nameOf?_alike {R : Name → Name → Prop} (kind kind' : TokenKind) (h : kind.Alike R kind') :
    Option.Rel R (nameOf? kind) (nameOf? kind') := by
  cases h with
  | ident hName => exact .some hName
  | other hName =>
    rw [hName]
    exact .none

/-- At the end of the source nothing is taken. -/
theorem takeOr_of_atEnd {read : TokenKind → Option α} {otherwise : Reply strict s β}
    {next : α → Span → (t : State) → t.left < s.left → Reply inner t β} (hEnd : s.AtEnd) :
    s.takeOr read otherwise next = otherwise := by
  obtain ⟨rest, last, table, errors⟩ := s
  cases rest with
  | nil => rfl
  | cons token rest =>
    have hKind : token.kind = .endOfFile := hEnd
    unfold State.takeOr
    dsimp only
    rw [dif_pos hKind]

namespace States

theorem takeOr (hL : L.Respected) {read : TokenKind → Option α} {read' : TokenKind → Option α'}
    {otherwise : Reply strict s β} {otherwise' : Reply strict' s' β'}
    {next : α → Span → (t : State) → t.left < s.left → Reply inner t β}
    {next' : α' → Span → (t : State) → t.left < s'.left → Reply inner' t β'} (h : L.States s s')
    (hRead : ∀ kind kind', kind.Alike L.Names kind' → Option.Rel A (read kind) (read' kind'))
    (hOtherwise : L.Replies B otherwise otherwise')
    (hNext : ∀ a a' span span' t t' hLeft hLeft', A a a' → L.Spans span span' → L.States t t' →
      L.Replies B (next a span t hLeft) (next' a' span' t' hLeft')) :
    L.Replies B (s.takeOr read otherwise next) (s'.takeOr read' otherwise' next') := by
  have hEnd : s'.AtEnd ↔ s.AtEnd := h.atEnd_iff hL
  by_cases hLast : s.AtEnd
  · rw [takeOr_of_atEnd hLast, takeOr_of_atEnd (hEnd.mpr hLast)]
    exact hOtherwise
  obtain ⟨rest, last, table, errors⟩ := s
  obtain ⟨rest', last', table', errors'⟩ := s'
  obtain ⟨hRest, -, hBegun, hTable, hErrors⟩ := h
  cases hRest with
  | stop hStop _ => exact absurd hStop hLast
  | @next x y ts ts' hMore hTokens hRest =>
    have hMore' : y.kind ≠ .endOfFile := mt hEnd.mp hLast
    have hAfter : L.States ⟨ts, x.span, table, errors⟩ ⟨ts', y.span, table', errors'⟩ :=
      ⟨hRest, fun _ => hL.span hTokens, Nat.le_of_succ_le hBegun, hTable, hErrors⟩
    have hOption := hRead _ _ (hL.kind hTokens)
    unfold State.takeOr
    dsimp only
    rw [dif_neg hMore, dif_neg hMore']
    generalize read x.kind = found at hOption ⊢
    generalize read' y.kind = found' at hOption ⊢
    cases hOption with
    | none => exact hOtherwise
    | @some a a' ha =>
      have hReply := hNext a a' x.span y.span ⟨ts, x.span, table, errors⟩
        ⟨ts', y.span, table', errors'⟩ (Nat.lt_succ_self ts.length) (Nat.lt_succ_self ts'.length)
        ha (hL.span hTokens) hAfter
      exact ⟨hReply.result, hReply.state⟩

theorem eatOr (hL : L.Respected) {sign : Symbol} {otherwise : Reply strict s β}
    {otherwise' : Reply strict' s' β'}
    {next : Span → (t : State) → t.left < s.left → Reply inner t β}
    {next' : Span → (t : State) → t.left < s'.left → Reply inner' t β'} (h : L.States s s')
    (hOtherwise : L.Replies B otherwise otherwise')
    (hNext : ∀ span span' t t' hLeft hLeft', L.Spans span span' → L.States t t' →
      L.Replies B (next span t hLeft) (next' span' t' hLeft')) :
    L.Replies B (s.eatOr sign otherwise next) (s'.eatOr sign otherwise' next') :=
  h.takeOr hL (read_alike fun _ => rfl) hOtherwise fun _ _ span span' t t' hLeft hLeft' _ =>
    hNext span span' t t' hLeft hLeft'

theorem advance (hL : L.Respected) {expected : Expectation} (h : L.States s s') :
    L.Replies L.Spans (s.advance expected) (s'.advance expected) := by
  have hRead : ∀ kind kind', kind.Alike L.Names kind' →
      Option.Rel (fun _ _ : TokenKind => True) (some kind) (some kind') :=
    fun _ _ _ => .some trivial
  exact h.takeOr hL hRead h.fail fun _ _ _ _ _ _ _ _ _ hSpan hAfter => hAfter.done hSpan

theorem expect (hL : L.Respected) {sign : Symbol} {expected : Expectation} (h : L.States s s') :
    L.Replies L.Spans (s.expect sign expected) (s'.expect sign expected) :=
  h.eatOr hL h.fail fun _ _ _ _ _ _ hSpan hAfter => hAfter.done hSpan

theorem expectName (hL : L.Respected) (h : L.States s s') :
    L.Replies L.Names s.expectName s'.expectName :=
  h.takeOr hL nameOf?_alike h.fail fun _ _ _ _ _ _ _ _ hName _ hAfter => hAfter.done hName

theorem optionalName (hL : L.Respected) (h : L.States s s') :
    L.Replies (Option.Rel L.Names) s.optionalName s'.optionalName :=
  h.takeOr hL nameOf?_alike (h.done .none) fun _ _ _ _ _ _ _ _ hName _ hAfter =>
    hAfter.done (.some hName)

theorem build {f f' : NodeTable → NodeId × NodeTable} {hGrows : ∀ t : NodeTable, t.Grows (f t).2}
    {hGrows' : ∀ t : NodeTable, t.Grows (f' t).2} (h : L.States s s')
    (hBuild : L.Additions L.Ids (f s.table) (f' s'.table)) :
    L.Replies L.Ids (s.build f hGrows) (s'.build f' hGrows') :=
  ⟨.ok hBuild.added, h.rest, h.last, h.begun, hBuild.table, h.errors⟩

theorem addNode (hL : L.Respected) {form form' : Form} {span span' : Span} (h : L.States s s')
    (hForm : L.Forms form form') (hSpan : L.Spans span span') :
    L.Replies L.Ids (s.addNode form span) (s'.addNode form' span') :=
  h.build (hL.node h.table hForm hSpan)

/-- Skipping to the end of a statement takes two readings to the same place. -/
theorem skip (hL : L.Respected) {ts ts' : List Token} {last last' : Span}
    (hRest : L.Aligned ts ts') (hLast : ts.length < L.start → L.Spans last last')
    (hBegun : ts.length ≤ L.start) :
    L.Aligned (State.skip ts last).1 (State.skip ts' last').1 ∧
      ((State.skip ts last).1.length < L.start →
        L.Spans (State.skip ts last).2 (State.skip ts' last').2) := by
  induction hRest generalizing last last' with
  | @stop ts ts' hEnd hTokens =>
    have hStay : ∀ {us : List Token} {span : Span}, (headToken us).kind = .endOfFile →
        State.skip us span = (us, span) := by
      intro us span hKind
      cases us with
      | nil => rfl
      | cons token us => exact if_pos (.inr hKind)
    have hSame : (headToken ts').kind = .endOfFile ↔ (headToken ts).kind = .endOfFile :=
      kind_eq_iff (hL.kind hTokens) nofun
    rw [hStay hEnd, hStay (hSame.mpr hEnd)]
    exact ⟨.stop hEnd hTokens, hLast⟩
  | @next x y ts ts' hMore hTokens hRest ih =>
    have hStop : (y.kind = .symbol .rightBrace ∨ y.kind = .endOfFile) ↔
        (x.kind = .symbol .rightBrace ∨ x.kind = .endOfFile) :=
      or_congr (kind_eq_iff (hL.kind hTokens) nofun) (kind_eq_iff (hL.kind hTokens) nofun)
    have hSemicolon : y.kind = .symbol .semicolon ↔ x.kind = .symbol .semicolon :=
      kind_eq_iff (hL.kind hTokens) nofun
    unfold State.skip
    by_cases hClose : x.kind = .symbol .rightBrace ∨ x.kind = .endOfFile
    · rw [if_pos hClose, if_pos (hStop.mpr hClose)]
      exact ⟨.next hMore hTokens hRest, hLast⟩
    rw [if_neg hClose, if_neg (mt hStop.mp hClose)]
    by_cases hEnd : x.kind = .symbol .semicolon
    · rw [if_pos hEnd, if_pos (hSemicolon.mpr hEnd)]
      exact ⟨hRest, fun _ => hL.span hTokens⟩
    · rw [if_neg hEnd, if_neg (mt hSemicolon.mp hEnd)]
      exact ih (fun _ => hL.span hTokens) (Nat.le_of_succ_le hBegun)

theorem recover (hL : L.Respected) {e e' : ParseError} (h : L.States s s') (he : L.Faults e e') :
    L.States (s.recover e) (s'.recover e') := by
  obtain ⟨hRest, hLast⟩ := skip hL h.rest h.last h.begun
  have hLeft : (s.recover e).left ≤ s.left := (s.advances_recover e).left_le
  exact ⟨hRest, hLast, Nat.le_trans hLeft h.begun, h.table, hL.push h.errors he⟩

end States

end Likeness

end Grammar

end FeatherScript
