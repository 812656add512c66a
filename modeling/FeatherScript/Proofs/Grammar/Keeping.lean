import FeatherScript.Proofs.Grammar.Soundness
import FeatherScript.Proofs.Tree.Construction

/-!
# What every reading keeps

A reading, whether it succeeds, fails or recovers, is made of few steps: it consumes a token, skips
to the end of a statement, or stores a node. So a property of states that these steps keep is kept
by every production of the grammar. Calls and functions are stored after their arguments and names
were read; the steps that store them know from which tokens.

* `Reply.Finds`, `Reply.Keeps`: what was read in the end, and what stays true on the way.
* `CallRead`, `FunctionRead`: the readings after which a call and a function are stored.
* `Kept`: a property that every step keeps.
* `Kept.statement`, `Kept.topStatements`: it is kept by the readings of the grammar.
-/

namespace FeatherScript.Grammar

open NodeTable

/-! ## Replies -/

/-- Consuming a token keeps a property of states. -/
def KeptByTokens (I : State → Prop) : Prop :=
  ∀ {s t : State} {kind : TokenKind} {span : Span},
    kind ≠ .endOfFile → s.Takes kind span t → I s → I t

namespace Reply

variable {α β : Type} {s t : State} {strict inner : Bool} {I : State → Prop}

/-- A reply reads something, with or without recovery on the way, and leaves a state. -/
structure Finds (r : Reply strict s α) (a : α) (t : State) : Prop where
  result : r.result = .ok a
  state : r.state = t

/-- A property of the state stays true, also if the reading fails. -/
def Keeps (r : Reply strict s α) (I : State → Prop) : Prop := I s → I r.state

theorem Finds.reads {r : Reply strict s α} {a : α} (h : r.Finds a t)
    (hErrors : r.Keeps (·.errors = s.errors)) : r.Reads a t :=
  ⟨h.result, h.state, h.state ▸ hErrors rfl⟩

theorem keeps_done {a : α} : (done a : Reply false s α).Keeps I := id

theorem keeps_fail {expected : Expectation} : (fail expected : Reply strict s α).Keeps I := id

theorem Keeps.relax {r : Reply strict s α} (h : r.Keeps I) : r.relax.Keeps I := h

theorem Keeps.andThen {r : Reply true s α}
    {next : α → (u : State) → u.left < s.left → Reply strict u β} (h : r.Keeps I)
    (hNext : ∀ a u hLeft, r.Finds a u → (next a u hLeft).Keeps I) : (r.andThen next).Keeps I := by
  intro hStart
  unfold Reply.andThen
  split
  · exact h hStart
  · next a hResult => exact hNext a _ _ ⟨hResult, rfl⟩ (h hStart)

theorem Keeps.bind {r : Reply false s α}
    {next : α → (u : State) → u.left ≤ s.left → Reply strict u β} (h : r.Keeps I)
    (hNext : ∀ a u hLeft, r.Finds a u → (next a u hLeft).Keeps I) : (r.bind next).Keeps I := by
  intro hStart
  unfold Reply.bind
  split
  · exact h hStart
  · next a hResult => exact hNext a _ _ ⟨hResult, rfl⟩ (h hStart)

theorem Keeps.orRecover {r : Reply true s α} {recover : State → ParseError → State}
    {hRecover : ∀ (t : State) e, (t.record e).Advances (recover t e)}
    {hLess : ∀ (t : State) e, t.rest = s.rest → (recover t e).left < t.left} (h : r.Keeps I)
    (hKeeps : ∀ {u : State} e, e.found = u.current → I u → I (recover u e)) :
    (r.orRecover recover hRecover hLess).Keeps I := by
  intro hStart
  unfold Reply.orRecover
  split
  · exact h hStart
  · next e hResult => exact hKeeps e (r.faults e hResult) (h hStart)

theorem finds_done {a b : α} (h : (done a : Reply false s α).Finds b t) : b = a ∧ t = s :=
  ⟨(Except.ok.inj h.result).symm, h.state.symm⟩

theorem finds_andThen {r : Reply true s α}
    {next : α → (u : State) → u.left < s.left → Reply strict u β} {b : β}
    (h : (r.andThen next).Finds b t) :
    ∃ a u, ∃ hLeft : u.left < s.left, r.Finds a u ∧ (next a u hLeft).Finds b t := by
  unfold Reply.andThen at h
  split at h
  · cases h.result
  · next a hResult => exact ⟨a, r.state, _, ⟨hResult, rfl⟩, h.result, h.state⟩

end Reply

open Reply

/-! ## Single tokens -/

namespace State

variable {α β : Type} {s t : State} {strict inner : Bool} {I : State → Prop}

/-- Either a token is taken and what was read from it leads on, or the reply is the other one. -/
theorem takeOr_cases (read : TokenKind → Option α) (otherwise : Reply strict s β)
    (next : α → Span → (u : State) → u.left < s.left → Reply inner u β) :
    (∃ a kind span u, ∃ hLeft : u.left < s.left, kind ≠ .endOfFile ∧ s.Takes kind span u ∧
      read kind = some a ∧
      (s.takeOr read otherwise next).result = (next a span u hLeft).result ∧
      (s.takeOr read otherwise next).state = (next a span u hLeft).state) ∨
    s.takeOr read otherwise next = otherwise := by
  obtain ⟨rest, last, table, errors⟩ := s
  cases rest with
  | nil => exact .inr rfl
  | cons token rest =>
    have hTakes : State.Takes ⟨token :: rest, last, table, errors⟩ token.kind token.span
        ⟨rest, token.span, table, errors⟩ := ⟨⟨rfl, rfl⟩, rfl, rfl⟩
    unfold takeOr
    dsimp only
    split
    · exact .inr rfl
    · next hMore =>
      split
      · exact .inr rfl
      · next a hSome => exact .inl ⟨a, _, _, _, hTakes.left_lt, hMore, hTakes, hSome, rfl, rfl⟩

theorem keeps_takeOr (hTake : KeptByTokens I) {read : TokenKind → Option α}
    {otherwise : Reply strict s β}
    {next : α → Span → (u : State) → u.left < s.left → Reply inner u β}
    (hOtherwise : otherwise.Keeps I)
    (hNext : ∀ a kind span u hLeft, s.Takes kind span u → read kind = some a →
      (next a span u hLeft).Keeps I) : (s.takeOr read otherwise next).Keeps I := by
  intro hStart
  rcases takeOr_cases read otherwise next with
    ⟨a, kind, span, u, hLeft, hMore, hTakes, hSome, -, hState⟩ | hSame
  · rw [hState]
    exact hNext a kind span u hLeft hTakes hSome (hTake hMore hTakes hStart)
  · rw [hSame]
    exact hOtherwise hStart

theorem keeps_eatOr (hTake : KeptByTokens I) {sign : Symbol} {otherwise : Reply strict s β}
    {next : Span → (u : State) → u.left < s.left → Reply inner u β}
    (hOtherwise : otherwise.Keeps I)
    (hNext : ∀ span u hLeft, s.Takes (.symbol sign) span u → (next span u hLeft).Keeps I) :
    (s.eatOr sign otherwise next).Keeps I :=
  keeps_takeOr hTake hOtherwise fun _ _ span u hLeft hTakes hRead =>
    hNext span u hLeft (symbolOf?_eq_some_iff.mp hRead ▸ hTakes)

theorem keeps_advance (hTake : KeptByTokens I) {expected : Expectation} :
    (s.advance expected).Keeps I :=
  keeps_takeOr hTake keeps_fail fun _ _ _ _ _ _ _ => keeps_done

theorem keeps_expect (hTake : KeptByTokens I) {sign : Symbol} {expected : Expectation} :
    (s.expect sign expected).Keeps I :=
  keeps_eatOr hTake keeps_fail fun _ _ _ _ => keeps_done

theorem keeps_expectName (hTake : KeptByTokens I) : s.expectName.Keeps I :=
  keeps_takeOr hTake keeps_fail fun _ _ _ _ _ _ _ => keeps_done

theorem keeps_optionalName (hTake : KeptByTokens I) : s.optionalName.Keeps I :=
  keeps_takeOr hTake keeps_done fun _ _ _ _ _ _ _ => keeps_done

/-- Consuming tokens records no errors. -/
theorem keptByTokens_errors (errors : Array ParseError) : KeptByTokens (·.errors = errors) :=
  fun _ hTakes hErrors => hTakes.errors.trans hErrors

theorem finds_eatOr {sign : Symbol} {otherwise : Reply strict s β}
    {next : Span → (u : State) → u.left < s.left → Reply inner u β} {b : β}
    (h : (s.eatOr sign otherwise next).Finds b t) :
    (∃ span u, ∃ hLeft, s.Takes (.symbol sign) span u ∧ (next span u hLeft).Finds b t) ∨
      otherwise.Finds b t := by
  rcases takeOr_cases (symbolOf? sign) otherwise fun _ span u hLeft => next span u hLeft with
    ⟨_, kind, span, u, hLeft, -, hTakes, hSome, hResult, hState⟩ | hSame
  · rw [symbolOf?_eq_some_iff.mp hSome] at hTakes
    exact .inl ⟨span, u, hLeft, hTakes, hResult ▸ h.result, hState ▸ h.state⟩
  · exact .inr (hSame ▸ h)

theorem finds_advance {expected : Expectation} {span : Span}
    (h : (s.advance expected).Finds span t) : ∃ kind, s.Takes kind span t := by
  obtain ⟨kind, -, hTakes⟩ :=
    reads_advance.mp (h.reads (keeps_advance (keptByTokens_errors s.errors)))
  exact ⟨kind, hTakes⟩

theorem finds_expect {sign : Symbol} {expected : Expectation} {span : Span}
    (h : (s.expect sign expected).Finds span t) : s.Takes (.symbol sign) span t :=
  reads_expect.mp (h.reads (keeps_expect (keptByTokens_errors s.errors)))

theorem finds_optionalName {name : Option Name} (h : s.optionalName.Finds name t) :
    Derives .nearest (.functionName name) s.place t.place := by
  rcases reads_optionalName.mp (h.reads (keeps_optionalName (keptByTokens_errors s.errors))) with
    ⟨n, span, rfl, hTakes⟩ | ⟨-, rfl, rfl⟩
  · exact .functionName hTakes.place
  · exact .anonymous

end State

open State

/-! ## What calls and functions are stored after -/

/-- One or more expressions were read, with commas between them. -/
inductive ArgumentListRead : State → List NodeId → State → Prop
  | last {s id t} (hFirst : (expression s).Finds id t) : ArgumentListRead s [id] t
  | next {s id t comma u ids v} (hFirst : (expression s).Finds id t)
      (hComma : t.Takes (.symbol .comma) comma u) (hMore : ArgumentListRead u ids v) :
      ArgumentListRead s (id :: ids) v

/-- An argument list and its closing parenthesis were read from its opening one on. -/
inductive CallRead (s : State) (ids : List NodeId) (close : Span) (t : State) : Prop
  | empty {opening u} (hOpen : s.Takes (.symbol .leftParen) opening u) (hIds : ids = [])
      (hClose : u.Takes (.symbol .rightParen) close t)
  | list {opening u v} (hOpen : s.Takes (.symbol .leftParen) opening u)
      (hIds : ArgumentListRead u ids v) (hClose : v.Takes (.symbol .rightParen) close t)

/-- A function was read from its keyword on: perhaps a name, parameter names in parentheses and a
block. -/
inductive FunctionRead (s : State) (start : Span) (names : List Name) (body : NodeId)
    (t : State) : Prop
  | intro {name opening close bound} {s₁ s₂ s₃ s₄ s₅ : State}
      (hFunction : s.Takes (.keyword .kwFunction) start s₁)
      (hName : Derives .nearest (.functionName name) s₁.place s₂.place)
      (hOpen : s₂.Takes (.symbol .leftParen) opening s₃)
      (hParams : Derives .nearest (.params names) s₃.place s₄.place)
      (hClose : s₄.Takes (.symbol .rightParen) close s₅)
      (hBound : s₅.left < List.length bound)
      (hBody : (block (nested bound) s₅ hBound).Finds body t)

variable {bound : List Token} {I : State → Prop}

theorem argumentListRead_of_finds {s t : State} {hBound : s.left < bound.length}
    {ids : List NodeId} (h : (argumentIds (nested bound) s hBound).Finds ids t) :
    ArgumentListRead s ids t := by
  rw [argumentIds] at h
  obtain ⟨id, u, hLess, hId, h⟩ := finds_andThen h
  rcases State.finds_eatOr h with ⟨comma, v, hLess', hComma, h⟩ | h
  · obtain ⟨more, w, -, hMore, h⟩ := finds_andThen h
    obtain ⟨rfl, rfl⟩ := finds_done h
    exact .next hId hComma (argumentListRead_of_finds hMore)
  · obtain ⟨rfl, rfl⟩ := finds_done h
    exact .last hId
termination_by s.left

theorem callRead_of_finds {s u v t : State} {opening close : Span}
    {hBound : u.left < bound.length} {ids : List NodeId}
    (hOpen : s.Takes (.symbol .leftParen) opening u)
    (hIds : (arguments (nested bound) u hBound).Finds ids v)
    (hClose : v.Takes (.symbol .rightParen) close t) : CallRead s ids close t := by
  rw [arguments] at hIds
  split at hIds
  · obtain ⟨rfl, rfl⟩ := finds_done hIds
    exact .empty hOpen rfl hClose
  · exact .list hOpen (argumentListRead_of_finds ⟨hIds.result, hIds.state⟩) hClose

/-! ## Properties that all steps keep -/

/-- A property of states that is kept by consuming a token, by recovering from an error about the
token at hand and by storing a node. A call is stored after its arguments and a function after its
names and body; the property may be used at the start of that reading too. -/
structure Kept (I : State → Prop) : Prop where
  take : KeptByTokens I
  recover : ∀ {s : State} (e : ParseError), e.found = s.current → I s → I (s.recover e)
  node : ∀ {s : State} {form : Form} (span : Span), form.Plain → I s →
    I { s with table := (s.table.addNode form span).2 }
  call : ∀ {s t : State} {ids : List NodeId} {close : Span} (callee : NodeId),
    CallRead s ids close t → I s → I t →
    I { t with table := (t.table.addCall callee ids close).2 }
  function : ∀ {s t : State} {start : Span} {names : List Name} {body : NodeId},
    FunctionRead s start names body t → I s → I t →
    I { t with table := (t.table.addFunction none names body (start.merge t.last)).2 }

/-- The nested expressions and statements keep a property. -/
structure Below.Keeps (below : Below bound) (I : State → Prop) : Prop where
  expression : ∀ s hBound, (below.expression s hBound).Keeps I
  statement : ∀ s hBound, (below.statement s hBound).Keeps I

/-- A chain of sequences is stored one sequence after another. -/
theorem Kept.addChain (hI : Kept I) {s : State} {first : NodeId} {more : List NodeId} (h : I s) :
    I { s with table := (s.table.addChain first more).2 } := by
  induction more generalizing s first with
  | nil => exact h
  | cons second more ih =>
    have hPair : I { s with table := (s.table.addPair first second).2 } := hI.node _ trivial h
    exact ih hPair

theorem Kept.addRun (hI : Kept I) {s : State} {span : Span} {ids : List NodeId} (h : I s) :
    I { s with table := (s.table.addRun span ids).2 } := by
  cases ids with
  | nil => exact hI.node span trivial h
  | cons first more => exact hI.addChain h

/-! ## Blocks -/

theorem statements_keeps (hI : Kept I) (hBelow : (nested bound).Keeps I) {s : State}
    {hBound : s.left < bound.length} : (statements (nested bound) s hBound).Keeps I := by
  rw [statements]
  split
  · exact keeps_done
  · refine Keeps.relax (Keeps.andThen ((hBelow.statement s hBound).orRecover hI.recover) ?_)
    intro found t hLess _
    exact (statements_keeps hI hBelow).bind fun _ _ _ _ => keeps_done
termination_by s.left

theorem block_keeps (hI : Kept I) (hBelow : (nested bound).Keeps I) {s : State}
    {hBound : s.left < bound.length} : (block (nested bound) s hBound).Keeps I := by
  refine keeps_eatOr hI.take (hBelow.statement s hBound) fun opening s₁ _ _ => ?_
  refine (statements_keeps hI hBelow).bind fun ids s₂ _ _ => ?_
  exact (keeps_expect hI.take).andThen fun closing s₃ _ _ => hI.addRun

/-! ## Expressions -/

theorem paramNames_keeps (hTake : KeptByTokens I) {s : State} : (paramNames s).Keeps I := by
  rw [paramNames]
  refine (keeps_expectName hTake).andThen fun name t hLess _ => ?_
  refine keeps_eatOr hTake keeps_done fun comma u hLess' _ => ?_
  exact (paramNames_keeps hTake).andThen fun _ _ _ _ => keeps_done
termination_by s.left

theorem params_keeps (hTake : KeptByTokens I) {s : State} : (params s).Keeps I := by
  rw [params]
  split
  · exact keeps_done
  · exact (paramNames_keeps hTake).relax

/-- The names that were read are those of the tokens. -/
theorem finds_params {s t : State} {names : List Name} (h : (params s).Finds names t) :
    Derives .nearest (.params names) s.place t.place :=
  params_yields (h.reads (params_keeps (keptByTokens_errors s.errors)))

theorem function_keeps (hI : Kept I) (hBelow : (nested bound).Keeps I) {s : State}
    {hBound : s.left ≤ bound.length} (hKind : s.kind = .keyword .kwFunction) :
    (function (nested bound) s hBound).Keeps I := by
  intro hStart
  refine ((keeps_advance hI.take).andThen fun start s₁ _ hFunction => ?_) hStart
  refine (keeps_optionalName hI.take).bind fun name s₂ _ hName => ?_
  refine (keeps_expect hI.take).andThen fun opening s₃ _ hOpen => ?_
  refine (params_keeps hI.take).bind fun names s₄ _ hParams => ?_
  refine (keeps_expect hI.take).andThen fun close s₅ _ hClose => ?_
  refine (block_keeps hI hBelow).andThen fun body s₆ _ hBody => ?_
  have hRead : FunctionRead s start names body s₆ := by
    obtain ⟨kind, hFunction⟩ := finds_advance hFunction
    obtain rfl := hFunction.kind_eq.symm.trans hKind
    exact .intro hFunction (finds_optionalName hName) (finds_expect hOpen) (finds_params hParams)
      (finds_expect hClose) _ hBody
  intro hEnd
  have hStored : I { s₆ with table := (s₆.table.addFunction none names body _).2 } :=
    hI.function hRead hStart hEnd
  cases name with
  | none => exact hStored
  | some name =>
    refine hI.node (start.merge s₆.last) ?_ hStored
    trivial

theorem leaf_keeps (hI : Kept I) {s : State} {form : Form} (hPlain : form.Plain) :
    (leaf s form).Keeps I :=
  (keeps_advance hI.take).andThen fun _ _ _ _ => hI.node _ hPlain

theorem primary_keeps (hI : Kept I) (hBelow : (nested bound).Keeps I) {s : State}
    {hBound : s.left ≤ bound.length} : (primary (nested bound) s hBound).Keeps I := by
  rw [primary]
  split
  · exact leaf_keeps hI trivial
  · exact leaf_keeps hI trivial
  · exact leaf_keeps hI trivial
  · next hKind => exact function_keeps hI hBelow hKind
  · refine (keeps_advance hI.take).andThen fun opening s₁ _ _ => ?_
    refine (hBelow.expression s₁ _).andThen fun inner s₂ _ _ => ?_
    exact (keeps_expect hI.take).andThen fun _ _ _ _ => keeps_done
  · exact leaf_keeps hI trivial
  · exact leaf_keeps hI trivial
  · exact keeps_fail

theorem argumentIds_keeps (hI : Kept I) (hBelow : (nested bound).Keeps I) {s : State}
    {hBound : s.left < bound.length} : (argumentIds (nested bound) s hBound).Keeps I := by
  rw [argumentIds]
  refine (hBelow.expression s hBound).andThen fun id t hLess _ => ?_
  refine keeps_eatOr hI.take keeps_done fun comma u hLess' _ => ?_
  exact (argumentIds_keeps hI hBelow).andThen fun _ _ _ _ => keeps_done
termination_by s.left

theorem arguments_keeps (hI : Kept I) (hBelow : (nested bound).Keeps I) {s : State}
    {hBound : s.left < bound.length} : (arguments (nested bound) s hBound).Keeps I := by
  rw [arguments]
  split
  · exact keeps_done
  · exact (argumentIds_keeps hI hBelow).relax

theorem callSuffixes_keeps (hI : Kept I) (hBelow : (nested bound).Keeps I) {s : State}
    {hBound : s.left ≤ bound.length} {callee : NodeId} :
    (callSuffixes (nested bound) callee s hBound).Keeps I := by
  rw [callSuffixes]
  intro hStart
  refine keeps_eatOr hI.take keeps_done (fun opening s₁ hLess hOpen => ?_) hStart
  refine (arguments_keeps hI hBelow).bind fun args s₂ hLeft hArgs => ?_
  refine (keeps_expect hI.take).andThen fun close s₃ hLess' hClose => ?_
  refine Keeps.bind (fun hEnd => ?_) fun call s₄ hLeft' _ => callSuffixes_keeps hI hBelow
  exact hI.call callee (callRead_of_finds hOpen hArgs (finds_expect hClose)) hStart hEnd
termination_by s.left

theorem postfixExpr_keeps (hI : Kept I) (hBelow : (nested bound).Keeps I) {s : State}
    {hBound : s.left ≤ bound.length} : (postfixExpr (nested bound) s hBound).Keeps I :=
  (primary_keeps hI hBelow).andThen fun _ _ _ _ => callSuffixes_keeps hI hBelow

variable {read : TokenKind → Option Operator}
  {operand : (s : State) → s.left ≤ bound.length → Reply true s NodeId}

theorem operations_keeps (hI : Kept I) (hOperand : ∀ s hBound, (operand s hBound).Keeps I)
    {s : State} {hBound : s.left ≤ bound.length} {left : NodeId} :
    (operations read operand left s hBound).Keeps I := by
  rw [operations]
  refine keeps_takeOr hI.take keeps_done fun op _ sign s₁ hLess _ _ => ?_
  refine (hOperand s₁ _).andThen fun right s₂ hLess' _ => ?_
  exact Keeps.bind (hI.node _ trivial) fun whole s₃ hLeft _ => operations_keeps hI hOperand
termination_by s.left

theorem binaryLevel_keeps (hI : Kept I) (hOperand : ∀ s hBound, (operand s hBound).Keeps I)
    {s : State} {hBound : s.left ≤ bound.length} : (binaryLevel read operand s hBound).Keeps I :=
  (hOperand s hBound).andThen fun _ _ _ _ => operations_keeps hI hOperand

theorem comparison_keeps (hI : Kept I) (hBelow : (nested bound).Keeps I) {s : State}
    {hBound : s.left ≤ bound.length} : (comparison (nested bound) s hBound).Keeps I := by
  have hMultiplicative : ∀ s hBound, (multiplicative (nested bound) s hBound).Keeps I :=
    fun _ _ => binaryLevel_keeps hI fun _ _ => postfixExpr_keeps hI hBelow
  have hAdditive : ∀ s hBound, (additive (nested bound) s hBound).Keeps I :=
    fun _ _ => binaryLevel_keeps hI hMultiplicative
  exact binaryLevel_keeps hI hAdditive

theorem declaration_keeps (hI : Kept I) (hBelow : (nested bound).Keeps I) {s : State}
    {hBound : s.left ≤ bound.length} : (declaration (nested bound) s hBound).Keeps I := by
  refine (keeps_advance hI.take).andThen fun start s₁ _ _ => ?_
  refine (keeps_expectName hI.take).andThen fun name s₂ _ _ => ?_
  refine (keeps_expect hI.take).andThen fun sign s₃ _ _ => ?_
  exact (hBelow.expression s₃ _).andThen fun value s₄ _ _ => hI.node _ trivial

theorem assignment_keeps (hI : Kept I) (hBelow : (nested bound).Keeps I) {s : State}
    {hBound : s.left ≤ bound.length} {name : Name} :
    (assignment (nested bound) name s hBound).Keeps I := by
  refine (keeps_advance hI.take).andThen fun start s₁ _ _ => ?_
  refine (keeps_expect hI.take).andThen fun sign s₂ _ _ => ?_
  exact (hBelow.expression s₂ _).andThen fun value s₃ _ _ => hI.node _ trivial

theorem expressionWith_keeps (hI : Kept I) (hBelow : (nested bound).Keeps I) {s : State}
    {hBound : s.left ≤ bound.length} : (expressionWith (nested bound) s hBound).Keeps I := by
  rw [expressionWith]
  split
  · exact declaration_keeps hI hBelow
  · split
    · exact assignment_keeps hI hBelow
    · exact comparison_keeps hI hBelow
  · exact comparison_keeps hI hBelow

/-! ## Statements -/

theorem terminator_keeps (hTake : KeptByTokens I) {s : State} : (terminator s).Keeps I := by
  refine keeps_eatOr hTake ?_ fun _ _ _ _ => keeps_done
  split
  · exact keeps_done
  · exact keeps_fail

theorem parenthesized_keeps (hI : Kept I) (hBelow : (nested bound).Keeps I) {s : State}
    {hBound : s.left ≤ bound.length} : (parenthesized (nested bound) s hBound).Keeps I := by
  refine (keeps_expect hI.take).andThen fun opening s₁ _ _ => ?_
  refine (hBelow.expression s₁ _).andThen fun inner s₂ _ _ => ?_
  exact (keeps_expect hI.take).andThen fun _ _ _ _ => keeps_done

theorem alternative_keeps (hI : Kept I) (hBelow : (nested bound).Keeps I) {s : State}
    {hBound : s.left < bound.length} : (alternative (nested bound) s hBound).Keeps I := by
  refine keeps_takeOr hI.take keeps_done fun _ _ _ s₁ _ _ _ => ?_
  exact (block_keeps hI hBelow).andThen fun _ _ _ _ => keeps_done

theorem branch_keeps (hI : Kept I) (hBelow : (nested bound).Keeps I) {s : State}
    {hBound : s.left ≤ bound.length} : (branch (nested bound) s hBound).Keeps I := by
  refine (keeps_advance hI.take).andThen fun start s₁ _ _ => ?_
  refine (parenthesized_keeps hI hBelow).andThen fun condition s₂ _ _ => ?_
  refine (block_keeps hI hBelow).andThen fun consequent s₃ _ _ => ?_
  exact (alternative_keeps hI hBelow).bind fun other s₄ _ _ => hI.node _ trivial

theorem loop_keeps (hI : Kept I) (hBelow : (nested bound).Keeps I) {s : State}
    {hBound : s.left ≤ bound.length} : (loop (nested bound) s hBound).Keeps I := by
  refine (keeps_advance hI.take).andThen fun start s₁ _ _ => ?_
  refine (parenthesized_keeps hI hBelow).andThen fun condition s₂ _ _ => ?_
  exact (block_keeps hI hBelow).andThen fun body s₃ _ _ => hI.node _ trivial

theorem printing_keeps (hI : Kept I) (hBelow : (nested bound).Keeps I) {s : State}
    {hBound : s.left ≤ bound.length} : (printing (nested bound) s hBound).Keeps I := by
  refine (keeps_advance hI.take).andThen fun start s₁ _ _ => ?_
  refine (parenthesized_keeps hI hBelow).andThen fun argument s₂ _ _ => ?_
  exact (terminator_keeps hI.take).bind fun _ s₃ _ _ => hI.node _ trivial

theorem statementWith_keeps (hI : Kept I) (hBelow : (nested bound).Keeps I) {s : State}
    {hBound : s.left ≤ bound.length} : (statementWith (nested bound) s hBound).Keeps I := by
  rw [statementWith]
  split
  · exact branch_keeps hI hBelow
  · exact loop_keeps hI hBelow
  · exact printing_keeps hI hBelow
  · exact leaf_keeps hI trivial
  · refine (expressionWith_keeps hI hBelow).andThen fun whole s₁ _ _ => ?_
    exact (terminator_keeps hI.take).bind fun _ _ _ _ => keeps_done

/-! ## Programs -/

theorem nested_keeps (hI : Kept I) (bound : List Token) : (nested bound).Keeps I := by
  induction hLength : bound.length using Nat.strongRecOn generalizing bound with
  | ind n ih =>
    have hRest : ∀ s : State, s.left < bound.length → (nested s.rest).Keeps I :=
      fun s hBound => ih s.left (hLength ▸ hBound) s.rest rfl
    constructor
    · intro s hBound
      rw [show (nested bound).expression s hBound = expression s from rfl, expression]
      exact expressionWith_keeps hI (hRest s hBound)
    · intro s hBound
      rw [show (nested bound).statement s hBound = statement s from rfl, statement]
      exact statementWith_keeps hI (hRest s hBound)

theorem statement_keeps (hI : Kept I) (s : State) : (statement s).Keeps I := by
  rw [statement]
  exact statementWith_keeps hI (nested_keeps hI s.rest)

/-- The statements of a program, with and without errors, keep what all steps keep. -/
theorem topStatements_keeps (hI : Kept I) (s : State) : (topStatements s).Keeps I := by
  rw [topStatements]
  split
  · exact keeps_done
  · have hBrace : ∀ {t : State} (e : ParseError), e.found = t.current → I t →
        I (recoverOutside t e) := fun e hFound hStart =>
      keeps_eatOr hI.take keeps_done (fun _ _ _ _ => keeps_done) (hI.recover e hFound hStart)
    refine Keeps.relax (Keeps.andThen ((statement_keeps hI s).orRecover hBrace) ?_)
    intro found t hLess _
    exact (topStatements_keeps hI t).bind fun _ _ _ _ => keeps_done
termination_by s.left

end FeatherScript.Grammar
