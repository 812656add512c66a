import FeatherScript.Proofs.Grammar.Outcomes
import FeatherScript.Proofs.Grammar.Planting
import FeatherScript.Proofs.Token.Layout
import FeatherScript.Proofs.Tree.Nesting

/-!
# The spans of all nodes

A parser stores a node after its children, over tokens and nodes that it came across one after the
other. So what it reads between two states stands in turn, and the node over it encloses its
children. Recovery only moves on, and nodes that were given up stay as they are: the spans of all
nodes nest, whatever was wrong with the source.

* `State.Ordered`: tokens in turn, and nested nodes.
* `State.Crosses`, `State.Lays`: spans and nodes that stand in turn between two states.
* `statement_lays`, `topStatements_lays`: every reading lays the nodes that it answers.
* `lex_inTurn`: the tokens of a source stand in turn.
* `spans_nested`: the theorem.
-/

namespace FeatherScript

open Text FeatherScript.Span NodeTable

/-! ## Tokens -/

theorem Laid.inTurn {names : NameTable} {start : Nat} {cs : List Char} {ts : List Token}
    (h : Laid names start cs ts) : InTurn start (ts.map Token.span) (start + byteLength cs) := by
  induction h with
  | ends => exact .nil (Nat.le_add_right _ _)
  | @token start gap text rest kind ts hGap hText hSpells hLongest h ih =>
    rw [byteLength_append, byteLength_append, ← Nat.add_assoc, ← Nat.add_assoc]
    exact .cons (Nat.le_add_right _ _) (Nat.le_add_right _ _) ih

/-- The tokens of a source stand in turn, and so does its end behind them. -/
theorem lex_inTurn (source : String) (names : NameTable) :
    ∃ q, InTurn 0 ((lex source names).tokens.map Token.span) q := by
  obtain ⟨ts, hTokens, hLaid⟩ := laid_lex source names
  have hEnd : InTurn (0 + byteLength source.toList) [.point (byteLength source.toList)]
      (byteLength source.toList) :=
    .cons (Nat.zero_add _ ▸ Nat.le_refl _) (Nat.le_refl _) (.nil (Nat.le_refl _))
  rw [hTokens, List.map_append]
  exact ⟨_, hLaid.inTurn.append hEnd⟩

namespace Grammar

variable {α β : Type} {strict inner : Bool} {s s₀ s₁ t u : State} {xs ys : List Span}
  {ids more : List NodeId}

/-! ## States -/

/-- The tokens at hand stand in turn behind the last one, and the nodes stored so far are nested. -/
structure State.Ordered (s : State) : Prop where
  last : s.last.start ≤ s.last.stop
  rest : ∃ q, InTurn s.last.stop (s.rest.map Token.span) q
  nested : s.table.Nested

/-- From one state to another, some spans stand in turn. -/
structure State.Crosses (s : State) (spans : List Span) (t : State) : Prop where
  table : s.table.Grows t.table
  ordered : t.Ordered
  start_le : s.last.start ≤ t.last.start
  inTurn : InTurn s.last.stop spans t.last.stop

/-- From one state to another, nodes of these numbers stand in turn. -/
def State.Lays (s : State) (ids : List NodeId) (t : State) : Prop :=
  ∃ spans, List.Forall₂ t.table.StandsOver ids spans ∧ s.Crosses spans t

namespace State

namespace Crosses

theorem refl (h : s.Ordered) : s.Crosses [] s :=
  ⟨.refl _, h, Nat.le_refl _, .nil (Nat.le_refl _)⟩

theorem trans (h : s.Crosses xs t) (hMore : t.Crosses ys u) : s.Crosses (xs ++ ys) u :=
  ⟨h.table.trans hMore.table, hMore.ordered, Nat.le_trans h.start_le hMore.start_le,
    h.inTurn.append hMore.inTurn⟩

theorem sublist (hSub : ys.Sublist xs) (h : s.Crosses xs t) : s.Crosses ys t :=
  ⟨h.table, h.ordered, h.start_le, h.inTurn.sublist hSub⟩

theorem lays (h : s.Crosses xs t) : s.Lays [] t := ⟨[], .nil, h.sublist (List.nil_sublist xs)⟩

/-- The span from a token on encloses what stands behind it. -/
theorem enclose {start : Span} (hStart : s.Crosses [start] s₁) (hLast : s₁.last = start)
    (h : s₁.Crosses xs t) : InTurn s.last.stop [start.merge t.last] t.last.stop ∧
      InTurn (start.merge t.last).start xs (start.merge t.last).stop := by
  obtain ⟨hWhole, hInside⟩ := (hStart.trans h).inTurn.enclose (hLast ▸ h.start_le)
  exact ⟨hWhole, hInside.sublist (List.sublist_cons_self start xs)⟩

end Crosses

namespace Lays

theorem ordered (h : s.Lays ids t) : t.Ordered := h.elim fun _ hAt => hAt.2.ordered

theorem append (h : s.Lays ids t) (hMore : t.Lays more u) : s.Lays (ids ++ more) u := by
  obtain ⟨xs, hOver, hCrosses⟩ := h
  obtain ⟨ys, hOver', hCrosses'⟩ := hMore
  exact ⟨xs ++ ys, List.rel_append (standsOver_of_grows hCrosses'.table hOver) hOver',
    hCrosses.trans hCrosses'⟩

theorem after (h : t.Lays ids u) (hBefore : s.Crosses xs t) : s.Lays ids u :=
  hBefore.lays.append h

theorem single {id : NodeId} (h : s.Lays [id] t) :
    ∃ span, t.table.StandsOver id span ∧ s.Crosses [span] t := by
  obtain ⟨spans, hOver, hCrosses⟩ := h
  cases hOver with
  | cons hOnly hNil =>
    cases hNil
    exact ⟨_, hOnly, hCrosses⟩

theorem upTo (h : s.Lays ids t) (hAfter : t.Crosses xs u) : s.Lays ids u :=
  List.append_nil ids ▸ h.append hAfter.lays

end Lays

/-! ## Steps -/

/-- Tokens that stand in turn are consumed in turn. -/
theorem lastSpan_inTurn {last : Span} {word rest : List Token} {q : Nat}
    (hLast : last.start ≤ last.stop)
    (hTurn : InTurn last.stop ((word ++ rest).map Token.span) q) :
    (lastSpan last word).start ≤ (lastSpan last word).stop ∧
      last.start ≤ (lastSpan last word).start ∧ last.stop ≤ (lastSpan last word).stop ∧
      InTurn (lastSpan last word).stop (rest.map Token.span) q := by
  induction word generalizing last with
  | nil => exact ⟨hLast, Nat.le_refl _, Nat.le_refl _, hTurn⟩
  | cons token word ih =>
    cases hTurn with
    | cons hStart hOrdered hRest =>
      obtain ⟨hAfter, hStartLe, hStopLe, hMore⟩ := ih hOrdered hRest
      exact ⟨hAfter, Nat.le_trans hLast (Nat.le_trans hStart hStartLe),
        Nat.le_trans hStart (Nat.le_trans hOrdered hStopLe), hMore⟩

/-- However a reading advanced, its place moved on. -/
theorem Ordered.crosses (h : s.Ordered) (hAdvances : s.Advances t) (hNested : t.table.Nested) :
    s.Crosses [] t := by
  obtain ⟨q, hTurn⟩ := h.rest
  obtain ⟨word, hRest, hLast, -⟩ := hAdvances.tokens
  rw [hRest] at hTurn
  obtain ⟨hOrdered, hStartLe, hStopLe, hMore⟩ := lastSpan_inTurn h.last hTurn
  rw [← hLast] at hOrdered hStartLe hStopLe hMore
  exact ⟨hAdvances.table, ⟨hOrdered, ⟨q, hMore⟩, hNested⟩, hStartLe, .nil hStopLe⟩

/-- The token that is taken stands in turn. -/
theorem Ordered.take {kind : TokenKind} {span : Span} (h : s.Ordered)
    (hTakes : s.Takes kind span t) : s.Crosses [span] t := by
  obtain ⟨q, hTurn⟩ := h.rest
  have hRest : s.rest = ⟨kind, span⟩ :: t.rest := hTakes.place.1
  have hLast : t.last = span := hTakes.place.2
  rw [hRest] at hTurn
  cases hTurn with
  | cons hStart hOrdered hMore =>
    exact
      { table := hTakes.table ▸ .refl _
        ordered := ⟨hLast ▸ hOrdered, ⟨q, hLast ▸ hMore⟩, hTakes.table ▸ h.nested⟩
        start_le := hLast ▸ Nat.le_trans h.last hStart
        inTurn := by
          rw [hLast]
          exact .cons hStart hOrdered (.nil (Nat.le_refl _)) }

theorem Crosses.kept (s : State) : KeptByTokens (s.Crosses []) :=
  fun _ hTakes h => (h.trans (h.ordered.take hTakes)).sublist (List.nil_sublist _)

end State

/-! ## Readings -/

open Reply State

/-- A reading lays the nodes of its result; if it fails, the nodes that it stored are nested. -/
abbrev Reply.Lays (r : Reply strict s α) (ids : α → List NodeId) : Prop :=
  r.Leaves (fun a t => s.Lays (ids a) t) (fun _ t => t.table.Nested)

section

variable {form : Form} {start : Span} {value : NodeId}

theorem leaves_advance (h : s.Ordered) {expected : Expectation} :
    (s.advance expected).Leaves (fun start t => s.Crosses [start] t ∧ t.last = start)
      (fun _ t => t.table.Nested) :=
  leaves_takeOr (leaves_fail h.nested) fun _ _ _ _ _ _ hTakes _ =>
    leaves_done ⟨h.take hTakes, hTakes.place.2⟩

theorem leaves_expect (h : s.Ordered) {sign : Symbol} {expected : Expectation} :
    (s.expect sign expected).Leaves (fun span t => s.Crosses [span] t)
      (fun _ t => t.table.Nested) :=
  leaves_eatOr (leaves_fail h.nested) fun _ _ _ hTakes => leaves_done (h.take hTakes)

/-- A reading of tokens only. -/
theorem leaves_tokens {r : Reply strict s α} (hKeeps : r.Keeps (s.Crosses [])) (h : s.Ordered) :
    r.Leaves (fun _ t => s.Crosses [] t) (fun _ t => t.table.Nested) :=
  have hAfter : s.Crosses [] r.state := hKeeps (.refl h)
  ⟨fun _ => hAfter, fun _ => hAfter.ordered.nested⟩

/-- What is built between two states is laid there. -/
theorem leaves_stored {f : NodeTable → NodeId × NodeTable}
    {hGrows : ∀ u : NodeTable, u.Grows (f u).2} (h : s.Crosses xs t)
    (hHolds : (f t.table).2.Holds s.last.stop (f t.table).1 t.last.stop) :
    (t.build f hGrows).Leaves (fun id u => s.Lays [id] u) (fun _ u => u.table.Nested) := by
  obtain ⟨hNested, span, hOver, hTurn⟩ := hHolds
  refine leaves_build ⟨[span], .cons hOver .nil, ?_⟩
  exact ⟨h.table.trans (hGrows _), ⟨h.ordered.last, h.ordered.rest, hNested⟩, h.start_le, hTurn⟩

/-- The node from a token up to where the reading stands. -/
theorem leaves_enclosing (hPlain : form.Plain) (hParts : form.parts = ids)
    (hStart : s.Crosses [start] s₁) (hLast : s₁.last = start) (h : s₁.Lays ids t) :
    (t.addNode form (start.merge t.last)).Leaves (fun id u => s.Lays [id] u)
      (fun _ u => u.table.Nested) := by
  obtain ⟨spans, hOver, hCrosses⟩ := h
  obtain ⟨hWhole, hInside⟩ := hStart.enclose hLast hCrosses
  rw [← hParts, ← Form.children_of_plain hPlain] at hOver
  exact leaves_stored (hStart.trans hCrosses)
    (hCrosses.ordered.nested.holds_addNode (Form.hasArgs_of_plain hPlain) hOver hInside hWhole)

/-- The node from a token up to the value that it gives a name to. -/
theorem leaves_definition (hPlain : form.Plain) (hParts : form.parts = [value])
    (hStart : s.Crosses [start] s₁) (h : s₁.Lays [value] t) :
    (t.addNode form (start.merge (t.spanOf value))).Leaves (fun id u => s.Lays [id] u)
      (fun _ u => u.table.Nested) := by
  obtain ⟨place, hValue, hCrosses⟩ := h.single
  have hAll := hStart.trans hCrosses
  have hOver : List.Forall₂ t.table.StandsOver (form.children t.table) [place] := by
    rw [Form.children_of_plain hPlain, hParts]
    exact .cons hValue .nil
  obtain ⟨hWhole, hInside⟩ := hAll.inTurn.enclosePair
  rw [State.spanOf, hValue.spanOf_eq]
  exact leaves_stored hAll (hCrosses.ordered.nested.holds_addNode (Form.hasArgs_of_plain hPlain)
    hOver (hInside.sublist (List.sublist_cons_self start [place])) hWhole)

end

/-! ## Blocks -/

variable {bound : List Token} {below : Below bound}

/-- The nested expressions and statements lay their nodes. -/
structure Below.Lays (below : Below bound) : Prop where
  expression : ∀ {s} hBound, State.Ordered s → (below.expression s hBound).Lays fun id => [id]
  statement : ∀ {s} hBound, State.Ordered s → (below.statement s hBound).Lays fun id => [id]

/-- A statement is laid, or recovery moves on without one. -/
theorem orRecover_lays {r : Reply true s NodeId} {recover : State → ParseError → State}
    {hRecover : ∀ (t : State) e, (t.record e).Advances (recover t e)}
    {hLess : ∀ (t : State) e, t.rest = s.rest → (recover t e).left < t.left}
    (hTable : ∀ t e, (recover t e).table = t.table) (h : s.Ordered)
    (hReply : r.Lays fun id => [id]) : (r.orRecover recover hRecover hLess).Lays Option.toList := by
  refine hReply.advances.orRecover (fun _ _ hOk => hOk.1) fun e t hError => ?_
  obtain ⟨hNested, hAdvances⟩ := hError
  have hAfter := (hAdvances.trans (t.advances_record e)).trans (hRecover t e)
  exact (h.crosses hAfter (hTable t e ▸ hNested)).lays

theorem statements_lays (hBelow : below.Lays) {s : State} {hBound : s.left < bound.length}
    (h : s.Ordered) : (statements below s hBound).Lays id := by
  rw [statements]
  split
  · exact leaves_done (Crosses.refl h).lays
  · next hMore =>
    have hStatement : (statementOrSkip below s hBound hMore).Lays Option.toList :=
      orRecover_lays (fun _ _ => rfl) h (hBelow.statement hBound h)
    refine (hStatement.andThen fun found t hLess hFound => ?_).relax
    exact (statements_lays hBelow hFound.ordered).bind fun more u _ hMore =>
      leaves_done (hFound.append hMore)
termination_by s.left

theorem block_lays (hBelow : below.Lays) {hBound : s.left < bound.length} (h : s.Ordered) :
    (block below s hBound).Lays fun id => [id] := by
  refine leaves_eatOr (hBelow.statement hBound h) fun opening s₁ _ hTakes => ?_
  have hOpen := h.take hTakes
  refine (statements_lays hBelow hOpen.ordered).bind fun ids s₂ _ hIds => ?_
  refine (leaves_expect hIds.ordered).andThen fun closing s₃ _ hClose => ?_
  obtain ⟨spans, hOver, hSpans⟩ := hIds
  have hAll : s.Crosses (opening :: spans ++ [closing]) s₃ := (hOpen.trans hSpans).trans hClose
  have hInside : InTurn s.last.stop spans s₃.last.stop :=
    (hAll.inTurn.sublist (List.sublist_append_left _ _)).sublist (List.sublist_cons_self _ _)
  exact leaves_stored hAll (hAll.ordered.nested.addRun (standsOver_of_grows hClose.table hOver)
    hInside hAll.inTurn.encloseBoth.1)

/-! ## Expressions -/

theorem function_lays (hBelow : below.Lays) {hBound : s.left ≤ bound.length} (h : s.Ordered) :
    (function below s hBound).Lays fun id => [id] := by
  refine (leaves_advance h).andThen fun start s₁ _ ⟨hStart, hLast⟩ => ?_
  refine (leaves_tokens (keeps_optionalName (Crosses.kept s₁)) hStart.ordered).bind
    fun name s₂ _ hName => ?_
  refine (leaves_expect hName.ordered).andThen fun _ s₃ _ hOpen => ?_
  refine (leaves_tokens (params_keeps (Crosses.kept s₃)) hOpen.ordered).bind
    fun names s₄ _ hParams => ?_
  refine (leaves_expect hParams.ordered).andThen fun _ s₅ _ hClose => ?_
  refine (block_lays hBelow hClose.ordered).andThen fun body s₆ _ hBody => ?_
  have hBefore := ((hName.trans hOpen).trans hParams).trans hClose
  obtain ⟨place, hOver, hCrosses⟩ := (hBody.after hBefore).single
  obtain ⟨hWhole, hInside⟩ := hStart.enclose hLast hCrosses
  exact leaves_stored (hStart.trans hCrosses)
    (hCrosses.ordered.nested.addFunction hOver hInside hWhole)

theorem leaf_lays {form : Form} (hPlain : form.Plain) (hParts : form.parts = []) (h : s.Ordered) :
    (leaf s form).Lays fun id => [id] := by
  refine (leaves_advance h).andThen fun span s₁ _ ⟨hSpan, _⟩ => ?_
  have hOrdered := (hSpan.inTurn.within (List.mem_singleton_self span)).2.1
  have hOver : List.Forall₂ s₁.table.StandsOver (form.children s₁.table) [] := by
    rw [Form.children_of_plain hPlain, hParts]
    exact .nil
  exact leaves_stored hSpan (hSpan.ordered.nested.holds_addNode (Form.hasArgs_of_plain hPlain)
    hOver (.nil hOrdered) hSpan.inTurn)

theorem primary_lays (hBelow : below.Lays) {hBound : s.left ≤ bound.length} (h : s.Ordered) :
    (primary below s hBound).Lays fun id => [id] := by
  unfold primary
  split
  · exact leaf_lays trivial rfl h
  · exact leaf_lays trivial rfl h
  · exact leaf_lays trivial rfl h
  · exact function_lays hBelow h
  · refine (leaves_advance h).andThen fun _ s₁ _ ⟨hOpen, _⟩ => ?_
    refine (hBelow.expression _ hOpen.ordered).andThen fun inner s₂ _ hInner => ?_
    refine (leaves_expect hInner.ordered).andThen fun _ s₃ _ hClose => leaves_done ?_
    exact (hInner.after hOpen).upTo hClose
  · exact leaf_lays trivial rfl h
  · exact leaf_lays trivial rfl h
  · exact leaves_fail h.nested

theorem argumentIds_lays (hBelow : below.Lays) {s : State} {hBound : s.left < bound.length}
    (h : s.Ordered) : (argumentIds below s hBound).Lays id := by
  rw [argumentIds]
  refine (hBelow.expression hBound h).andThen fun id t hLess hId => ?_
  refine leaves_eatOr (leaves_done hId) fun _ u hLess' hTakes => ?_
  have hComma := hId.ordered.take hTakes
  exact (argumentIds_lays hBelow hComma.ordered).andThen fun more _ _ hMore =>
    leaves_done (hId.append (hMore.after hComma))
termination_by s.left

theorem arguments_lays (hBelow : below.Lays) {hBound : s.left < bound.length} (h : s.Ordered) :
    (arguments below s hBound).Lays id := by
  rw [arguments]
  split
  · exact leaves_done (Crosses.refl h).lays
  · exact (argumentIds_lays hBelow h).relax

/-- A call starts where its callee does. -/
theorem callSuffixes_lays (hBelow : below.Lays) {s : State} {hBound : s.left ≤ bound.length}
    {callee : NodeId} (h : s₀.Lays [callee] s) :
    (callSuffixes below callee s hBound).Leaves (fun id t => s₀.Lays [id] t)
      (fun _ t => t.table.Nested) := by
  rw [callSuffixes]
  refine leaves_eatOr (leaves_done h) fun opening s₁ hLess hTakes => ?_
  have hOpen := h.ordered.take hTakes
  refine (arguments_lays hBelow hOpen.ordered).bind fun args s₂ hLeft hArgs => ?_
  refine (leaves_expect hArgs.ordered).andThen fun close s₃ hLess' hClose => ?_
  obtain ⟨place, hCallee, hCrosses⟩ := (h.upTo hOpen).single
  obtain ⟨spans, hOver, hSpans⟩ := hArgs
  have hAll : s₀.Crosses (place :: spans ++ [close]) s₃ := (hCrosses.trans hSpans).trans hClose
  have hCallee' := hCallee.of_grows (hSpans.table.trans hClose.table)
  have hOver' := standsOver_of_grows hClose.table hOver
  refine (leaves_stored hAll (hAll.ordered.nested.addCall hCallee' hOver' hAll.inTurn)).bind
    fun call s₄ hLeft' hCall => ?_
  exact callSuffixes_lays hBelow hCall
termination_by s.left

theorem postfixExpr_lays (hBelow : below.Lays) {hBound : s.left ≤ bound.length} (h : s.Ordered) :
    (postfixExpr below s hBound).Lays fun id => [id] :=
  (primary_lays hBelow h).andThen fun _ _ _ hCallee => callSuffixes_lays hBelow hCallee

/-- A way of reading operands that lays them. -/
def OperandLays (operand : (s : State) → s.left ≤ bound.length → Reply true s NodeId) : Prop :=
  ∀ s hBound, State.Ordered s → (operand s hBound).Lays fun id => [id]

variable {read : TokenKind → Option Operator}
  {operand : (s : State) → s.left ≤ bound.length → Reply true s NodeId}

/-- An operation starts where its left operand does. -/
theorem operations_lays (hOperand : OperandLays operand) {s : State}
    {hBound : s.left ≤ bound.length} {left : NodeId} (h : s₀.Lays [left] s) :
    (operations read operand left s hBound).Leaves (fun id t => s₀.Lays [id] t)
      (fun _ t => t.table.Nested) := by
  rw [operations]
  refine leaves_takeOr (leaves_done h) fun op _ sign s₁ hLess _ hTakes _ => ?_
  have hSign := h.ordered.take hTakes
  refine (hOperand s₁ _ hSign.ordered).andThen fun right s₂ hLess' hRight => ?_
  obtain ⟨a, hLeft, hCrosses⟩ := (h.upTo hSign).single
  obtain ⟨b, hRight, hMore⟩ := hRight.single
  have hAll : s₀.Crosses [a, b] s₂ := hCrosses.trans hMore
  have hHolds : (s₂.table.addBinary op left right).2.Holds s₀.last.stop
      (s₂.table.addBinary op left right).1 s₂.last.stop :=
    hAll.ordered.nested.addOver trivial rfl (hLeft.of_grows hMore.table) hRight hAll.inTurn
  exact (leaves_stored hAll hHolds).bind fun whole s₃ hLeft' hWhole =>
    operations_lays hOperand hWhole
termination_by s.left

theorem binaryLevel_lays (hOperand : OperandLays operand) :
    OperandLays (binaryLevel read operand) :=
  fun s hBound h => (hOperand s hBound h).andThen fun _ _ _ hLeft => operations_lays hOperand hLeft

theorem comparison_lays (hBelow : below.Lays) : OperandLays (comparison below) := by
  have hPostfix : OperandLays (postfixExpr below) := fun _ _ => postfixExpr_lays hBelow
  have hMultiplicative : OperandLays (multiplicative below) := binaryLevel_lays hPostfix
  have hAdditive : OperandLays (additive below) := binaryLevel_lays hMultiplicative
  exact binaryLevel_lays hAdditive

theorem declaration_lays (hBelow : below.Lays) {hBound : s.left ≤ bound.length} (h : s.Ordered) :
    (declaration below s hBound).Lays fun id => [id] := by
  refine (leaves_advance h).andThen fun start s₁ _ ⟨hStart, _⟩ => ?_
  refine (leaves_tokens (keeps_expectName (Crosses.kept s₁)) hStart.ordered).andThen
    fun name s₂ _ hName => ?_
  refine (leaves_expect hName.ordered).andThen fun _ s₃ _ hSign => ?_
  refine (hBelow.expression _ hSign.ordered).andThen fun value s₄ _ hValue => ?_
  exact leaves_definition trivial rfl hStart (hValue.after (hName.trans hSign))

theorem assignment_lays (hBelow : below.Lays) {hBound : s.left ≤ bound.length} {name : Name}
    (h : s.Ordered) : (assignment below name s hBound).Lays fun id => [id] := by
  refine (leaves_advance h).andThen fun start s₁ _ ⟨hStart, _⟩ => ?_
  refine (leaves_expect hStart.ordered).andThen fun _ s₂ _ hSign => ?_
  refine (hBelow.expression _ hSign.ordered).andThen fun value s₃ _ hValue => ?_
  exact leaves_definition trivial rfl hStart (hValue.after hSign)

theorem expressionWith_lays (hBelow : below.Lays) {hBound : s.left ≤ bound.length}
    (h : s.Ordered) : (expressionWith below s hBound).Lays fun id => [id] := by
  unfold expressionWith
  split
  · exact declaration_lays hBelow h
  · split
    · exact assignment_lays hBelow h
    · exact comparison_lays hBelow s hBound h
  · exact comparison_lays hBelow s hBound h

/-! ## Statements -/

/-- The closing parenthesis stands behind the expression. -/
theorem parenthesized_lays (hBelow : below.Lays) {hBound : s.left ≤ bound.length}
    (h : s.Ordered) : (parenthesized below s hBound).Leaves
      (fun read t => ∃ u, s.Lays [read.1] u ∧ u.Crosses [read.2] t)
      (fun _ t => t.table.Nested) := by
  refine (leaves_expect h).andThen fun _ s₁ _ hOpen => ?_
  refine (hBelow.expression _ hOpen.ordered).andThen fun inner s₂ _ hInner => ?_
  exact (leaves_expect hInner.ordered).andThen fun close s₃ _ hClose =>
    leaves_done ⟨s₂, hInner.after hOpen, hClose⟩

theorem alternative_lays (hBelow : below.Lays) {hBound : s.left < bound.length} (h : s.Ordered) :
    (alternative below s hBound).Lays Option.toList := by
  refine leaves_takeOr (leaves_done (Crosses.refl h).lays) fun _ _ _ s₁ _ _ hTakes _ => ?_
  have hElse := h.take hTakes
  exact (block_lays hBelow hElse.ordered).andThen fun _ _ _ hBlock =>
    leaves_done (hBlock.after hElse)

theorem branch_lays (hBelow : below.Lays) {hBound : s.left ≤ bound.length} (h : s.Ordered) :
    (branch below s hBound).Lays fun id => [id] := by
  refine (leaves_advance h).andThen fun start s₁ _ ⟨hStart, hLast⟩ => ?_
  refine (parenthesized_lays hBelow hStart.ordered).andThen
    fun condition s₂ _ ⟨_, hCondition, hClose⟩ => ?_
  refine (block_lays hBelow hClose.ordered).andThen fun consequent s₃ _ hConsequent => ?_
  refine (alternative_lays hBelow hConsequent.ordered).bind fun other s₄ _ hOther => ?_
  exact leaves_enclosing trivial rfl hStart hLast
    (((hCondition.upTo hClose).append hConsequent).append hOther)

theorem loop_lays (hBelow : below.Lays) {hBound : s.left ≤ bound.length} (h : s.Ordered) :
    (loop below s hBound).Lays fun id => [id] := by
  refine (leaves_advance h).andThen fun start s₁ _ ⟨hStart, hLast⟩ => ?_
  refine (parenthesized_lays hBelow hStart.ordered).andThen
    fun condition s₂ _ ⟨_, hCondition, hClose⟩ => ?_
  refine (block_lays hBelow hClose.ordered).andThen fun body s₃ _ hBody => ?_
  exact leaves_enclosing trivial rfl hStart hLast ((hCondition.upTo hClose).append hBody)

/-- A printing ends with its closing parenthesis, before what ends the statement. -/
theorem printing_lays (hBelow : below.Lays) {hBound : s.left ≤ bound.length} (h : s.Ordered) :
    (printing below s hBound).Lays fun id => [id] := by
  refine (leaves_advance h).andThen fun start s₁ _ ⟨hStart, _⟩ => ?_
  refine (parenthesized_lays hBelow hStart.ordered).andThen
    fun argument s₂ _ ⟨_, hArgument, hClose⟩ => ?_
  refine (leaves_tokens (terminator_keeps (Crosses.kept s₂)) hClose.ordered).bind
    fun _ s₃ _ hEnd => ?_
  obtain ⟨place, hOver, hCrosses⟩ := hArgument.single
  have hAll : s.Crosses ([start] ++ [place] ++ [argument.2]) s₃ :=
    ((hStart.trans hCrosses).trans hClose).trans hEnd
  have hOver' : List.Forall₂ s₃.table.StandsOver [argument.1] [place] :=
    .cons (hOver.of_grows (hClose.table.trans hEnd.table)) .nil
  obtain ⟨hWhole, hInside⟩ := hAll.inTurn.encloseBoth
  have hOnly : [place].Sublist [start, place, argument.2] :=
    .cons start (.cons_cons place (List.nil_sublist [argument.2]))
  exact leaves_stored hAll
    (hAll.ordered.nested.holds_addNode trivial hOver' (hInside.sublist hOnly) hWhole)

theorem statementWith_lays (hBelow : below.Lays) {hBound : s.left ≤ bound.length}
    (h : s.Ordered) : (statementWith below s hBound).Lays fun id => [id] := by
  unfold statementWith
  split
  · exact branch_lays hBelow h
  · exact loop_lays hBelow h
  · exact printing_lays hBelow h
  · exact leaf_lays trivial rfl h
  · refine (expressionWith_lays hBelow h).andThen fun id s₁ _ hId => ?_
    exact (leaves_tokens (terminator_keeps (Crosses.kept s₁)) hId.ordered).bind
      fun _ s₂ _ hEnd => leaves_done (hId.upTo hEnd)

/-! ## Programs -/

theorem nested_lays (bound : List Token) : (nested bound).Lays := by
  induction hLength : bound.length using Nat.strongRecOn generalizing bound with
  | ind n ih =>
    have hRest : ∀ s : State, s.left < bound.length → (nested s.rest).Lays :=
      fun s hBound => ih s.left (hLength ▸ hBound) s.rest rfl
    constructor
    · intro s hBound h
      rw [show (nested bound).expression s hBound = expression s from rfl, expression]
      exact expressionWith_lays (hRest s hBound) h
    · intro s hBound h
      rw [show (nested bound).statement s hBound = statement s from rfl, statement]
      exact statementWith_lays (hRest s hBound) h

theorem statement_lays (h : s.Ordered) : (statement s).Lays fun id => [id] := by
  rw [statement]
  exact statementWith_lays (nested_lays s.rest) h

theorem topStatements_lays {s : State} (h : s.Ordered) : (topStatements s).Lays id := by
  rw [topStatements]
  split
  · exact leaves_done (Crosses.refl h).lays
  · next hMore =>
    have hStatement : (topStatement s hMore).Lays Option.toList :=
      orRecover_lays (fun t e => table_strayBrace (t.recover e)) h (statement_lays h)
    refine (hStatement.andThen fun found t hLess hFound => ?_).relax
    exact (topStatements_lays hFound.ordered).bind fun more u _ hMore =>
      leaves_done (hFound.append hMore)
termination_by s.left

/-- Tokens in turn make a nested table. -/
theorem parse_nested {tokens : List Token} {q : Nat} (h : InTurn 0 (tokens.map Token.span) q) :
    (parse tokens).table.Nested := by
  have hStart : (State.initial tokens).Ordered := ⟨Nat.le_refl 0, ⟨q, h⟩, nofun⟩
  obtain ⟨⟨ids, hOk⟩, -⟩ := topStatements_ends (.initial tokens)
  obtain ⟨spans, hOver, hCrosses⟩ := (topStatements_lays hStart).ok hOk
  have hEmpty : InTurn 0 [Span.origin] (topStatements (.initial tokens)).state.last.stop :=
    .cons (Nat.le_refl 0) (Nat.le_refl 0) (.nil (Nat.zero_le _))
  have hTable : (parse tokens).table =
      ((topStatements (.initial tokens)).state.table.addRun .origin ids).2 := by
    rw [parse, hOk]
    rfl
  rw [hTable]
  exact (hCrosses.ordered.nested.addRun hOver hCrosses.inTurn hEmpty).nested

/-! ## The theorem -/

/-- The spans of a program nest, and are in the order of the source. For every source, with or
without errors, and every node that was stored, part of the program or not: its span is ordered, its
children can be read, each of them is a node whose span lies inside, and they stand one after the
other in the order in which they are evaluated. -/
theorem spans_nested (source : String) (names : NameTable) {id : NodeId} {n : Node}
    (hNode : (parse (lex source names).tokens).table.node? id = some n) :
    n.span.start ≤ n.span.stop ∧
    n.form.HasArgs (parse (lex source names).tokens).table ∧
    (∀ child ∈ n.form.children (parse (lex source names).tokens).table, ∃ c,
      (parse (lex source names).tokens).table.node? child = some c ∧
      n.span.start ≤ c.span.start ∧ c.span.stop ≤ n.span.stop) ∧
    (n.form.children (parse (lex source names).tokens).table).Pairwise fun a b =>
      ((parse (lex source names).tokens).table.spanOf a).stop ≤
        ((parse (lex source names).tokens).table.spanOf b).start := by
  obtain ⟨q, hTokens⟩ := lex_inTurn source names
  have hNested := parse_nested hTokens
  generalize (parse (lex source names).tokens).table = t at hNode hNested ⊢
  have hMem : n ∈ t.nodes.toList := by
    rw [node?, ← Array.getElem?_toList] at hNode
    exact List.mem_of_getElem? hNode
  have hIn := hNested n hMem
  exact ⟨hIn.ordered, hIn.hasArgs, fun _ => hIn.exists_child, hIn.pairwise⟩

/-- A call that cannot be read, a stray character, and a branch with an error in its block. -/
def brokenSource : String := "f(1,#;if(a){b;+;c}else(2)"

def brokenTable : NodeTable := (parse (lex brokenSource .initial).tokens).table

theorem spans_nested_brokenSource :
    brokenTable.node? 7 = some ⟨.branch 2 5 (some 6), ⟨6, 25⟩⟩ ∧
    (∀ child ∈ [2, 5, 6], ∃ c, brokenTable.node? child = some c ∧ 6 ≤ c.span.start ∧
      c.span.stop ≤ 25) ∧
    [2, 5, 6].Pairwise fun a b => (brokenTable.spanOf a).stop ≤ (brokenTable.spanOf b).start := by
  have hNode : brokenTable.node? 7 = some ⟨.branch 2 5 (some 6), ⟨6, 25⟩⟩ := by decide +kernel
  obtain ⟨-, -, hInside, hTurn⟩ := spans_nested brokenSource .initial hNode
  exact ⟨hNode, hInside, hTurn⟩

end Grammar

end FeatherScript
