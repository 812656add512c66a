import FeatherScript.Proofs.Grammar.Likeness
import FeatherScript.Proofs.Tree.Alike

/-!
# Reading alike tokens

Every construct of the grammar is read alike from states that are alike, by induction on the number
of tokens left. So are statements and programs, whatever it is that makes the data alike. One case
are tokens that differ in their names and spans only: their parses have the same constructs under
the same numbers.

* `Below.Alike`: ways to read nested constructs that read them alike.
* `expressionWith_alike`, `statementWith_alike`: one level of nesting.
* `statement_alike`, `topStatements_alike`: whole statements and programs.
* `parse_alike`: tokens that differ in names and spans.
-/

namespace FeatherScript

namespace Grammar

open Likeness

variable {L : Likeness}

/-! ## Blocks -/

/-- The nested expressions and statements are read alike. -/
structure Below.Alike (L : Likeness) {bound bound' : List Token} (below : Below bound)
    (below' : Below bound') : Prop where
  expression : ∀ s s' hBound hBound', L.States s s' →
    L.Replies L.Ids (below.expression s hBound) (below'.expression s' hBound')
  statement : ∀ s s' hBound hBound', L.States s s' →
    L.Replies L.Ids (below.statement s hBound) (below'.statement s' hBound')

section

variable {bound bound' : List Token} {below : Below bound} {below' : Below bound'}

theorem forall₂_found {A : NodeId → NodeId → Prop} {found found' : Option NodeId}
    {more more' : List NodeId} (hFound : Option.Rel A found found')
    (hMore : List.Forall₂ A more more') :
    List.Forall₂ A (found.toList ++ more) (found'.toList ++ more') := by
  cases hFound with
  | none => exact hMore
  | some hId => exact .cons hId hMore

theorem statements_alike (hL : L.Respected) (hBelow : below.Alike L below') {s s' : State}
    {hBound : s.left < bound.length} {hBound' : s'.left < bound'.length} (h : L.States s s') :
    L.Replies (List.Forall₂ L.Ids) (statements below s hBound) (statements below' s' hBound') := by
  rw [statements, statements]
  by_cases hClose : s.AtClose
  · rw [dif_pos hClose, dif_pos ((h.atClose_iff hL).mpr hClose)]
    exact h.done .nil
  · rw [dif_neg hClose, dif_neg (mt (h.atClose_iff hL).mp hClose)]
    -- A statement that fails to be read fails in both, and both go on after the same token.
    have hStatement := hBelow.statement s s' hBound hBound' h
    refine ((hStatement.orRecover (States.recover hL)).andThen
      fun found found' t t' hLess hLess' hFound ht => ?_).relax
    refine (statements_alike hL hBelow ht).bind fun more more' u u' _ _ hMore hu => ?_
    exact hu.done (forall₂_found hFound hMore)
termination_by s.left

theorem block_alike (hL : L.Respected) (hBelow : below.Alike L below') {s s' : State}
    {hBound : s.left < bound.length} {hBound' : s'.left < bound'.length} (h : L.States s s') :
    L.Replies L.Ids (block below s hBound) (block below' s' hBound') := by
  refine h.eatOr hL (hBelow.statement s s' hBound hBound' h) ?_
  intro opening opening' s₁ s₁' _ _ hOpening h₁
  refine (statements_alike hL hBelow h₁).bind fun ids ids' s₂ s₂' _ _ hIds h₂ => ?_
  refine (h₂.expect hL).andThen fun closing closing' s₃ s₃' _ _ hClosing h₃ => ?_
  exact h₃.build (hL.addRun h₃.table (hL.merge hOpening hClosing) hIds)

/-! ## Expressions -/

theorem paramNames_alike (hL : L.Respected) {s s' : State} (h : L.States s s') :
    L.Replies (List.Forall₂ L.Names) (paramNames s) (paramNames s') := by
  rw [paramNames, paramNames]
  refine (h.expectName hL).andThen fun name name' t t' hLess hLess' hName ht => ?_
  have hSingle : List.Forall₂ L.Names [name] [name'] := .cons hName .nil
  refine ht.eatOr hL (ht.done hSingle) fun _ _ u u' hLeft hLeft' _ hu => ?_
  refine (paramNames_alike hL hu).andThen fun more more' _ _ _ _ hMore hv => ?_
  exact hv.done (.cons hName hMore)
termination_by s.left

theorem params_alike (hL : L.Respected) {s s' : State} (h : L.States s s') :
    L.Replies (List.Forall₂ L.Names) (params s) (params s') := by
  have hKind : s'.kind = .symbol .rightParen ↔ s.kind = .symbol .rightParen := h.kind_iff hL nofun
  rw [params, params]
  by_cases hClose : s.kind = .symbol .rightParen
  · rw [if_pos hClose, if_pos (hKind.mpr hClose)]
    exact h.done .nil
  · rw [if_neg hClose, if_neg (mt hKind.mp hClose)]
    exact (paramNames_alike hL h).relax

theorem function_alike (hL : L.Respected) (hBelow : below.Alike L below') {s s' : State}
    {hBound : s.left ≤ bound.length} {hBound' : s'.left ≤ bound'.length} (h : L.States s s') :
    L.Replies L.Ids (function below s hBound) (function below' s' hBound') := by
  refine (h.advance hL).andThen fun start start' s₁ s₁' hLess₁ _ hStart h₁ => ?_
  refine (h₁.optionalName hL).bind fun name name' s₂ s₂' hLeft₂ _ hName h₂ => ?_
  refine (h₂.expect hL).andThen fun _ _ s₃ s₃' hLess₃ _ _ h₃ => ?_
  refine (params_alike hL h₃).bind fun names names' s₄ s₄' hLeft₄ _ hNames h₄ => ?_
  refine (h₄.expect hL).andThen fun _ _ s₅ s₅' hLess₅ _ _ h₅ => ?_
  refine (block_alike hL hBelow h₅).andThen fun body body' s₆ s₆' hLess₆ _ hBody h₆ => ?_
  have hBegun := h.begun
  exact h₆.build (hL.addFunction h₆.table hName hNames hBody
    (hL.merge hStart (h₆.last (by omega))))

theorem leaf_alike (hL : L.Respected) {s s' : State} {form form' : Form} (h : L.States s s')
    (hForm : L.Forms form form') : L.Replies L.Ids (leaf s form) (leaf s' form') :=
  (h.advance hL).andThen fun _ _ _ _ _ _ hSpan h₁ => h₁.addNode hL hForm hSpan

theorem primary_alike (hL : L.Respected) (hBelow : below.Alike L below') {s s' : State}
    {hBound : s.left ≤ bound.length} {hBound' : s'.left ≤ bound'.length} (h : L.States s s') :
    L.Replies L.Ids (primary below s hBound) (primary below' s' hBound') := by
  have hKind := h.kind hL
  unfold primary
  generalize s.kind = kind at hKind ⊢
  generalize s'.kind = kind' at hKind ⊢
  cases hKind with
  | ident hName => exact leaf_alike hL h (.ref hName)
  | other hName =>
    cases kind with
    | ident => cases hName
    | int value => exact leaf_alike hL h (.int value)
    | keyword word =>
      cases word with
      | kwTrue => exact leaf_alike hL h (.bool true)
      | kwFalse => exact leaf_alike hL h (.bool false)
      | kwNull => exact leaf_alike hL h .null
      | kwFunction => exact function_alike hL hBelow h
      | _ => exact h.fail
    | symbol sign =>
      cases sign with
      | leftParen =>
        refine (h.advance hL).andThen fun _ _ s₁ s₁' _ _ _ h₁ => ?_
        refine (hBelow.expression s₁ s₁' _ _ h₁).andThen fun inner inner' s₂ s₂' _ _ hInner h₂ => ?_
        exact (h₂.expect hL).andThen fun _ _ _ _ _ _ _ h₃ => h₃.done hInner
      | _ => exact h.fail
    | invalid | endOfFile => exact h.fail

theorem argumentIds_alike (hL : L.Respected) (hBelow : below.Alike L below') {s s' : State}
    {hBound : s.left < bound.length} {hBound' : s'.left < bound'.length} (h : L.States s s') :
    L.Replies (List.Forall₂ L.Ids) (argumentIds below s hBound)
      (argumentIds below' s' hBound') := by
  rw [argumentIds, argumentIds]
  refine (hBelow.expression s s' hBound hBound' h).andThen fun id id' t t' hLess hLess' hId ht => ?_
  have hSingle : List.Forall₂ L.Ids [id] [id'] := .cons hId .nil
  refine ht.eatOr hL (ht.done hSingle) fun _ _ u u' hLeft hLeft' _ hu => ?_
  refine (argumentIds_alike hL hBelow hu).andThen fun more more' _ _ _ _ hMore hv => ?_
  exact hv.done (.cons hId hMore)
termination_by s.left

theorem arguments_alike (hL : L.Respected) (hBelow : below.Alike L below') {s s' : State}
    {hBound : s.left < bound.length} {hBound' : s'.left < bound'.length} (h : L.States s s') :
    L.Replies (List.Forall₂ L.Ids) (arguments below s hBound) (arguments below' s' hBound') := by
  have hKind : s'.kind = .symbol .rightParen ↔ s.kind = .symbol .rightParen := h.kind_iff hL nofun
  rw [arguments, arguments]
  by_cases hClose : s.kind = .symbol .rightParen
  · rw [if_pos hClose, if_pos (hKind.mpr hClose)]
    exact h.done .nil
  · rw [if_neg hClose, if_neg (mt hKind.mp hClose)]
    exact (argumentIds_alike hL hBelow h).relax

theorem callSuffixes_alike (hL : L.Respected) (hBelow : below.Alike L below') {s s' : State}
    {hBound : s.left ≤ bound.length} {hBound' : s'.left ≤ bound'.length} (h : L.States s s')
    {callee callee' : NodeId} (hCallee : L.Ids callee callee') :
    L.Replies L.Ids (callSuffixes below callee s hBound)
      (callSuffixes below' callee' s' hBound') := by
  rw [callSuffixes, callSuffixes]
  refine h.eatOr hL (h.done hCallee) fun _ _ s₁ s₁' hLess hLess' _ h₁ => ?_
  refine (arguments_alike hL hBelow h₁).bind fun args args' s₂ s₂' hLeft hLeft' hArgs h₂ => ?_
  refine (h₂.expect hL).andThen fun close close' s₃ s₃' hLess₃ hLess₃' hClose h₃ => ?_
  refine Replies.bind (h₃.build (hL.addCall h₃.table hCallee hArgs hClose))
    fun call call' s₄ s₄' hLeft₄ hLeft₄' hSame h₄ => ?_
  exact callSuffixes_alike hL hBelow h₄ hSame
termination_by s.left

theorem postfixExpr_alike (hL : L.Respected) (hBelow : below.Alike L below') {s s' : State}
    {hBound : s.left ≤ bound.length} {hBound' : s'.left ≤ bound'.length} (h : L.States s s') :
    L.Replies L.Ids (postfixExpr below s hBound) (postfixExpr below' s' hBound') :=
  (primary_alike hL hBelow h).andThen fun _ _ _ _ _ _ hCallee h₁ =>
    callSuffixes_alike hL hBelow h₁ hCallee

/-- Ways of reading operands that read them alike. -/
def OperandsAlike (L : Likeness)
    (operand : (s : State) → s.left ≤ bound.length → Reply true s NodeId)
    (operand' : (s : State) → s.left ≤ bound'.length → Reply true s NodeId) : Prop :=
  ∀ s s' hBound hBound', L.States s s' → L.Replies L.Ids (operand s hBound) (operand' s' hBound')

variable {read : TokenKind → Option Operator}
  {operand : (s : State) → s.left ≤ bound.length → Reply true s NodeId}
  {operand' : (s : State) → s.left ≤ bound'.length → Reply true s NodeId}

theorem operations_alike (hL : L.Respected) (hRead : ∀ n, read (.ident n) = none)
    (hOperand : OperandsAlike L operand operand') {s s' : State} {hBound : s.left ≤ bound.length}
    {hBound' : s'.left ≤ bound'.length} (h : L.States s s') {left left' : NodeId}
    (hLeft : L.Ids left left') :
    L.Replies L.Ids (operations read operand left s hBound)
      (operations read operand' left' s' hBound') := by
  rw [operations, operations]
  refine h.takeOr hL (read_alike hRead) (h.done hLeft) ?_
  rintro op _ _ _ s₁ s₁' hLess hLess' rfl _ h₁
  refine (hOperand s₁ s₁' _ _ h₁).andThen fun right right' s₂ s₂' hLess₂ hLess₂' hRight h₂ => ?_
  refine Replies.bind (h₂.build (hL.addBinary h₂.table op hLeft hRight))
    fun whole whole' s₃ s₃' hLeft₃ hLeft₃' hWhole h₃ => ?_
  exact operations_alike hL hRead hOperand h₃ hWhole
termination_by s.left

theorem binaryLevel_alike (hL : L.Respected) (hRead : ∀ n, read (.ident n) = none)
    (hOperand : OperandsAlike L operand operand') :
    OperandsAlike L (binaryLevel read operand) (binaryLevel read operand') := by
  intro s s' hBound hBound' h
  exact (hOperand s s' hBound hBound' h).andThen fun _ _ _ _ _ _ hLeft h₁ =>
    operations_alike hL hRead hOperand h₁ hLeft

theorem comparison_alike (hL : L.Respected) (hBelow : below.Alike L below') :
    OperandsAlike L (comparison below) (comparison below') := by
  have hPostfix : OperandsAlike L (postfixExpr below) (postfixExpr below') :=
    fun _ _ _ _ => postfixExpr_alike hL hBelow
  have hMultiplicative : OperandsAlike L (multiplicative below) (multiplicative below') :=
    binaryLevel_alike hL (fun _ => rfl) hPostfix
  have hAdditive : OperandsAlike L (additive below) (additive below') :=
    binaryLevel_alike hL (fun _ => rfl) hMultiplicative
  exact binaryLevel_alike hL (fun _ => rfl) hAdditive

theorem declaration_alike (hL : L.Respected) (hBelow : below.Alike L below') {s s' : State}
    {hBound : s.left ≤ bound.length} {hBound' : s'.left ≤ bound'.length} (h : L.States s s') :
    L.Replies L.Ids (declaration below s hBound) (declaration below' s' hBound') := by
  refine (h.advance hL).andThen fun _ _ s₁ s₁' _ _ hStart h₁ => ?_
  refine (h₁.expectName hL).andThen fun name name' s₂ s₂' _ _ hName h₂ => ?_
  refine (h₂.expect hL).andThen fun _ _ s₃ s₃' _ _ _ h₃ => ?_
  refine (hBelow.expression s₃ s₃' _ _ h₃).andThen fun value value' s₄ s₄' _ _ hValue h₄ => ?_
  exact h₄.addNode hL (.declare hName hValue) (hL.merge hStart (hL.spanOf h₄.table hValue))

theorem assignment_alike (hL : L.Respected) (hBelow : below.Alike L below') {s s' : State}
    {hBound : s.left ≤ bound.length} {hBound' : s'.left ≤ bound'.length} (h : L.States s s')
    {name name' : Name} (hName : L.Names name name') :
    L.Replies L.Ids (assignment below name s hBound) (assignment below' name' s' hBound') := by
  refine (h.advance hL).andThen fun _ _ s₁ s₁' _ _ hStart h₁ => ?_
  refine (h₁.expect hL).andThen fun _ _ s₂ s₂' _ _ _ h₂ => ?_
  refine (hBelow.expression s₂ s₂' _ _ h₂).andThen fun value value' s₃ s₃' _ _ hValue h₃ => ?_
  exact h₃.addNode hL (.assign hName hValue) (hL.merge hStart (hL.spanOf h₃.table hValue))

theorem expressionWith_alike (hL : L.Respected) (hBelow : below.Alike L below') {s s' : State}
    {hBound : s.left ≤ bound.length} {hBound' : s'.left ≤ bound'.length} (h : L.States s s') :
    L.Replies L.Ids (expressionWith below s hBound) (expressionWith below' s' hBound') := by
  have hKind := h.kind hL
  have hNext : s.kind ≠ .endOfFile →
      (s'.nextKind = .symbol .assign ↔ s.nextKind = .symbol .assign) :=
    fun hMore => kind_eq_iff (h.nextKind hL hMore) nofun
  have hComparison := comparison_alike hL hBelow s s' hBound hBound' h
  unfold expressionWith
  generalize s.kind = kind at hKind hNext ⊢
  generalize s'.kind = kind' at hKind ⊢
  cases hKind with
  | @ident name name' hName =>
    replace hNext := hNext (TokenKind.ident_ne_end name)
    dsimp only
    by_cases hAssign : s.nextKind = .symbol .assign
    · rw [if_pos hAssign, if_pos (hNext.mpr hAssign)]
      exact assignment_alike hL hBelow h hName
    · rw [if_neg hAssign, if_neg (mt hNext.mp hAssign)]
      exact hComparison
  | other hName =>
    cases kind with
    | ident => cases hName
    | keyword word =>
      cases word with
      | kwVar => exact declaration_alike hL hBelow h
      | _ => exact hComparison
    | _ => exact hComparison

/-! ## Statements -/

theorem terminator_alike (hL : L.Respected) {s s' : State} (h : L.States s s') :
    L.Replies Eq (terminator s) (terminator s') := by
  refine h.eatOr hL ?_ fun _ _ _ _ _ _ _ hAfter => hAfter.done rfl
  by_cases hClose : s.AtClose
  · rw [if_pos hClose, if_pos ((h.atClose_iff hL).mpr hClose)]
    exact h.done rfl
  · rw [if_neg hClose, if_neg (mt (h.atClose_iff hL).mp hClose)]
    exact h.fail

theorem parenthesized_alike (hL : L.Respected) (hBelow : below.Alike L below') {s s' : State}
    {hBound : s.left ≤ bound.length} {hBound' : s'.left ≤ bound'.length} (h : L.States s s') :
    L.Replies (fun inner inner' => L.Ids inner.1 inner'.1 ∧ L.Spans inner.2 inner'.2)
      (parenthesized below s hBound) (parenthesized below' s' hBound') := by
  refine (h.expect hL).andThen fun _ _ s₁ s₁' _ _ _ h₁ => ?_
  refine (hBelow.expression s₁ s₁' _ _ h₁).andThen fun inner inner' s₂ s₂' _ _ hInner h₂ => ?_
  exact (h₂.expect hL).andThen fun _ _ _ _ _ _ hClose h₃ => h₃.done ⟨hInner, hClose⟩

theorem alternative_alike (hL : L.Respected) (hBelow : below.Alike L below') {s s' : State}
    {hBound : s.left < bound.length} {hBound' : s'.left < bound'.length} (h : L.States s s') :
    L.Replies (Option.Rel L.Ids) (alternative below s hBound) (alternative below' s' hBound') := by
  refine h.takeOr hL (read_alike fun _ => rfl) (h.done .none) ?_
  intro _ _ _ _ s₁ s₁' _ _ _ _ h₁
  exact (block_alike hL hBelow h₁).andThen fun _ _ _ _ _ _ hId h₂ => h₂.done (.some hId)

theorem branch_alike (hL : L.Respected) (hBelow : below.Alike L below') {s s' : State}
    {hBound : s.left ≤ bound.length} {hBound' : s'.left ≤ bound'.length} (h : L.States s s') :
    L.Replies L.Ids (branch below s hBound) (branch below' s' hBound') := by
  refine (h.advance hL).andThen fun start start' s₁ s₁' hLess₁ _ hStart h₁ => ?_
  refine (parenthesized_alike hL hBelow h₁).andThen
    fun condition condition' s₂ s₂' hLess₂ _ hCondition h₂ => ?_
  refine (block_alike hL hBelow h₂).andThen
    fun consequent consequent' s₃ s₃' hLess₃ _ hConsequent h₃ => ?_
  refine (alternative_alike hL hBelow h₃).bind fun other other' s₄ s₄' hLeft₄ _ hOther h₄ => ?_
  have hBegun := h.begun
  exact h₄.addNode hL (.branch hCondition.1 hConsequent hOther)
    (hL.merge hStart (h₄.last (by omega)))

theorem loop_alike (hL : L.Respected) (hBelow : below.Alike L below') {s s' : State}
    {hBound : s.left ≤ bound.length} {hBound' : s'.left ≤ bound'.length} (h : L.States s s') :
    L.Replies L.Ids (loop below s hBound) (loop below' s' hBound') := by
  refine (h.advance hL).andThen fun start start' s₁ s₁' hLess₁ _ hStart h₁ => ?_
  refine (parenthesized_alike hL hBelow h₁).andThen
    fun condition condition' s₂ s₂' hLess₂ _ hCondition h₂ => ?_
  refine (block_alike hL hBelow h₂).andThen fun body body' s₃ s₃' hLess₃ _ hBody h₃ => ?_
  have hBegun := h.begun
  exact h₃.addNode hL (.loop hCondition.1 hBody) (hL.merge hStart (h₃.last (by omega)))

theorem printing_alike (hL : L.Respected) (hBelow : below.Alike L below') {s s' : State}
    {hBound : s.left ≤ bound.length} {hBound' : s'.left ≤ bound'.length} (h : L.States s s') :
    L.Replies L.Ids (printing below s hBound) (printing below' s' hBound') := by
  refine (h.advance hL).andThen fun start start' s₁ s₁' _ _ hStart h₁ => ?_
  refine (parenthesized_alike hL hBelow h₁).andThen
    fun argument argument' s₂ s₂' _ _ hArgument h₂ => ?_
  refine (terminator_alike hL h₂).bind fun _ _ s₃ s₃' _ _ _ h₃ => ?_
  exact h₃.addNode hL (.print hArgument.1) (hL.merge hStart hArgument.2)

theorem statementWith_alike (hL : L.Respected) (hBelow : below.Alike L below') {s s' : State}
    {hBound : s.left ≤ bound.length} {hBound' : s'.left ≤ bound'.length} (h : L.States s s') :
    L.Replies L.Ids (statementWith below s hBound) (statementWith below' s' hBound') := by
  have hKind := h.kind hL
  have hExpression : L.Replies L.Ids
      ((expressionWith below s hBound).andThen fun id s₁ _ =>
        (terminator s₁).bind fun _ _ _ => .done id)
      ((expressionWith below' s' hBound').andThen fun id s₁ _ =>
        (terminator s₁).bind fun _ _ _ => .done id) :=
    (expressionWith_alike hL hBelow h).andThen fun _ _ _ _ _ _ hSame h₁ =>
      (terminator_alike hL h₁).bind fun _ _ _ _ _ _ _ h₂ => h₂.done hSame
  unfold statementWith
  generalize s.kind = kind at hKind ⊢
  generalize s'.kind = kind' at hKind ⊢
  cases hKind with
  | ident => exact hExpression
  | other hName =>
    cases kind with
    | keyword word =>
      cases word with
      | kwIf => exact branch_alike hL hBelow h
      | kwWhile => exact loop_alike hL hBelow h
      | kwPrint => exact printing_alike hL hBelow h
      | _ => exact hExpression
    | symbol sign =>
      cases sign with
      | semicolon => exact leaf_alike hL h .null
      | _ => exact hExpression
    | _ => exact hExpression

end

/-! ## Programs -/

theorem nested_alike (hL : L.Respected) (bound bound' : List Token) :
    (nested bound).Alike L (nested bound') := by
  induction hLength : bound.length using Nat.strongRecOn generalizing bound bound' with
  | ind n ih =>
    have hRest : ∀ s s' : State, s.left < bound.length →
        (nested s.rest).Alike L (nested s'.rest) :=
      fun s s' hBound => ih s.left (hLength ▸ hBound) s.rest s'.rest rfl
    constructor
    · intro s s' hBound hBound' h
      rw [show (nested bound).expression s hBound = expression s from rfl,
        show (nested bound').expression s' hBound' = expression s' from rfl, expression, expression]
      exact expressionWith_alike hL (hRest s s' hBound) h
    · intro s s' hBound hBound' h
      rw [show (nested bound).statement s hBound = statement s from rfl,
        show (nested bound').statement s' hBound' = statement s' from rfl, statement, statement]
      exact statementWith_alike hL (hRest s s' hBound) h

theorem statement_alike (hL : L.Respected) {s s' : State} (h : L.States s s') :
    L.Replies L.Ids (statement s) (statement s') := by
  rw [statement, statement]
  exact statementWith_alike hL (nested_alike hL s.rest s'.rest) h

theorem strayBrace_alike (hL : L.Respected) {s s' : State} (h : L.States s s') :
    L.Replies Eq (strayBrace s) (strayBrace s') :=
  h.eatOr hL (h.done rfl) fun _ _ _ _ _ _ _ hAfter => hAfter.done rfl

theorem recoverOutside_alike (hL : L.Respected) {s s' : State} {e e' : ParseError}
    (h : L.States s s') (he : L.Faults e e') :
    L.States (recoverOutside s e) (recoverOutside s' e') :=
  (strayBrace_alike hL (h.recover hL he)).state

theorem topStatements_alike (hL : L.Respected) {s s' : State} (h : L.States s s') :
    L.Replies (List.Forall₂ L.Ids) (topStatements s) (topStatements s') := by
  rw [topStatements, topStatements]
  by_cases hEnd : s.AtEnd
  · rw [dif_pos hEnd, dif_pos ((h.atEnd_iff hL).mpr hEnd)]
    exact h.done .nil
  · rw [dif_neg hEnd, dif_neg (mt (h.atEnd_iff hL).mp hEnd)]
    have hStatement := statement_alike hL h
    refine ((hStatement.orRecover (recoverOutside_alike hL)).andThen
      fun found found' t t' _ _ hFound ht => ?_).relax
    refine (topStatements_alike hL ht).bind fun more more' u u' _ _ hMore hu => ?_
    exact hu.done (forall₂_found hFound hMore)
termination_by s.left

/-- Parses of two lists of tokens that are alike. -/
theorem parse_likeness (hL : L.Respected) {ts ts' : List Token}
    (h : L.States (.initial ts) (.initial ts')) (hOrigin : L.Spans .origin .origin) :
    L.Ids (parse ts).root (parse ts').root ∧ L.Tables (parse ts).table (parse ts').table ∧
      L.Errors (parse ts).errors.toArray (parse ts').errors.toArray := by
  have hReply := topStatements_alike hL h
  have hIds : List.Forall₂ L.Ids ((topStatements (.initial ts)).result.toOption.getD [])
      ((topStatements (.initial ts')).result.toOption.getD []) := by
    obtain ⟨e, e', hError, hError', -⟩ | ⟨ids, ids', hOk, hOk', hIds⟩ := hReply.cases
    · rw [hError, hError']
      exact .nil
    · rw [hOk, hOk']
      exact hIds
  have hRun := hL.addRun hReply.state.table hOrigin hIds
  exact ⟨hRun.added, hRun.table, hReply.state.errors⟩

end Grammar

/-! ## Tokens that differ in names and spans -/

/-- Errors that ask for the same and found alike tokens. -/
structure ParseError.Alike (R : Name → Name → Prop) (e e' : ParseError) : Prop where
  expected : e'.expected = e.expected
  found : e.found.kind.Alike R e'.found.kind

namespace Grammar

/-- Data that differs in spans of any kind and in names that are related. -/
def upToNames (R : Name → Name → Prop) (start : Nat) : Likeness where
  Names := R
  Tokens x y := x.kind.Alike R y.kind
  Spans _ _ := True
  Ids := Eq
  ArgSlices := Eq
  ParamSlices := Eq
  Tables := NodeTable.Alike R
  Errors errors errors' := List.Forall₂ (ParseError.Alike R) errors.toList errors'.toList
  start := start

variable {R : Name → Name → Prop} {start : Nat}

theorem form_alike {form form' : Form} (h : (upToNames R start).Forms form form') :
    form.Alike R form' := by
  cases h with
  | ref hName => exact .ref hName
  | declare hName hValue => exact hValue ▸ .declare hName
  | assign hName hValue => exact hValue ▸ .assign hName
  | int | bool | null => exact .other rfl
  | print hArgument => exact hArgument ▸ .other rfl
  | binary op hLeft hRight => exact hLeft ▸ hRight ▸ .other rfl
  | branch hCondition hConsequent hAlternative =>
    cases hAlternative with
    | none => exact hCondition ▸ hConsequent ▸ .other rfl
    | some hSame => exact hCondition ▸ hConsequent ▸ hSame ▸ .other rfl
  | loop hCondition hBody => exact hCondition ▸ hBody ▸ .other rfl
  | sequence hFirst hSecond => exact hFirst ▸ hSecond ▸ .other rfl
  | function hParams hBody => exact hParams ▸ hBody ▸ .other rfl
  | call hCallee hArgs => exact hCallee ▸ hArgs ▸ .other rfl

theorem upToNames_respected (R : Name → Name → Prop) (start : Nat) :
    (upToNames R start).Respected where
  kind h := h
  span _ := trivial
  merge _ _ := trivial
  spanOf _ _ := trivial
  node h hForm _ := by
    obtain ⟨hNumber, hTable⟩ := NodeTable.addNode_alike h (form_alike hForm) _ _
    exact ⟨hNumber.symm, hTable⟩
  args {t t' ids ids'} h hIds := by
    have hSame : List.Forall₂ Eq ids ids' := hIds
    rw [List.forall₂_eq_eq_eq] at hSame
    obtain ⟨hSlice, hTable⟩ := NodeTable.addArgs_alike h ids
    exact hSame ▸ ⟨hSlice.symm, hTable⟩
  params h hNames := by
    obtain ⟨hSlice, hTable⟩ := NodeTable.addParams_alike h hNames
    exact ⟨hSlice.symm, hTable⟩
  push {errors errors' e e'} h he := by
    have hLast : List.Forall₂ (ParseError.Alike R) [e] [e'] := .cons ⟨he.expected, he.found⟩ .nil
    have hAll := List.rel_append h hLast
    simpa [upToNames] using hAll

/-- Tokens of alike kinds are aligned. -/
theorem aligned_upToNames {ts ts' : List Token} (h : TokensAlike R ts ts') :
    (upToNames R start).Aligned ts ts' := by
  induction h with
  | nil => exact .stop rfl (.other rfl)
  | @cons x y ts ts' hKind _ ih =>
    by_cases hEnd : x.kind = .endOfFile
    · exact .stop hEnd hKind
    · exact .next hEnd hKind ih

end Grammar

/-- Parses with alike tables, the same root and alike errors. -/
structure Parsed.Alike (R : Name → Name → Prop) (p p' : Parsed) : Prop where
  table : p.table.Alike R p'.table
  root : p'.root = p.root
  errors : List.Forall₂ (ParseError.Alike R) p.errors p'.errors

/-- Alike tokens have alike parses. -/
theorem parse_alike {R : Name → Name → Prop} {ts ts' : List Token} (h : TokensAlike R ts ts') :
    (parse ts).Alike R (parse ts') := by
  have hStart : (Grammar.upToNames R ts.length).States (.initial ts) (.initial ts') :=
    ⟨Grammar.aligned_upToNames h, fun _ => trivial, Nat.le_refl _, NodeTable.alike_empty, .nil⟩
  obtain ⟨hRoot, hTable, hErrors⟩ :=
    Grammar.parse_likeness (Grammar.upToNames_respected R ts.length) hStart trivial
  exact ⟨hTable, hRoot.symm, hErrors⟩

end FeatherScript
