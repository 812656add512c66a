import FeatherScript.Proofs.Grammar.Lookahead
import FeatherScript.Proofs.Tree.Unfolding

/-!
# Clean readings are words

What is read without an error between two places is a word of the phrase that was asked for, in
which every `else` belongs to the nearest open branch, and the node that stands for it unfolds to
the tree of that phrase.

* `expression_yields`, `statement_yields`: the two readings that all others are made of.
* `topStatements_yields`: the statements of a whole program.
-/

namespace FeatherScript.Grammar

open NodeTable

/-- Every clean reading of a reply is a word of a phrase, with the tree of the node read. -/
def Reply.Yields {strict : Bool} {s : State} (r : Reply strict s NodeId)
    (phrase : Tree → Phrase) : Prop :=
  ∀ id t, r.Reads id t →
    ∃ tree, t.table.tree? id = some tree ∧ Derives .nearest (phrase tree) s.place t.place

/-- Several nodes unfold to several trees. -/
abbrev TreesOf (t : NodeTable) (ids : List NodeId) (trees : List Tree) : Prop :=
  List.Forall₂ (fun id tree => t.tree? id = some tree) ids trees

theorem treesOf_of_grows {t u : NodeTable} {ids : List NodeId} {trees : List Tree}
    (h : t.Grows u) (hTrees : TreesOf t ids trees) : TreesOf u ids trees :=
  hTrees.imp fun _ _ => tree?_of_grows h

/-- Every clean reading of the nested expressions and statements is a word. -/
structure Below.Sound {bound : List Token} (below : Below bound) : Prop where
  expression : ∀ s hBound, (below.expression s hBound).Yields .expression
  statement : ∀ s hBound, (below.statement s hBound).Yields .statement

variable {bound : List Token} {below : Below bound}

/-! ## Blocks -/

theorem statements_yields (hBelow : below.Sound) {s t : State} {hBound : s.left < bound.length}
    {ids : List NodeId} (h : (statements below s hBound).Reads ids t) :
    ∃ trees, TreesOf t.table ids trees ∧
      Derives .nearest (.statements trees) s.place t.place := by
  rw [statements] at h
  split at h
  · obtain ⟨rfl, rfl⟩ := Reply.reads_done.mp h
    exact ⟨[], .nil, .noStatements⟩
  · obtain ⟨found, u, hLess, hFound, h⟩ := Reply.reads_andThen.mp (Reply.reads_relax.mp h)
    obtain ⟨more, v, -, hMore, h⟩ := Reply.reads_bind.mp h
    obtain ⟨rfl, rfl⟩ := Reply.reads_done.mp h
    obtain ⟨id, rfl, hId⟩ := Reply.reads_orRecover.mp hFound
    obtain ⟨tree, hTree, hDerives⟩ := hBelow.statement _ _ id u hId
    obtain ⟨trees, hTrees, hRest⟩ := statements_yields hBelow hMore
    exact ⟨tree :: trees, .cons (tree?_of_grows hMore.advances.table hTree) hTrees,
      .moreStatements hDerives hRest⟩
termination_by s.left

theorem block_yields (hBelow : below.Sound) {s : State} {hBound : s.left < bound.length} :
    (block below s hBound).Yields .block := by
  intro id t h
  rcases State.reads_eatOr.mp h with ⟨opening, s₁, hOpen, hLess, h⟩ | ⟨-, h⟩
  · obtain ⟨ids, s₂, -, hIds, h⟩ := Reply.reads_bind.mp h
    obtain ⟨closing, s₃, -, hClose, h⟩ := Reply.reads_andThen.mp h
    have hClose := State.reads_expect.mp hClose
    obtain ⟨rfl, rfl⟩ := State.reads_build.mp h
    obtain ⟨trees, hTrees, hDerives⟩ := statements_yields hBelow hIds
    rw [← hClose.table] at hTrees
    exact ⟨_, tree?_addRun hTrees, .braces hOpen.place hDerives hClose.place⟩
  · obtain ⟨tree, hTree, hDerives⟩ := hBelow.statement s hBound id t h
    exact ⟨tree, hTree, .single hDerives⟩

/-! ## Functions and primaries -/

theorem paramNames_yields {s t : State} {names : List Name} (h : (paramNames s).Reads names t) :
    Derives .nearest (.paramList names) s.place t.place := by
  rw [paramNames] at h
  obtain ⟨name, u, hLess, hName, h⟩ := Reply.reads_andThen.mp h
  obtain ⟨span, hTakes⟩ := State.reads_expectName.mp hName
  rcases State.reads_eatOr.mp h with ⟨comma, v, hComma, hLess', h⟩ | ⟨-, h⟩
  · obtain ⟨more, w, -, hMore, h⟩ := Reply.reads_andThen.mp h
    obtain ⟨rfl, rfl⟩ := Reply.reads_done.mp h
    exact .nextParam hTakes.place hComma.place (paramNames_yields hMore)
  · obtain ⟨rfl, rfl⟩ := Reply.reads_done.mp h
    exact .lastParam hTakes.place
termination_by s.left

theorem params_yields {s t : State} {names : List Name} (h : (params s).Reads names t) :
    Derives .nearest (.params names) s.place t.place := by
  rw [params] at h
  split at h
  · obtain ⟨rfl, rfl⟩ := Reply.reads_done.mp h
    exact .noParams
  · exact .someParams (paramNames_yields (Reply.reads_relax.mp h))

theorem function_yields (hBelow : below.Sound) {s : State} {hBound : s.left ≤ bound.length}
    (hKind : s.kind = .keyword .kwFunction) : (function below s hBound).Yields .primary := by
  intro id t h
  obtain ⟨start, s₁, _, hStart, h⟩ := Reply.reads_andThen.mp h
  obtain ⟨kind, -, hFunction⟩ := State.reads_advance.mp hStart
  obtain rfl := hFunction.kind_eq.symm.trans hKind
  obtain ⟨name, s₂, _, hName, h⟩ := Reply.reads_bind.mp h
  obtain ⟨opening, s₃, _, hOpen, h⟩ := Reply.reads_andThen.mp h
  obtain ⟨names, s₄, _, hParams, h⟩ := Reply.reads_bind.mp h
  obtain ⟨close, s₅, _, hClose, h⟩ := Reply.reads_andThen.mp h
  obtain ⟨body, s₆, _, hBody, h⟩ := Reply.reads_andThen.mp h
  obtain ⟨rfl, rfl⟩ := State.reads_build.mp h
  obtain ⟨tree, hTree, hDerives⟩ := block_yields hBelow body s₆ hBody
  have hOptional : Derives .nearest (.functionName name) s₁.place s₂.place := by
    rcases State.reads_optionalName.mp hName with ⟨n, span, rfl, hTakes⟩ | ⟨-, rfl, rfl⟩
    · exact .functionName hTakes.place
    · exact .anonymous
  exact ⟨_, tree?_addFunction hTree, .function hFunction.place hOptional
    (State.reads_expect.mp hOpen).place (params_yields hParams)
    (State.reads_expect.mp hClose).place hDerives⟩

/-- A leaf is one token and one node. -/
theorem reads_leaf {s t : State} {form : Form} {id : NodeId} (h : (leaf s form).Reads id t) :
    ∃ span u, s.Takes s.kind span u ∧ u.place = t.place ∧ t.table = (u.table.addNode form span).2 ∧
      id = (u.table.addNode form span).1 := by
  obtain ⟨span, u, _, hStart, h⟩ := Reply.reads_andThen.mp h
  obtain ⟨kind, -, hTakes⟩ := State.reads_advance.mp hStart
  obtain ⟨rfl, rfl⟩ := State.reads_addNode.mp h
  exact ⟨span, u, hTakes.kind_eq ▸ hTakes, rfl, rfl, rfl⟩

theorem leaf_yields {s : State} {form : Form} {tree : Span → Tree} {phrase : Tree → Phrase}
    (hForm : ∀ (u : NodeTable) span,
      Unfolds u (fun id x => u.tree? id = some x) span form (tree span))
    (hPhrase : ∀ span q, Takes s.kind span s.place q →
      Derives .nearest (phrase (tree span)) s.place q) :
    (leaf s form).Yields phrase := by
  intro id t h
  obtain ⟨span, u, hTakes, hPlace, hTable, rfl⟩ := reads_leaf h
  refine ⟨tree span, ?_, hPlace ▸ hPhrase span u.place hTakes.place⟩
  rw [hTable]
  exact tree?_addNode (hForm u.table span)

theorem primary_yields (hBelow : below.Sound) {s : State} {hBound : s.left ≤ bound.length} :
    (primary below s hBound).Yields .primary := by
  rw [primary]
  split
  · next hKind => exact leaf_yields (fun _ _ => .bool true) fun _ _ h => .true (hKind ▸ h)
  · next hKind => exact leaf_yields (fun _ _ => .bool false) fun _ _ h => .false (hKind ▸ h)
  · next hKind => exact leaf_yields (fun _ _ => .null) fun _ _ h => .null (hKind ▸ h)
  · next hKind => exact function_yields hBelow hKind
  · next hKind =>
    intro id t h
    obtain ⟨start, s₁, _, hStart, h⟩ := Reply.reads_andThen.mp h
    obtain ⟨kind, -, hOpen⟩ := State.reads_advance.mp hStart
    obtain rfl := hOpen.kind_eq.symm.trans hKind
    obtain ⟨inner, s₂, _, hInner, h⟩ := Reply.reads_andThen.mp h
    obtain ⟨close, s₃, _, hClose, h⟩ := Reply.reads_andThen.mp h
    obtain ⟨rfl, rfl⟩ := Reply.reads_done.mp h
    have hClose := State.reads_expect.mp hClose
    obtain ⟨tree, hTree, hDerives⟩ := hBelow.expression _ _ id s₂ hInner
    rw [← hClose.table] at hTree
    exact ⟨tree, hTree, .parenthesized (.enclosed hOpen.place hDerives hClose.place)⟩
  · next name hKind => exact leaf_yields (fun _ _ => .ref name) fun _ _ h => .ref (hKind ▸ h)
  · next value hKind => exact leaf_yields (fun _ _ => .int value) fun _ _ h => .int (hKind ▸ h)
  · exact fun id t h => (Reply.not_reads_fail h).elim

/-! ## Calls -/

theorem argumentIds_yields (hBelow : below.Sound) {s t : State} {hBound : s.left < bound.length}
    {ids : List NodeId} (h : (argumentIds below s hBound).Reads ids t) :
    ∃ trees, TreesOf t.table ids trees ∧
      Derives .nearest (.argumentList trees) s.place t.place := by
  rw [argumentIds] at h
  obtain ⟨id, u, hLess, hId, h⟩ := Reply.reads_andThen.mp h
  obtain ⟨tree, hTree, hDerives⟩ := hBelow.expression s hBound id u hId
  rcases State.reads_eatOr.mp h with ⟨comma, v, hComma, hLess', h⟩ | ⟨-, h⟩
  · obtain ⟨more, w, -, hMore, h⟩ := Reply.reads_andThen.mp h
    obtain ⟨rfl, rfl⟩ := Reply.reads_done.mp h
    obtain ⟨trees, hTrees, hRest⟩ := argumentIds_yields hBelow hMore
    rw [← hComma.table] at hTree
    exact ⟨tree :: trees, .cons (tree?_of_grows hMore.advances.table hTree) hTrees,
      .nextArgument hDerives hComma.place hRest⟩
  · obtain ⟨rfl, rfl⟩ := Reply.reads_done.mp h
    exact ⟨[tree], .cons hTree .nil, .lastArgument hDerives⟩
termination_by s.left

theorem arguments_yields (hBelow : below.Sound) {s t : State} {hBound : s.left < bound.length}
    {ids : List NodeId} (h : (arguments below s hBound).Reads ids t) :
    ∃ trees, TreesOf t.table ids trees ∧
      Derives .nearest (.arguments trees) s.place t.place := by
  rw [arguments] at h
  split at h
  · obtain ⟨rfl, rfl⟩ := Reply.reads_done.mp h
    exact ⟨[], .nil, .noArguments⟩
  · obtain ⟨trees, hTrees, hDerives⟩ := argumentIds_yields hBelow (Reply.reads_relax.mp h)
    exact ⟨trees, hTrees, .someArguments hDerives⟩

theorem callSuffixes_yields (hBelow : below.Sound) {s t : State} {hBound : s.left ≤ bound.length}
    {callee id : NodeId} {f : Tree} (hCallee : s.table.tree? callee = some f)
    (h : (callSuffixes below callee s hBound).Reads id t) :
    ∃ suffixes, t.table.tree? id = some (f.calls suffixes) ∧
      Derives .nearest (.calls suffixes) s.place t.place := by
  rw [callSuffixes] at h
  rcases State.reads_eatOr.mp h with ⟨opening, s₁, hOpen, hLess, h⟩ | ⟨-, h⟩
  · obtain ⟨args, s₂, hLeft, hArgs, h⟩ := Reply.reads_bind.mp h
    obtain ⟨close, s₃, hLess', hClose, h⟩ := Reply.reads_andThen.mp h
    obtain ⟨call, s₄, hLeft', hCall, h⟩ := Reply.reads_bind.mp h
    have hClose := State.reads_expect.mp hClose
    obtain ⟨rfl, rfl⟩ := State.reads_build.mp hCall
    obtain ⟨trees, hTrees, hDerives⟩ := arguments_yields hBelow hArgs
    have hCallee' : s₃.table.tree? callee = some f := by
      rw [hClose.table]
      exact tree?_of_grows hArgs.advances.table (hOpen.table ▸ hCallee)
    rw [← hClose.table] at hTrees
    obtain ⟨suffixes, hTree, hRest⟩ :=
      callSuffixes_yields hBelow (tree?_addCall hCallee' hTrees) h
    exact ⟨(trees, close) :: suffixes, hTree, .moreCalls hOpen.place hDerives hClose.place hRest⟩
  · obtain ⟨rfl, rfl⟩ := Reply.reads_done.mp h
    exact ⟨[], hCallee, .noCalls⟩
termination_by s.left

theorem postfixExpr_yields (hBelow : below.Sound) {s : State} {hBound : s.left ≤ bound.length} :
    (postfixExpr below s hBound).Yields .application := by
  intro id t h
  obtain ⟨callee, s₁, _, hPrimary, h⟩ := Reply.reads_andThen.mp h
  obtain ⟨f, hCallee, hDerives⟩ := primary_yields hBelow callee s₁ hPrimary
  obtain ⟨suffixes, hTree, hRest⟩ := callSuffixes_yields hBelow hCallee h
  exact ⟨_, hTree, .application hDerives hRest⟩

/-! ## Binary operators -/

variable {l : Level} {operand : (s : State) → s.left ≤ bound.length → Reply true s NodeId}

theorem operations_yields (hOperand : ∀ s hBound, (operand s hBound).Yields l.operand)
    {s t : State} {hBound : s.left ≤ bound.length} {left id : NodeId} {a : Tree}
    (hTree : s.table.tree? left = some a)
    (h : (operations l.operatorOf? operand left s hBound).Reads id t) :
    ∃ ops, t.table.tree? id = some (a.operations ops) ∧
      Derives .nearest (.operations l ops) s.place t.place := by
  rw [operations] at h
  rcases State.reads_takeOr.mp h with ⟨op, kind, sign, s₁, hSign, -, hOp, hLess, h⟩ | ⟨-, h⟩
  · obtain ⟨right, s₂, hLess', hRight, h⟩ := Reply.reads_andThen.mp h
    obtain ⟨whole, s₃, hLeft, hWhole, h⟩ := Reply.reads_bind.mp h
    obtain ⟨rfl, rfl⟩ := State.reads_build.mp hWhole
    obtain ⟨b, hB, hDerives⟩ := hOperand _ _ right s₂ hRight
    obtain ⟨rfl, hLevel⟩ := Level.operatorOf?_eq_some_iff.mp hOp
    have hA : s₂.table.tree? left = some a :=
      tree?_of_grows hRight.advances.table (hSign.table ▸ hTree)
    obtain ⟨ops, hOps, hRest⟩ := operations_yields hOperand (tree?_addBinary hA hB) h
    exact ⟨(op, b) :: ops, hOps, .moreOperations hLevel hSign.place hDerives hRest⟩
  · obtain ⟨rfl, rfl⟩ := Reply.reads_done.mp h
    exact ⟨[], hTree, .noOperations⟩
termination_by s.left

theorem binaryLevel_yields (hOperand : ∀ s hBound, (operand s hBound).Yields l.operand)
    {s : State} {hBound : s.left ≤ bound.length} :
    (binaryLevel l.operatorOf? operand s hBound).Yields (.level l) := by
  intro id t h
  obtain ⟨left, s₁, _, hLeft, h⟩ := Reply.reads_andThen.mp h
  obtain ⟨a, hTree, hDerives⟩ := hOperand s hBound left s₁ hLeft
  obtain ⟨ops, hOps, hRest⟩ := operations_yields hOperand hTree h
  exact ⟨_, hOps, .level hDerives hRest⟩

theorem comparison_yields (hBelow : below.Sound) {s : State} {hBound : s.left ≤ bound.length} :
    (comparison below s hBound).Yields (.level .comparison) := by
  have hMultiplicative : ∀ s hBound,
      (multiplicative below s hBound).Yields (.level .multiplication) :=
    fun _ _ => binaryLevel_yields (l := .multiplication) fun _ _ => postfixExpr_yields hBelow
  have hAdditive : ∀ s hBound, (additive below s hBound).Yields (.level .addition) :=
    fun _ _ => binaryLevel_yields (l := .addition) hMultiplicative
  exact binaryLevel_yields (l := .comparison) hAdditive

/-! ## Declarations and assignments -/

theorem declaration_yields (hBelow : below.Sound) {s : State} {hBound : s.left ≤ bound.length}
    (hKind : s.kind = .keyword .kwVar) : (declaration below s hBound).Yields .expression := by
  intro id t h
  obtain ⟨start, s₁, _, hStart, h⟩ := Reply.reads_andThen.mp h
  obtain ⟨kind, -, hVar⟩ := State.reads_advance.mp hStart
  obtain rfl := hVar.kind_eq.symm.trans hKind
  obtain ⟨name, s₂, _, hName, h⟩ := Reply.reads_andThen.mp h
  obtain ⟨span, hName⟩ := State.reads_expectName.mp hName
  obtain ⟨sign, s₃, _, hSign, h⟩ := Reply.reads_andThen.mp h
  obtain ⟨value, s₄, _, hValue, h⟩ := Reply.reads_andThen.mp h
  obtain ⟨rfl, rfl⟩ := State.reads_addNode.mp h
  obtain ⟨tree, hTree, hDerives⟩ := hBelow.expression _ _ value s₄ hValue
  rw [State.spanOf, spanOf_of_tree? hTree]
  exact ⟨_, tree?_addNode (.declare hTree),
    .declaration hVar.place hName.place (State.reads_expect.mp hSign).place hDerives⟩

theorem assignment_yields (hBelow : below.Sound) {s : State} {hBound : s.left ≤ bound.length}
    {name : Name} (hKind : s.kind = .ident name) :
    (assignment below name s hBound).Yields .expression := by
  intro id t h
  obtain ⟨start, s₁, _, hStart, h⟩ := Reply.reads_andThen.mp h
  obtain ⟨kind, -, hName⟩ := State.reads_advance.mp hStart
  obtain rfl := hName.kind_eq.symm.trans hKind
  obtain ⟨sign, s₂, _, hSign, h⟩ := Reply.reads_andThen.mp h
  obtain ⟨value, s₃, _, hValue, h⟩ := Reply.reads_andThen.mp h
  obtain ⟨rfl, rfl⟩ := State.reads_addNode.mp h
  obtain ⟨tree, hTree, hDerives⟩ := hBelow.expression _ _ value s₃ hValue
  rw [State.spanOf, spanOf_of_tree? hTree]
  exact ⟨_, tree?_addNode (.assign hTree),
    .assignment hName.place (State.reads_expect.mp hSign).place hDerives⟩

theorem expressionWith_yields (hBelow : below.Sound) {s : State}
    {hBound : s.left ≤ bound.length} : (expressionWith below s hBound).Yields .expression := by
  have hComparison : (comparison below s hBound).Yields .expression := by
    intro id t h
    obtain ⟨tree, hTree, hDerives⟩ := comparison_yields hBelow id t h
    exact ⟨tree, hTree, .comparison hDerives⟩
  rw [expressionWith]
  split
  · next hKind => exact declaration_yields hBelow hKind
  · next name hKind =>
    split
    · exact assignment_yields hBelow hKind
    · exact hComparison
  · exact hComparison

/-! ## Statements -/

theorem terminator_yields {s t : State} {a : Unit} (h : (terminator s).Reads a t) :
    t.table = s.table ∧ Derives .nearest .terminator s.place t.place := by
  rcases State.reads_eatOr.mp h with ⟨span, u, hSemicolon, hLess, h⟩ | ⟨-, h⟩
  · obtain ⟨-, rfl⟩ := Reply.reads_done.mp h
    exact ⟨hSemicolon.table, .semicolon hSemicolon.place⟩
  · split at h
    · next hClose =>
      obtain ⟨-, rfl⟩ := Reply.reads_done.mp h
      exact ⟨rfl, .beforeClose hClose⟩
    · exact (Reply.not_reads_fail h).elim

theorem parenthesized_yields (hBelow : below.Sound) {s t : State}
    {hBound : s.left ≤ bound.length} {inner : NodeId × Span}
    (h : (parenthesized below s hBound).Reads inner t) :
    ∃ tree, t.table.tree? inner.1 = some tree ∧
      Derives .nearest (.enclosed tree inner.2) s.place t.place := by
  obtain ⟨opening, s₁, _, hOpen, h⟩ := Reply.reads_andThen.mp h
  obtain ⟨id, s₂, _, hInner, h⟩ := Reply.reads_andThen.mp h
  obtain ⟨close, s₃, _, hClose, h⟩ := Reply.reads_andThen.mp h
  obtain ⟨rfl, rfl⟩ := Reply.reads_done.mp h
  have hClose := State.reads_expect.mp hClose
  obtain ⟨tree, hTree, hDerives⟩ := hBelow.expression _ _ id s₂ hInner
  rw [← hClose.table] at hTree
  exact ⟨tree, hTree, .enclosed (State.reads_expect.mp hOpen).place hDerives hClose.place⟩

theorem alternative_yields (hBelow : below.Sound) {s t : State}
    {hBound : s.left < bound.length} {other : Option NodeId}
    (h : (alternative below s hBound).Reads other t) :
    (other = none ∧ t = s ∧ Derives .nearest (.alternative none) s.place t.place) ∨
    ∃ id tree, other = some id ∧ t.table.tree? id = some tree ∧
      Derives .nearest (.alternative (some tree)) s.place t.place := by
  rcases State.reads_takeOr.mp h with ⟨a, kind, span, s₁, hElse, -, hRead, hLess, h⟩ | ⟨hOther, h⟩
  · obtain ⟨rfl, -⟩ := Option.ite_none_right_eq_some.mp hRead
    obtain ⟨id, s₂, _, hBlock, h⟩ := Reply.reads_andThen.mp h
    obtain ⟨rfl, rfl⟩ := Reply.reads_done.mp h
    obtain ⟨tree, hTree, hDerives⟩ := block_yields hBelow id t hBlock
    exact .inr ⟨id, tree, rfl, hTree, .alternative hElse.place hDerives⟩
  · obtain ⟨rfl, rfl⟩ := Reply.reads_done.mp h
    refine .inl ⟨rfl, rfl, .noAlternative fun _ hElse => ?_⟩
    rw [State.kind_place] at hElse
    rw [hElse] at hOther
    simp at hOther

theorem branch_yields (hBelow : below.Sound) {s : State} {hBound : s.left ≤ bound.length}
    (hKind : s.kind = .keyword .kwIf) : (branch below s hBound).Yields .statement := by
  intro id t h
  obtain ⟨start, s₁, _, hStart, h⟩ := Reply.reads_andThen.mp h
  obtain ⟨kind, -, hIf⟩ := State.reads_advance.mp hStart
  obtain rfl := hIf.kind_eq.symm.trans hKind
  obtain ⟨condition, s₂, _, hCondition, h⟩ := Reply.reads_andThen.mp h
  obtain ⟨consequent, s₃, _, hConsequent, h⟩ := Reply.reads_andThen.mp h
  obtain ⟨other, s₄, _, hOther, h⟩ := Reply.reads_bind.mp h
  obtain ⟨rfl, rfl⟩ := State.reads_addNode.mp h
  obtain ⟨c, hC, hEnclosed⟩ := parenthesized_yields hBelow hCondition
  obtain ⟨a, hA, hBlock⟩ := block_yields hBelow consequent s₃ hConsequent
  have hA := tree?_of_grows hOther.advances.table hA
  have hC := tree?_of_grows (hConsequent.advances.trans hOther.advances).table hC
  rcases alternative_yields hBelow hOther with ⟨rfl, rfl, hNone⟩ | ⟨other, b, rfl, hB, hSome⟩
  · exact ⟨_, tree?_addNode (.branch hC hA), .branch hIf.place hEnclosed hBlock hNone⟩
  · exact ⟨_, tree?_addNode (.branchElse hC hA hB), .branch hIf.place hEnclosed hBlock hSome⟩

theorem loop_yields (hBelow : below.Sound) {s : State} {hBound : s.left ≤ bound.length}
    (hKind : s.kind = .keyword .kwWhile) : (loop below s hBound).Yields .statement := by
  intro id t h
  obtain ⟨start, s₁, _, hStart, h⟩ := Reply.reads_andThen.mp h
  obtain ⟨kind, -, hWhile⟩ := State.reads_advance.mp hStart
  obtain rfl := hWhile.kind_eq.symm.trans hKind
  obtain ⟨condition, s₂, _, hCondition, h⟩ := Reply.reads_andThen.mp h
  obtain ⟨body, s₃, _, hBody, h⟩ := Reply.reads_andThen.mp h
  obtain ⟨rfl, rfl⟩ := State.reads_addNode.mp h
  obtain ⟨c, hC, hEnclosed⟩ := parenthesized_yields hBelow hCondition
  obtain ⟨b, hB, hBlock⟩ := block_yields hBelow body s₃ hBody
  have hC := tree?_of_grows hBody.advances.table hC
  exact ⟨_, tree?_addNode (.loop hC hB), .loop hWhile.place hEnclosed hBlock⟩

theorem printing_yields (hBelow : below.Sound) {s : State} {hBound : s.left ≤ bound.length}
    (hKind : s.kind = .keyword .kwPrint) : (printing below s hBound).Yields .statement := by
  intro id t h
  obtain ⟨start, s₁, _, hStart, h⟩ := Reply.reads_andThen.mp h
  obtain ⟨kind, -, hPrint⟩ := State.reads_advance.mp hStart
  obtain rfl := hPrint.kind_eq.symm.trans hKind
  obtain ⟨argument, s₂, _, hArgument, h⟩ := Reply.reads_andThen.mp h
  obtain ⟨_, s₃, _, hEnd, h⟩ := Reply.reads_bind.mp h
  obtain ⟨rfl, rfl⟩ := State.reads_addNode.mp h
  obtain ⟨a, hA, hEnclosed⟩ := parenthesized_yields hBelow hArgument
  obtain ⟨hTable, hTerminator⟩ := terminator_yields hEnd
  rw [← hTable] at hA
  exact ⟨_, tree?_addNode (.print hA), .printing hPrint.place hEnclosed hTerminator⟩

theorem statementWith_yields (hBelow : below.Sound) {s : State} {hBound : s.left ≤ bound.length} :
    (statementWith below s hBound).Yields .statement := by
  rw [statementWith]
  split
  · next hKind => exact branch_yields hBelow hKind
  · next hKind => exact loop_yields hBelow hKind
  · next hKind => exact printing_yields hBelow hKind
  · next hKind => exact leaf_yields (fun _ _ => .null) fun _ _ h => .emptyStatement (hKind ▸ h)
  · intro id t h
    obtain ⟨whole, s₁, _, hExpression, h⟩ := Reply.reads_andThen.mp h
    obtain ⟨_, s₂, _, hEnd, h⟩ := Reply.reads_bind.mp h
    obtain ⟨rfl, rfl⟩ := Reply.reads_done.mp h
    obtain ⟨tree, hTree, hDerives⟩ := expressionWith_yields hBelow _ s₁ hExpression
    obtain ⟨hTable, hTerminator⟩ := terminator_yields hEnd
    rw [← hTable] at hTree
    exact ⟨tree, hTree, .expressionStatement hDerives hTerminator⟩

/-! ## Programs -/

/-- Nested readings are those of expressions and statements themselves. -/
def nested (bound : List Token) : Below bound :=
  { expression := fun t _ => expression t, statement := fun t _ => statement t }

theorem nested_sound (bound : List Token) : (nested bound).Sound := by
  induction hLength : bound.length using Nat.strongRecOn generalizing bound with
  | ind n ih =>
    have hRest : ∀ s : State, s.left < bound.length → (nested s.rest).Sound :=
      fun s hBound => ih s.left (hLength ▸ hBound) s.rest rfl
    constructor
    · intro s hBound
      rw [show (nested bound).expression s hBound = expression s from rfl, expression]
      exact expressionWith_yields (hRest s hBound)
    · intro s hBound
      rw [show (nested bound).statement s hBound = statement s from rfl, statement]
      exact statementWith_yields (hRest s hBound)

theorem statement_yields (s : State) : (statement s).Yields .statement := by
  rw [statement]
  exact statementWith_yields (nested_sound s.rest)

theorem topStatements_yields {s t : State} {ids : List NodeId}
    (h : (topStatements s).Reads ids t) :
    ∃ trees, TreesOf t.table ids trees ∧
      Derives .nearest (.statements trees) s.place t.place := by
  rw [topStatements] at h
  split at h
  · obtain ⟨rfl, rfl⟩ := Reply.reads_done.mp h
    exact ⟨[], .nil, .noStatements⟩
  · obtain ⟨found, u, hLess, hFound, h⟩ := Reply.reads_andThen.mp (Reply.reads_relax.mp h)
    obtain ⟨more, v, -, hMore, h⟩ := Reply.reads_bind.mp h
    obtain ⟨rfl, rfl⟩ := Reply.reads_done.mp h
    obtain ⟨id, rfl, hId⟩ := Reply.reads_orRecover.mp hFound
    obtain ⟨tree, hTree, hDerives⟩ := statement_yields s id u hId
    obtain ⟨trees, hTrees, hRest⟩ := topStatements_yields hMore
    exact ⟨tree :: trees, .cons (tree?_of_grows hMore.advances.table hTree) hTrees,
      .moreStatements hDerives hRest⟩
termination_by s.left

end FeatherScript.Grammar
