import FeatherScript.Proofs.Grammar.Soundness

/-!
# Words are read cleanly

Where a word of a phrase stands, in which every `else` belongs to the nearest open branch, and the
token after it is one before which the phrase ends, there the phrase is read without an error, up to
the end of that word, and as the tree of that word.

* `Reply.Accepts`: a clean reading up to a given place, with a given meaning.
* `Phrase.Accepted`: what reading makes of a word, for each phrase.
* `accepted_of_derives`: every word is read so, by induction on its derivation.
* `topStatements_accepts`: the statements of a whole program.
-/

namespace FeatherScript.Grammar

open NodeTable
open TokenKind (int_ne_end ident_ne_end keyword_ne_end symbol_ne_end)

/-! ## Meanings -/

/-- A reply reads up to a place something with a certain meaning in the table then. -/
def Reply.Accepts {α : Type} {strict : Bool} {s : State} (r : Reply strict s α) (q : Place)
    (means : NodeTable → α → Prop) : Prop :=
  ∃ a t, r.Reads a t ∧ t.place = q ∧ means t.table a

/-- A node stands for a tree. -/
def IsTree (tree : Tree) (t : NodeTable) (id : NodeId) : Prop := t.tree? id = some tree

/-- Several nodes stand for several trees. -/
def AreTrees (trees : List Tree) (t : NodeTable) (ids : List NodeId) : Prop := TreesOf t ids trees

/-- A node, or the lack of one, stands for a tree or the lack of one. -/
inductive MayBeTree (t : NodeTable) : Option Tree → Option NodeId → Prop
  | none : MayBeTree t none none
  | some {tree id} (hTree : t.tree? id = some tree) : MayBeTree t (some tree) (some id)

/-- The data read is this, whatever the table. -/
def Is {α : Type} (a : α) (_ : NodeTable) (b : α) : Prop := b = a

namespace Reply.Accepts

variable {α β : Type} {s : State} {strict : Bool} {p q : Place} {M : NodeTable → α → Prop}
  {N : NodeTable → β → Prop}

theorem andThen {r : Reply true s α}
    {next : α → (u : State) → u.left < s.left → Reply strict u β} (h : r.Accepts p M)
    (hNext : ∀ a u hLeft, s.table.Grows u.table → u.place = p → M u.table a →
      (next a u hLeft).Accepts q N) : (r.andThen next).Accepts q N := by
  obtain ⟨a, u, hReads, hPlace, hMeans⟩ := h
  have hLeft : u.left < s.left := by
    rw [← hReads.state]
    exact r.consumes rfl (by rw [hReads.result]; rfl)
  obtain ⟨b, t, hNextReads, hEnd⟩ := hNext a u hLeft hReads.advances.table hPlace hMeans
  exact ⟨b, t, Reply.reads_andThen.mpr ⟨a, u, hLeft, hReads, hNextReads⟩, hEnd⟩

theorem bind {r : Reply false s α}
    {next : α → (u : State) → u.left ≤ s.left → Reply strict u β} (h : r.Accepts p M)
    (hNext : ∀ a u hLeft, s.table.Grows u.table → u.place = p → M u.table a →
      (next a u hLeft).Accepts q N) : (r.bind next).Accepts q N := by
  obtain ⟨a, u, hReads, hPlace, hMeans⟩ := h
  have hLeft := hReads.advances.left_le
  obtain ⟨b, t, hNextReads, hEnd⟩ := hNext a u hLeft hReads.advances.table hPlace hMeans
  exact ⟨b, t, Reply.reads_bind.mpr ⟨a, u, hLeft, hReads, hNextReads⟩, hEnd⟩

theorem done {a : α} (hMeans : M s.table a) (hPlace : s.place = q) :
    (Reply.done a : Reply false s α).Accepts q M :=
  ⟨a, s, Reply.reads_done.mpr ⟨rfl, rfl⟩, hPlace, hMeans⟩

theorem relax {r : Reply strict s α} (h : r.Accepts q M) : r.relax.Accepts q M := by
  obtain ⟨a, t, hReads, hEnd⟩ := h
  exact ⟨a, t, Reply.reads_relax.mpr hReads, hEnd⟩

theorem orRecover {r : Reply true s α} {recover : State → ParseError → State}
    {hRecover : ∀ (t : State) e, (t.record e).Advances (recover t e)}
    {hLess : ∀ (t : State) e, t.rest = s.rest → (recover t e).left < t.left}
    (h : r.Accepts q M) :
    (r.orRecover recover hRecover hLess).Accepts q fun t found => ∃ a, found = some a ∧ M t a := by
  obtain ⟨a, t, hReads, hPlace, hMeans⟩ := h
  exact ⟨some a, t, Reply.reads_orRecover.mpr ⟨a, rfl, hReads⟩, hPlace, a, rfl, hMeans⟩

end Reply.Accepts

namespace State

variable {α β : Type} {s : State} {strict inner : Bool} {p q : Place} {kind : TokenKind}
  {span : Span} {N : NodeTable → β → Prop}

theorem takeOr_accepts {read : TokenKind → Option α} {otherwise : Reply strict s β}
    {next : α → Span → (u : State) → u.left < s.left → Reply inner u β} {a : α}
    (hTakes : Grammar.Takes kind span s.place p) (hMore : kind ≠ .endOfFile)
    (hRead : read kind = some a)
    (hNext : ∀ u hLeft, u.table = s.table → u.place = p → (next a span u hLeft).Accepts q N) :
    (s.takeOr read otherwise next).Accepts q N := by
  obtain ⟨u, hTakes, hPlace⟩ := takes_of_place hTakes
  obtain ⟨b, t, hReads, hEnd⟩ := hNext u hTakes.left_lt hTakes.table hPlace
  exact ⟨b, t, reads_takeOr.mpr
    (.inl ⟨a, kind, span, u, hTakes, hMore, hRead, hTakes.left_lt, hReads⟩), hEnd⟩

theorem takeOr_accepts_otherwise {read : TokenKind → Option α} {otherwise : Reply strict s β}
    {next : α → Span → (u : State) → u.left < s.left → Reply inner u β}
    (hOther : read s.kind = none) (h : otherwise.Accepts q N) :
    (s.takeOr read otherwise next).Accepts q N := by
  obtain ⟨b, t, hReads, hEnd⟩ := h
  exact ⟨b, t, reads_takeOr.mpr (.inr ⟨.inr hOther, hReads⟩), hEnd⟩

theorem eatOr_accepts {sign : Symbol} {otherwise : Reply strict s β}
    {next : Span → (u : State) → u.left < s.left → Reply inner u β}
    (hTakes : Grammar.Takes (.symbol sign) span s.place p)
    (hNext : ∀ u hLeft, u.table = s.table → u.place = p → (next span u hLeft).Accepts q N) :
    (s.eatOr sign otherwise next).Accepts q N :=
  takeOr_accepts (a := ()) hTakes (symbol_ne_end _) (symbolOf?_eq_some_iff.mpr rfl) hNext

theorem eatOr_accepts_otherwise {sign : Symbol} {otherwise : Reply strict s β}
    {next : Span → (u : State) → u.left < s.left → Reply inner u β}
    (hOther : s.kind ≠ .symbol sign) (h : otherwise.Accepts q N) :
    (s.eatOr sign otherwise next).Accepts q N :=
  takeOr_accepts_otherwise (if_neg hOther) h

theorem advance_accepts {expected : Expectation} (hTakes : Grammar.Takes kind span s.place q)
    (hMore : kind ≠ .endOfFile) : (s.advance expected).Accepts q (Is span) := by
  obtain ⟨t, hTakes, hPlace⟩ := takes_of_place hTakes
  exact ⟨span, t, reads_advance.mpr ⟨kind, hMore, hTakes⟩, hPlace, rfl⟩

theorem expect_accepts {sign : Symbol} {expected : Expectation}
    (hTakes : Grammar.Takes (.symbol sign) span s.place q) :
    (s.expect sign expected).Accepts q (Is span) := by
  obtain ⟨t, hTakes, hPlace⟩ := takes_of_place hTakes
  exact ⟨span, t, reads_expect.mpr hTakes, hPlace, rfl⟩

theorem expectName_accepts {name : Name} (hTakes : Grammar.Takes (.ident name) span s.place q) :
    s.expectName.Accepts q (Is name) := by
  obtain ⟨t, hTakes, hPlace⟩ := takes_of_place hTakes
  exact ⟨name, t, reads_expectName.mpr ⟨span, hTakes⟩, hPlace, rfl⟩

theorem addNode_accepts {form : Form} {tree : Tree}
    (hTree : Unfolds s.table (fun id x => s.table.tree? id = some x) span form tree) :
    (s.addNode form span).Accepts s.place (IsTree tree) :=
  ⟨_, _, reads_addNode.mpr ⟨rfl, rfl⟩, rfl, tree?_addNode hTree⟩

theorem build_accepts {f : NodeTable → NodeId × NodeTable}
    {hGrows : ∀ u : NodeTable, u.Grows (f u).2} {tree : Tree}
    (hTree : (f s.table).2.tree? (f s.table).1 = some tree) :
    (s.build f hGrows).Accepts s.place (IsTree tree) :=
  ⟨_, _, reads_build.mpr ⟨rfl, rfl⟩, rfl, hTree⟩

end State

/-! ## Names -/

theorem paramNames_accepts {names : List Name} {p q : Place}
    (h : Derives .nearest (.paramList names) p q) (hEnd : q.kind = .symbol .rightParen) {s : State}
    (hPlace : s.place = p) : (paramNames s).Accepts q (Is names) := by
  generalize hPhrase : Phrase.paramList names = phrase at h
  induction h generalizing names s with
  | lastParam hName =>
    cases hPhrase
    rw [paramNames]
    refine (State.expectName_accepts (hPlace ▸ hName)).andThen fun name u _ _ hU hIs => ?_
    cases hIs
    refine State.eatOr_accepts_otherwise ?_ (.done rfl hU)
    rw [← State.kind_place, hU, hEnd]
    decide
  | nextParam hName hComma _ ih =>
    cases hPhrase
    rw [paramNames]
    refine (State.expectName_accepts (hPlace ▸ hName)).andThen fun name u _ _ hU hIs => ?_
    cases hIs
    refine State.eatOr_accepts (hU ▸ hComma) fun v _ _ hV => ?_
    refine (ih hEnd hV rfl).andThen fun more w _ _ hW hIs => ?_
    cases hIs
    exact .done rfl hW
  | _ => cases hPhrase

theorem params_accepts {names : List Name} {p q : Place}
    (h : Derives .nearest (.params names) p q) (hEnd : q.kind = .symbol .rightParen) {s : State}
    (hPlace : s.place = p) : (params s).Accepts q (Is names) := by
  rw [params]
  cases h with
  | noParams =>
    rw [if_pos (by rw [← State.kind_place, hPlace, hEnd])]
    exact .done rfl hPlace
  | someParams hNames =>
    have hName : s.kind ≠ .symbol .rightParen := by
      intro hClose
      rw [← State.kind_place, hPlace] at hClose
      cases hNames with
      | lastParam hName => cases hName.kind_eq.symm.trans hClose
      | nextParam hName => cases hName.kind_eq.symm.trans hClose
    rw [if_neg hName]
    exact (paramNames_accepts hNames hEnd hPlace).relax

theorem optionalName_accepts {name : Option Name} {p q : Place}
    (h : Derives .nearest (.functionName name) p q) (hEnd : q.kind = .symbol .leftParen)
    {s : State} (hPlace : s.place = p) : s.optionalName.Accepts q (Is name) := by
  cases h with
  | anonymous =>
    refine State.takeOr_accepts_otherwise ?_ (.done rfl hPlace)
    rw [← State.kind_place, hPlace, hEnd]
    rfl
  | functionName hName =>
    rw [← hPlace] at hName
    exact State.takeOr_accepts hName (ident_ne_end _) (State.nameOf?_eq_some_iff.mpr rfl)
      fun u _ _ hU => .done rfl hU

/-! ## One production at a time -/

section Productions

variable {bound : List Token} {below : Below bound} {s : State} {p₀ p₁ p₂ p₃ p₄ p₅ q : Place}
  {start span close : Span} {tree value : Tree}

theorem terminator_accepts (h : Derives .nearest .terminator s.place q) :
    (terminator s).Accepts q (Is ()) := by
  cases h with
  | semicolon hSemicolon => exact State.eatOr_accepts hSemicolon fun u _ _ hU => .done rfl hU
  | beforeClose hClose =>
    refine State.eatOr_accepts_otherwise ?_ ?_
    · intro hSemicolon
      rw [State.kind_place, hSemicolon] at hClose
      rcases hClose with hClose | hClose <;> cases hClose
    · rw [if_pos (show s.AtClose from hClose)]
      exact .done rfl rfl

theorem parenthesized_accepts {hBound : s.left ≤ bound.length}
    (hOpen : Takes (.symbol .leftParen) start s.place p₁)
    (hTree : ∀ t hBound, t.place = p₁ → (below.expression t hBound).Accepts p₂ (IsTree tree))
    (hClose : Takes (.symbol .rightParen) close p₂ q) :
    (parenthesized below s hBound).Accepts q fun t inner =>
      inner.2 = close ∧ t.tree? inner.1 = some tree := by
  refine (State.expect_accepts hOpen).andThen fun _ s₁ _ _ h₁ _ => ?_
  refine (hTree s₁ _ h₁).andThen fun id s₂ _ _ h₂ hId => ?_
  refine (State.expect_accepts (h₂ ▸ hClose)).andThen fun _ s₃ _ hGrows h₃ hIs => ?_
  exact .done ⟨hIs, tree?_of_grows hGrows hId⟩ h₃

theorem leaf_accepts {kind : TokenKind} {form : Form} (hTakes : Takes kind span s.place q)
    (hMore : kind ≠ .endOfFile)
    (hForm : ∀ t : NodeTable, Unfolds t (fun id x => t.tree? id = some x) span form tree) :
    (leaf s form).Accepts q (IsTree tree) := by
  refine (State.advance_accepts hTakes hMore).andThen fun _ s₁ _ _ h₁ hIs => ?_
  cases hIs
  exact h₁ ▸ State.addNode_accepts (hForm s₁.table)

theorem declaration_accepts {hBound : s.left ≤ bound.length} {name : Name}
    (hVar : Takes (.keyword .kwVar) start s.place p₁) (hName : Takes (.ident name) span p₁ p₂)
    (hSign : Takes (.symbol .assign) close p₂ p₃)
    (hValue : ∀ t hBound, t.place = p₃ → (below.expression t hBound).Accepts q (IsTree value)) :
    (declaration below s hBound).Accepts q
      (IsTree (.declare (start.merge value.span) name value)) := by
  refine (State.advance_accepts hVar (keyword_ne_end _)).andThen fun _ s₁ _ _ h₁ hStart => ?_
  refine (State.expectName_accepts (h₁ ▸ hName)).andThen fun _ s₂ _ _ h₂ hIs => ?_
  refine (State.expect_accepts (h₂ ▸ hSign)).andThen fun _ s₃ _ _ h₃ _ => ?_
  refine (hValue s₃ _ h₃).andThen fun id s₄ _ _ h₄ hId => ?_
  cases hStart
  cases hIs
  rw [State.spanOf, spanOf_of_tree? hId]
  exact h₄ ▸ State.addNode_accepts (.declare hId)

theorem assignment_accepts {hBound : s.left ≤ bound.length} {name : Name}
    (hName : Takes (.ident name) start s.place p₁) (hSign : Takes (.symbol .assign) close p₁ p₂)
    (hValue : ∀ t hBound, t.place = p₂ → (below.expression t hBound).Accepts q (IsTree value)) :
    (assignment below name s hBound).Accepts q
      (IsTree (.assign (start.merge value.span) name value)) := by
  refine (State.advance_accepts hName (ident_ne_end _)).andThen fun _ s₁ _ _ h₁ hStart => ?_
  refine (State.expect_accepts (h₁ ▸ hSign)).andThen fun _ s₂ _ _ h₂ _ => ?_
  refine (hValue s₂ _ h₂).andThen fun id s₃ _ _ h₃ hId => ?_
  cases hStart
  rw [State.spanOf, spanOf_of_tree? hId]
  exact h₃ ▸ State.addNode_accepts (.assign hId)

theorem function_accepts {hBound : s.left ≤ bound.length} {name : Option Name}
    {names : List Name} {opening : Span} (hFunction : Takes (.keyword .kwFunction) start s.place p₁)
    (hName : Derives .nearest (.functionName name) p₁ p₂)
    (hOpen : Takes (.symbol .leftParen) opening p₂ p₃)
    (hParams : Derives .nearest (.params names) p₃ p₄)
    (hClose : Takes (.symbol .rightParen) close p₄ p₅)
    (hBody : ∀ t hBound, t.place = p₅ → (block below t hBound).Accepts q (IsTree tree)) :
    (function below s hBound).Accepts q
      (IsTree (.named name (start.merge q.last) names tree)) := by
  refine (State.advance_accepts hFunction (keyword_ne_end _)).andThen fun _ s₁ _ _ h₁ hStart => ?_
  refine (optionalName_accepts hName hOpen.kind_eq h₁).bind fun _ s₂ _ _ h₂ hIs => ?_
  refine (State.expect_accepts (h₂ ▸ hOpen)).andThen fun _ s₃ _ _ h₃ _ => ?_
  refine (params_accepts hParams hClose.kind_eq h₃).bind fun _ s₄ _ _ h₄ hAre => ?_
  refine (State.expect_accepts (h₄ ▸ hClose)).andThen fun _ s₅ _ _ h₅ _ => ?_
  refine (hBody s₅ _ h₅).andThen fun body s₆ _ _ h₆ hId => ?_
  cases hStart
  cases hIs
  cases hAre
  cases h₆
  exact State.build_accepts (tree?_addFunction hId)

theorem branch_accepts {hBound : s.left ≤ bound.length} {condition consequent : Tree}
    {other : Option Tree} (hIf : Takes (.keyword .kwIf) start s.place p₁)
    (hCondition : ∀ t hBound, t.place = p₁ → (parenthesized below t hBound).Accepts p₂
      fun table inner => inner.2 = close ∧ table.tree? inner.1 = some condition)
    (hConsequent : ∀ t hBound, t.place = p₂ → (block below t hBound).Accepts p₃ (IsTree consequent))
    (hOther : ∀ t hBound, t.place = p₃ →
      (alternative below t hBound).Accepts q fun table id => MayBeTree table other id) :
    (branch below s hBound).Accepts q
      (IsTree (.branch (start.merge q.last) condition consequent other)) := by
  refine (State.advance_accepts hIf (keyword_ne_end _)).andThen fun _ s₁ _ _ h₁ hStart => ?_
  refine (hCondition s₁ _ h₁).andThen fun c s₂ _ _ h₂ hC => ?_
  refine (hConsequent s₂ _ h₂).andThen fun a s₃ _ hGrows h₃ hA => ?_
  refine (hOther s₃ _ h₃).bind fun b s₄ _ hGrows' h₄ hB => ?_
  have hC := tree?_of_grows (hGrows.trans hGrows') hC.2
  have hA := tree?_of_grows hGrows' hA
  cases hStart
  cases h₄
  cases hB with
  | none => exact State.addNode_accepts (.branch hC hA)
  | some hB => exact State.addNode_accepts (.branchElse hC hA hB)

theorem loop_accepts {hBound : s.left ≤ bound.length} {condition body : Tree}
    (hWhile : Takes (.keyword .kwWhile) start s.place p₁)
    (hCondition : ∀ t hBound, t.place = p₁ → (parenthesized below t hBound).Accepts p₂
      fun table inner => inner.2 = close ∧ table.tree? inner.1 = some condition)
    (hBody : ∀ t hBound, t.place = p₂ → (block below t hBound).Accepts q (IsTree body)) :
    (loop below s hBound).Accepts q (IsTree (.loop (start.merge q.last) condition body)) := by
  refine (State.advance_accepts hWhile (keyword_ne_end _)).andThen fun _ s₁ _ _ h₁ hStart => ?_
  refine (hCondition s₁ _ h₁).andThen fun c s₂ _ _ h₂ hC => ?_
  refine (hBody s₂ _ h₂).andThen fun b s₃ _ hGrows h₃ hB => ?_
  cases hStart
  cases h₃
  exact State.addNode_accepts (.loop (tree?_of_grows hGrows hC.2) hB)

theorem printing_accepts {hBound : s.left ≤ bound.length} {argument : Tree}
    (hPrint : Takes (.keyword .kwPrint) start s.place p₁)
    (hArgument : ∀ t hBound, t.place = p₁ → (parenthesized below t hBound).Accepts p₂
      fun table inner => inner.2 = close ∧ table.tree? inner.1 = some argument)
    (hEnd : Derives .nearest .terminator p₂ q) :
    (printing below s hBound).Accepts q (IsTree (.print (start.merge close) argument)) := by
  refine (State.advance_accepts hPrint (keyword_ne_end _)).andThen fun _ s₁ _ _ h₁ hStart => ?_
  refine (hArgument s₁ _ h₁).andThen fun a s₂ _ _ h₂ hA => ?_
  refine (terminator_accepts (h₂ ▸ hEnd)).bind fun _ s₃ _ hGrows h₃ _ => ?_
  cases hStart
  cases h₃
  rw [hA.1]
  exact State.addNode_accepts (.print (tree?_of_grows hGrows hA.2))

end Productions

/-! ## Levels -/

/-- How a level reads its operands. -/
def Level.operandReader {bound : List Token} (below : Below bound) :
    Level → (s : State) → s.left ≤ bound.length → Reply true s NodeId
  | multiplication => postfixExpr below
  | addition => multiplicative below
  | comparison => additive below

/-- What reading makes of a word of a phrase up to a place, wherever the word starts, provided that
the phrase ends before the token there. -/
def Phrase.Accepted : Phrase → Place → Place → Prop
  | program _ => fun _ _ => True
  | statements trees => fun p q => q.kind = .symbol .rightBrace ∨ q.kind = .endOfFile →
    ∀ bound (s : State) hBound, s.place = p →
      (Grammar.statements (nested bound) s hBound).Accepts q (AreTrees trees)
  | statement tree => fun p q => ∀ bound (s : State) hBound, s.place = p →
    (statementWith (nested bound) s hBound).Accepts q (IsTree tree)
  | terminator => fun p q => Derives .nearest .terminator p q
  | block tree => fun p q => ∀ bound (s : State) hBound, s.place = p →
    (Grammar.block (nested bound) s hBound).Accepts q (IsTree tree)
  | alternative other => fun p q => ∀ bound (s : State) hBound, s.place = p →
    (Grammar.alternative (nested bound) s hBound).Accepts q fun table id => MayBeTree table other id
  | enclosed tree close => fun p q => ∃ opening p₁ p₂, Takes (.symbol .leftParen) opening p p₁ ∧
    Takes (.symbol .rightParen) close p₂ q ∧
    ∀ s : State, s.place = p₁ → (Grammar.expression s).Accepts p₂ (IsTree tree)
  | expression tree => fun p q => EndsExpression q.kind → ∀ bound (s : State) hBound, s.place = p →
    (expressionWith (nested bound) s hBound).Accepts q (IsTree tree)
  | level l tree => fun p q => l.Ends q.kind → ∀ bound (s : State) hBound, s.place = p →
    (binaryLevel l.operatorOf? (l.operandReader (nested bound)) s hBound).Accepts q (IsTree tree)
  | operations l ops => fun p q => l.Ends q.kind → ∀ bound (s : State) hBound left a, s.place = p →
    s.table.tree? left = some a →
    (Grammar.operations l.operatorOf? (l.operandReader (nested bound)) left s hBound).Accepts q
      (IsTree (a.operations ops))
  | application tree => fun p q => q.kind ≠ .symbol .leftParen →
    ∀ bound (s : State) hBound, s.place = p →
      (postfixExpr (nested bound) s hBound).Accepts q (IsTree tree)
  | calls suffixes => fun p q => q.kind ≠ .symbol .leftParen →
    ∀ bound (s : State) hBound callee f, s.place = p → s.table.tree? callee = some f →
      (callSuffixes (nested bound) callee s hBound).Accepts q (IsTree (f.calls suffixes))
  | arguments trees => fun p q => q.kind = .symbol .rightParen →
    ∀ bound (s : State) hBound, s.place = p →
      (Grammar.arguments (nested bound) s hBound).Accepts q (AreTrees trees)
  | argumentList trees => fun p q => q.kind = .symbol .rightParen →
    ∀ bound (s : State) hBound, s.place = p →
      (argumentIds (nested bound) s hBound).Accepts q (AreTrees trees)
  | primary tree => fun p q => ∀ bound (s : State) hBound, s.place = p →
    (Grammar.primary (nested bound) s hBound).Accepts q (IsTree tree)
  | functionName name => fun p q => Derives .nearest (.functionName name) p q
  | params names => fun p q => Derives .nearest (.params names) p q
  | paramList _ => fun _ _ => True

theorem Level.accepted_operand {l : Level} {tree : Tree} {p q : Place} :
    (l.operand tree).Accepted p q ↔
      (l.OperandEnds q.kind → ∀ bound (s : State) hBound, s.place = p →
        (l.operandReader (nested bound) s hBound).Accepts q (IsTree tree)) := by
  cases l <;> rfl

/-! ## Acceptance of each phrase -/

section Acceptance

variable {tree : Tree} {trees : List Tree} {p q r : Place}

theorem expression_accepts (h : Phrase.Accepted (.expression tree) p q)
    (hEnds : EndsExpression q.kind) {s : State} (hPlace : s.place = p) :
    (expression s).Accepts q (IsTree tree) := by
  rw [expression]
  exact h hEnds s.rest s (Nat.le_refl _) hPlace

theorem statement_accepts (h : Phrase.Accepted (.statement tree) p q) {s : State}
    (hPlace : s.place = p) : (statement s).Accepts q (IsTree tree) := by
  rw [statement]
  exact h s.rest s (Nat.le_refl _) hPlace

theorem kind_of_derives_terminator {rule : ElseRule} (h : Derives rule .terminator p q) :
    p.kind = .symbol .semicolon ∨ p.kind = .symbol .rightBrace ∨ p.kind = .endOfFile := by
  cases h with
  | semicolon hSemicolon => exact .inl hSemicolon.kind_eq
  | beforeClose hClose => exact .inr hClose

theorem endsExpression_of_terminator {rule : ElseRule} (h : Derives rule .terminator p q) :
    EndsExpression p.kind := by
  rcases kind_of_derives_terminator h with hKind | hKind | hKind <;> rw [hKind]
  · exact endsExpression_close (by simp)
  · exact endsExpression_close (by simp)
  · exact endsExpression_endOfFile

theorem accepted_expressionStatement (hStarts : startsExpression p.kind = true)
    (hTree : Phrase.Accepted (.expression tree) p q) (hEnd : Derives .nearest .terminator q r) :
    Phrase.Accepted (.statement tree) p r := by
  intro bound s hBound hPlace
  have hStart : startsExpression s.kind = true := by rw [← State.kind_place, hPlace, hStarts]
  rw [statementWith]
  split
  · next hKind => cases hKind ▸ hStart
  · next hKind => cases hKind ▸ hStart
  · next hKind => cases hKind ▸ hStart
  · next hKind => cases hKind ▸ hStart
  · refine (hTree (endsExpression_of_terminator hEnd) bound s hBound hPlace).andThen
      fun id s₁ _ _ h₁ hId => ?_
    refine (terminator_accepts (h₁ ▸ hEnd)).bind fun _ s₂ _ hGrows h₂ _ => ?_
    exact .done (tree?_of_grows hGrows hId) h₂

theorem accepted_moreStatements (hStarts : startsStatement p.kind = true)
    (hTree : Phrase.Accepted (.statement tree) p q)
    (hTrees : Phrase.Accepted (.statements trees) q r) :
    Phrase.Accepted (.statements (tree :: trees)) p r := by
  intro hClose bound s hBound hPlace
  have hOpen : ¬ s.AtClose := by
    rw [← hPlace] at hStarts
    rintro (hKind | hKind) <;> cases (show s.place.kind = _ from hKind) ▸ hStarts
  rw [Grammar.statements, dif_neg hOpen]
  refine Reply.Accepts.relax ?_
  refine (Reply.Accepts.orRecover (statement_accepts hTree hPlace)).andThen
    fun found u _ _ hU hFound => ?_
  obtain ⟨id, rfl, hId⟩ := hFound
  refine (hTrees hClose bound u _ hU).bind fun more v _ hGrows hV hMore => ?_
  exact .done (.cons (tree?_of_grows hGrows hId) hMore) hV

theorem accepted_braces {opening closing : Span} {p₁ p₂ : Place}
    (hOpen : Takes (.symbol .leftBrace) opening p p₁)
    (hTrees : Phrase.Accepted (.statements trees) p₁ p₂)
    (hClose : Takes (.symbol .rightBrace) closing p₂ q) :
    Phrase.Accepted (.block (Tree.run (opening.merge closing) trees)) p q := by
  intro bound s hBound hPlace
  refine State.eatOr_accepts (hPlace ▸ hOpen) fun s₁ _ _ h₁ => ?_
  refine (hTrees (.inl hClose.kind_eq) bound s₁ _ h₁).bind fun ids s₂ _ _ h₂ hIds => ?_
  refine (State.expect_accepts (h₂ ▸ hClose)).andThen fun _ s₃ _ hGrows h₃ hIs => ?_
  cases hIs
  cases h₃
  exact State.build_accepts (tree?_addRun (treesOf_of_grows hGrows hIds))

theorem accepted_single (hStarts : startsStatement p.kind = true)
    (hTree : Phrase.Accepted (.statement tree) p q) : Phrase.Accepted (.block tree) p q := by
  intro bound s hBound hPlace
  refine State.eatOr_accepts_otherwise ?_ (statement_accepts hTree hPlace)
  rw [← State.kind_place, hPlace]
  intro hKind
  cases hKind ▸ hStarts

theorem accepted_alternative {span : Span} (hElse : Takes (.keyword .kwElse) span p q)
    (hTree : Phrase.Accepted (.block tree) q r) :
    Phrase.Accepted (.alternative (some tree)) p r := by
  intro bound s hBound hPlace
  rw [← hPlace] at hElse
  have hMore := keyword_ne_end .kwElse
  refine State.takeOr_accepts (a := ()) hElse hMore (if_pos rfl) fun s₁ _ _ h₁ => ?_
  refine (hTree bound s₁ _ h₁).andThen fun id s₂ _ _ h₂ hId => ?_
  exact .done (.some hId) h₂

theorem accepted_noAlternative (hElse : p.kind ≠ .keyword .kwElse) :
    Phrase.Accepted (.alternative none) p p := by
  intro bound s hBound hPlace
  refine State.takeOr_accepts_otherwise (if_neg ?_) (.done .none hPlace)
  rwa [← State.kind_place, hPlace]

theorem accepted_enclosed {opening close : Span} {p₁ p₂ : Place}
    (hOpen : Takes (.symbol .leftParen) opening p p₁)
    (hTree : Phrase.Accepted (.expression tree) p₁ p₂)
    (hClose : Takes (.symbol .rightParen) close p₂ q) :
    Phrase.Accepted (.enclosed tree close) p q := by
  have hEnds : EndsExpression p₂.kind := hClose.kind_eq ▸ endsExpression_close (by simp)
  exact ⟨opening, p₁, p₂, hOpen, hClose, fun s hPlace => expression_accepts hTree hEnds hPlace⟩

theorem condition_accepts {close : Span} (h : Phrase.Accepted (.enclosed tree close) p q)
    {bound : List Token} {s : State} {hBound : s.left ≤ bound.length} (hPlace : s.place = p) :
    (parenthesized (nested bound) s hBound).Accepts q fun table inner =>
      inner.2 = close ∧ table.tree? inner.1 = some tree := by
  obtain ⟨opening, p₁, p₂, hOpen, hClose, hTree⟩ := h
  exact parenthesized_accepts (hPlace ▸ hOpen) (fun t _ hT => hTree t hT) hClose

theorem nextKind_of_takes {s : State} {kind : TokenKind} {span : Span} {p : Place}
    (h : Takes kind span s.place p) : s.nextKind = p.kind := by
  have hRest : s.rest = ⟨kind, span⟩ :: p.rest := h.1
  rw [State.nextKind, hRest, Place.kind, List.getElem?_cons_succ, ← List.head?_eq_getElem?]
  cases p.rest.head? <;> rfl

theorem accepted_comparison (hDerives : Derives .nearest (.level .comparison tree) p q)
    (hTree : Phrase.Accepted (.level .comparison tree) p q) :
    Phrase.Accepted (.expression tree) p q := by
  intro hEnds bound s hBound hPlace
  have hComparison : (comparison (nested bound) s hBound).Accepts q (IsTree tree) :=
    hTree hEnds.1 bound s hBound hPlace
  have hStarts : startsOperand s.kind = true := by
    rw [← State.kind_place, hPlace]
    exact starts_of_derives hDerives
  rw [expressionWith]
  split
  · next hKind => cases hKind ▸ hStarts
  · next name hKind =>
    split
    · next hAssign =>
      obtain ⟨span, t, hName⟩ := State.exists_takes (s := s) (hKind ▸ ident_ne_end name)
      rw [hKind] at hName
      have hNext : t.place.kind = .symbol .assign :=
        (nextKind_of_takes hName.place).symm.trans hAssign
      have hEnd := stopsAtAssign_of_derives hDerives name span _ (hPlace ▸ hName.place) hNext
      exact absurd (hEnd ▸ hNext) hEnds.2
    · exact hComparison
  · exact hComparison

theorem accepted_declaration {start nameSpan sign : Span} {name : Name} {p₁ p₂ p₃ : Place}
    (hVar : Takes (.keyword .kwVar) start p p₁) (hName : Takes (.ident name) nameSpan p₁ p₂)
    (hSign : Takes (.symbol .assign) sign p₂ p₃)
    (hValue : Phrase.Accepted (.expression tree) p₃ q) :
    Phrase.Accepted (.expression (.declare (start.merge tree.span) name tree)) p q := by
  intro hEnds bound s hBound hPlace
  rw [← hPlace] at hVar
  rw [expressionWith]
  split
  · exact declaration_accepts hVar hName hSign fun t _ hT => expression_accepts hValue hEnds hT
  · next hKind => cases hKind.symm.trans hVar.kind_eq
  · next hKind _ => cases hKind hVar.kind_eq

theorem accepted_assignment {start sign : Span} {name : Name} {p₁ p₂ : Place}
    (hName : Takes (.ident name) start p p₁) (hSign : Takes (.symbol .assign) sign p₁ p₂)
    (hValue : Phrase.Accepted (.expression tree) p₂ q) :
    Phrase.Accepted (.expression (.assign (start.merge tree.span) name tree)) p q := by
  intro hEnds bound s hBound hPlace
  rw [← hPlace] at hName
  have hNext : s.nextKind = .symbol .assign := (nextKind_of_takes hName).trans hSign.kind_eq
  rw [expressionWith]
  split
  · next hKind => cases hKind.symm.trans hName.kind_eq
  · next other hKind =>
    cases hKind.symm.trans hName.kind_eq
    rw [if_pos hNext]
    exact assignment_accepts hName hSign fun t _ hT => expression_accepts hValue hEnds hT
  · next _ hKind => cases hKind _ hName.kind_eq

/-- An operand ends before the operations that follow it. -/
theorem operandEnds_of_operations {l : Level} {ops : List (Operator × Tree)}
    (hOps : Derives .nearest (.operations l ops) p q) (hEnds : l.Ends q.kind) :
    l.OperandEnds p.kind := by
  cases hOps with
  | noOperations => exact hEnds.1
  | moreOperations hLevel hSign => exact hSign.kind_eq ▸ Level.operandEnds_symbol hLevel

theorem accepted_level {l : Level} {left : Tree} {ops : List (Operator × Tree)}
    (hOps : Derives .nearest (.operations l ops) q r) (hLeft : (l.operand left).Accepted p q)
    (hRest : Phrase.Accepted (.operations l ops) q r) :
    Phrase.Accepted (.level l (left.operations ops)) p r := by
  intro hEnds bound s hBound hPlace
  have hOperand := operandEnds_of_operations hOps hEnds
  refine (Level.accepted_operand.mp hLeft hOperand bound s hBound hPlace).andThen
    fun id s₁ _ _ h₁ hId => ?_
  exact hRest hEnds bound s₁ _ id left h₁ hId

theorem accepted_noOperations {l : Level} : Phrase.Accepted (.operations l []) p p := by
  intro hEnds bound s hBound left a hPlace hTree
  rw [Grammar.operations]
  refine State.takeOr_accepts_otherwise ?_ (.done hTree hPlace)
  rw [← State.kind_place, hPlace]
  exact hEnds.2

theorem accepted_moreOperations {l : Level} {op : Operator} {sign : Span}
    {ops : List (Operator × Tree)} {p₁ p₂ : Place} (hLevel : op.level = l)
    (hSign : Takes (.symbol op.symbol) sign p p₁)
    (hOps : Derives .nearest (.operations l ops) p₂ q) (hRight : (l.operand tree).Accepted p₁ p₂)
    (hRest : Phrase.Accepted (.operations l ops) p₂ q) :
    Phrase.Accepted (.operations l ((op, tree) :: ops)) p q := by
  intro hEnds bound s hBound left a hPlace hTree
  have hOperand := operandEnds_of_operations hOps hEnds
  rw [← hPlace] at hSign
  rw [Grammar.operations]
  refine State.takeOr_accepts hSign (symbol_ne_end _)
    (Level.operatorOf?_eq_some_iff.mpr ⟨rfl, hLevel⟩)
    fun s₁ _ hTable h₁ => ?_
  refine (Level.accepted_operand.mp hRight hOperand bound s₁ _ h₁).andThen
    fun id s₂ _ hGrows h₂ hId => ?_
  have hLeft := tree?_of_grows hGrows (hTable ▸ hTree)
  have hBinary : (s₂.table.addBinary op left id).2.tree? (s₂.table.addBinary op left id).1
      = some (.binary (a.span.merge tree.span) op a tree) := tree?_addBinary hLeft hId
  refine (h₂ ▸ State.build_accepts hBinary).bind fun whole s₃ _ _ h₃ hWhole => ?_
  exact hRest hEnds bound s₃ _ whole _ h₃ hWhole

theorem accepted_application {suffixes : List (List Tree × Span)}
    (hCallee : Phrase.Accepted (.primary tree) p q)
    (hRest : Phrase.Accepted (.calls suffixes) q r) :
    Phrase.Accepted (.application (tree.calls suffixes)) p r := by
  intro hEnds bound s hBound hPlace
  refine (hCallee bound s hBound hPlace).andThen fun id s₁ _ _ h₁ hId => ?_
  exact hRest hEnds bound s₁ _ id tree h₁ hId

theorem accepted_noCalls : Phrase.Accepted (.calls []) p p := by
  intro hEnds bound s hBound callee f hPlace hTree
  rw [callSuffixes]
  refine State.eatOr_accepts_otherwise ?_ (.done hTree hPlace)
  rwa [← State.kind_place, hPlace]

theorem accepted_moreCalls {opening close : Span} {suffixes : List (List Tree × Span)}
    {p₁ p₂ p₃ : Place} (hOpen : Takes (.symbol .leftParen) opening p p₁)
    (hArgs : Phrase.Accepted (.arguments trees) p₁ p₂)
    (hClose : Takes (.symbol .rightParen) close p₂ p₃)
    (hRest : Phrase.Accepted (.calls suffixes) p₃ q) :
    Phrase.Accepted (.calls ((trees, close) :: suffixes)) p q := by
  intro hEnds bound s hBound callee f hPlace hTree
  rw [callSuffixes]
  refine State.eatOr_accepts (hPlace ▸ hOpen) fun s₁ _ hTable h₁ => ?_
  refine (hArgs hClose.kind_eq bound s₁ _ h₁).bind fun ids s₂ _ hGrows h₂ hIds => ?_
  refine (State.expect_accepts (h₂ ▸ hClose)).andThen fun _ s₃ _ hGrows' h₃ hIs => ?_
  cases hIs
  have hCallee := tree?_of_grows (hGrows.trans hGrows') (hTable ▸ hTree)
  have hTrees := treesOf_of_grows hGrows' hIds
  refine (h₃ ▸ State.build_accepts (tree?_addCall hCallee hTrees)).bind
    fun call s₄ _ _ h₄ hCall => ?_
  exact hRest hEnds bound s₄ _ call _ h₄ hCall

theorem accepted_arguments (hDerives : Derives .nearest (.argumentList trees) p q)
    (hTrees : Phrase.Accepted (.argumentList trees) p q) :
    Phrase.Accepted (.arguments trees) p q := by
  intro hEnd bound s hBound hPlace
  have hStarts : startsExpression s.kind = true := by
    rw [← State.kind_place, hPlace]
    exact starts_of_derives hDerives
  have hMore : s.kind ≠ .symbol .rightParen := fun hKind => by cases hKind ▸ hStarts
  rw [Grammar.arguments, if_neg hMore]
  exact (hTrees hEnd bound s hBound hPlace).relax

theorem accepted_noArguments : Phrase.Accepted (.arguments []) p p := by
  intro hEnd bound s hBound hPlace
  rw [Grammar.arguments, if_pos (by rw [← State.kind_place, hPlace, hEnd])]
  exact .done .nil hPlace

theorem accepted_lastArgument (hTree : Phrase.Accepted (.expression tree) p q) :
    Phrase.Accepted (.argumentList [tree]) p q := by
  intro hEnd bound s hBound hPlace
  have hEnds : EndsExpression q.kind := hEnd ▸ endsExpression_close (by simp)
  rw [argumentIds]
  refine (expression_accepts hTree hEnds hPlace).andThen fun id u _ _ hU hId => ?_
  refine State.eatOr_accepts_otherwise ?_ (.done (.cons hId .nil) hU)
  rw [← State.kind_place, hU, hEnd]
  decide

theorem accepted_nextArgument {comma : Span} {p₁ p₂ : Place}
    (hTree : Phrase.Accepted (.expression tree) p p₁) (hComma : Takes (.symbol .comma) comma p₁ p₂)
    (hTrees : Phrase.Accepted (.argumentList trees) p₂ q) :
    Phrase.Accepted (.argumentList (tree :: trees)) p q := by
  intro hEnd bound s hBound hPlace
  have hEnds : EndsExpression p₁.kind := hComma.kind_eq ▸ endsExpression_close (by simp)
  rw [argumentIds]
  refine (expression_accepts hTree hEnds hPlace).andThen fun id u _ _ hU hId => ?_
  refine State.eatOr_accepts (hU ▸ hComma) fun v _ hTable hV => ?_
  refine (hTrees hEnd bound v _ hV).andThen fun more w _ hGrows hW hMore => ?_
  exact .done (.cons (tree?_of_grows hGrows (hTable ▸ hId)) hMore) hW

theorem accepted_parenthesized {close : Span} (h : Phrase.Accepted (.enclosed tree close) p q) :
    Phrase.Accepted (.primary tree) p q := by
  obtain ⟨opening, p₁, p₂, hOpen, hClose, hTree⟩ := h
  intro bound s hBound hPlace
  rw [← hPlace] at hOpen
  have hKind : s.kind = .symbol .leftParen := hOpen.kind_eq
  rw [Grammar.primary]
  simp only [hKind]
  refine (State.advance_accepts hOpen (symbol_ne_end _)).andThen fun _ s₁ _ _ h₁ _ => ?_
  refine (hTree s₁ h₁).andThen fun id s₂ _ _ h₂ hId => ?_
  refine (State.expect_accepts (h₂ ▸ hClose)).andThen fun _ s₃ _ hGrows h₃ _ => ?_
  exact .done (tree?_of_grows hGrows hId) h₃

/-- A literal or a name is the leaf that its kind says. -/
theorem accepted_leaf {kind : TokenKind} {form : Form} {span : Span}
    (hTakes : Takes kind span p q)
    (hLeaf : ∀ bound (s : State) hBound, s.kind = kind →
      Grammar.primary (nested bound) s hBound = leaf s form)
    (hForm : ∀ t : NodeTable, Unfolds t (fun id x => t.tree? id = some x) span form tree)
    (hMore : kind ≠ .endOfFile) : Phrase.Accepted (.primary tree) p q := by
  intro bound s hBound hPlace
  rw [← hPlace] at hTakes
  rw [hLeaf bound s hBound hTakes.kind_eq]
  exact leaf_accepts hTakes hMore hForm

end Acceptance

/-! ## Every word -/

/-- A word is read cleanly wherever its phrase ends before the token after it. -/
theorem accepted_of_derives {phrase : Phrase} {p q : Place} (h : Derives .nearest phrase p q) :
    phrase.Accepted p q := by
  induction h with
  | program => trivial
  | noStatements =>
    intro hClose bound s hBound hPlace
    subst hPlace
    rw [Grammar.statements, dif_pos (show s.AtClose from hClose)]
    exact .done .nil rfl
  | moreStatements hTree _ ihTree ihTrees =>
    exact accepted_moreStatements (starts_of_derives hTree) ihTree ihTrees
  | branch hIf _ _ _ ihCondition ihConsequent ihOther =>
    intro bound s hBound hPlace
    rw [← hPlace] at hIf
    have hKind : s.kind = .keyword .kwIf := hIf.kind_eq
    rw [statementWith]
    simp only [hKind]
    exact branch_accepts hIf (fun t _ hT => condition_accepts ihCondition hT)
      (fun t hT => ihConsequent bound t hT) fun t hT => ihOther bound t hT
  | loop hWhile _ _ ihCondition ihBody =>
    intro bound s hBound hPlace
    rw [← hPlace] at hWhile
    have hKind : s.kind = .keyword .kwWhile := hWhile.kind_eq
    rw [statementWith]
    simp only [hKind]
    exact loop_accepts hWhile (fun t _ hT => condition_accepts ihCondition hT)
      fun t hT => ihBody bound t hT
  | printing hPrint _ hEnd ihArgument =>
    intro bound s hBound hPlace
    rw [← hPlace] at hPrint
    have hKind : s.kind = .keyword .kwPrint := hPrint.kind_eq
    rw [statementWith]
    simp only [hKind]
    exact printing_accepts hPrint (fun t _ hT => condition_accepts ihArgument hT) hEnd
  | emptyStatement hSemicolon =>
    intro bound s hBound hPlace
    rw [← hPlace] at hSemicolon
    have hKind : s.kind = .symbol .semicolon := hSemicolon.kind_eq
    rw [statementWith]
    simp only [hKind]
    exact leaf_accepts hSemicolon (symbol_ne_end _) fun _ => .null
  | expressionStatement hTree hEnd ihTree =>
    exact accepted_expressionStatement (starts_of_derives hTree) ihTree hEnd
  | semicolon hSemicolon => exact .semicolon hSemicolon
  | beforeClose hClose => exact .beforeClose hClose
  | braces hOpen _ hClose ihTrees => exact accepted_braces hOpen ihTrees hClose
  | single hTree ihTree => exact accepted_single (starts_of_derives hTree) ihTree
  | noAlternative hElse => exact accepted_noAlternative (hElse rfl)
  | alternative hElse _ ihTree => exact accepted_alternative hElse ihTree
  | enclosed hOpen _ hClose ihTree => exact accepted_enclosed hOpen ihTree hClose
  | declaration hVar hName hSign _ ihValue => exact accepted_declaration hVar hName hSign ihValue
  | assignment hName hSign _ ihValue => exact accepted_assignment hName hSign ihValue
  | comparison hTree ihTree => exact accepted_comparison hTree ihTree
  | level _ hOps ihLeft ihOps => exact accepted_level hOps ihLeft ihOps
  | noOperations => exact accepted_noOperations
  | moreOperations hLevel hSign _ hOps ihRight ihOps =>
    exact accepted_moreOperations hLevel hSign hOps ihRight ihOps
  | application _ _ ihCallee ihSuffixes => exact accepted_application ihCallee ihSuffixes
  | noCalls => exact accepted_noCalls
  | moreCalls hOpen _ hClose _ ihArgs ihSuffixes =>
    exact accepted_moreCalls hOpen ihArgs hClose ihSuffixes
  | noArguments => exact accepted_noArguments
  | someArguments hTrees ihTrees => exact accepted_arguments hTrees ihTrees
  | lastArgument _ ihTree => exact accepted_lastArgument ihTree
  | nextArgument _ hComma _ ihTree ihTrees => exact accepted_nextArgument ihTree hComma ihTrees
  | int hToken =>
    refine accepted_leaf hToken (fun bound s hBound hKind => ?_) (fun _ => .int _)
      (int_ne_end _)
    simp only [Grammar.primary, hKind]
  | true hToken =>
    refine accepted_leaf hToken (fun bound s hBound hKind => ?_) (fun _ => .bool _)
      (keyword_ne_end _)
    simp only [Grammar.primary, hKind]
  | false hToken =>
    refine accepted_leaf hToken (fun bound s hBound hKind => ?_) (fun _ => .bool _)
      (keyword_ne_end _)
    simp only [Grammar.primary, hKind]
  | null hToken =>
    refine accepted_leaf hToken (fun bound s hBound hKind => ?_) (fun _ => .null)
      (keyword_ne_end _)
    simp only [Grammar.primary, hKind]
  | ref hToken =>
    refine accepted_leaf hToken (fun bound s hBound hKind => ?_) (fun _ => .ref _)
      (ident_ne_end _)
    simp only [Grammar.primary, hKind]
  | parenthesized _ ihTree => exact accepted_parenthesized ihTree
  | function hFunction hName hOpen hParams hClose _ _ _ ihBody =>
    intro bound s hBound hPlace
    rw [← hPlace] at hFunction
    have hKind : s.kind = .keyword .kwFunction := hFunction.kind_eq
    rw [Grammar.primary]
    simp only [hKind]
    exact function_accepts hFunction hName hOpen hParams hClose fun t hT => ihBody bound t hT
  | anonymous => exact .anonymous
  | functionName hName => exact .functionName hName
  | noParams => exact .noParams
  | someParams hNames => exact .someParams hNames
  | lastParam => trivial
  | nextParam => trivial

/-- The statements of a whole program are read up to the end of the source. -/
theorem topStatements_accepts {trees : List Tree} {p q : Place}
    (h : Derives .nearest (.statements trees) p q) (hEnd : q.kind = .endOfFile) {s : State}
    (hPlace : s.place = p) : (topStatements s).Accepts q (AreTrees trees) := by
  generalize hPhrase : Phrase.statements trees = phrase at h
  induction h generalizing trees s with
  | noStatements =>
    cases hPhrase
    subst hPlace
    rw [topStatements, dif_pos (show s.AtEnd from hEnd)]
    exact .done .nil rfl
  | moreStatements hTree hTrees _ ih =>
    cases hPhrase
    have hMore : ¬ s.AtEnd := by
      intro hKind
      have hStarts := starts_of_derives hTree
      rw [← hPlace] at hStarts
      cases (show s.place.kind = _ from hKind) ▸ hStarts
    rw [topStatements, dif_neg hMore]
    refine Reply.Accepts.relax ?_
    refine (Reply.Accepts.orRecover (statement_accepts (accepted_of_derives hTree) hPlace)).andThen
      fun found u _ _ hU hFound => ?_
    obtain ⟨id, rfl, hId⟩ := hFound
    refine (ih hEnd hU rfl).bind fun more v _ hGrows hV hRest => ?_
    exact .done (.cons (tree?_of_grows hGrows hId) hRest) hV
  | _ => cases hPhrase

end FeatherScript.Grammar
