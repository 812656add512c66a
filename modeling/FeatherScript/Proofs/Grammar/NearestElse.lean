import FeatherScript.Proofs.Grammar.Lookahead

/-!
# Alternatives of nearest branches

The grammar lets an `else` belong to any branch that is still open. Whatever it derives can also be
derived with every `else` at the nearest open branch: an alternative that was given to an outer
branch goes to the innermost one that is open, and alternatives after it to the next ones outward.

Since a phrase may end in several open branches, it is followed through all the alternatives that
they can still take (`OpenAt`). Only what stands at the very end of a phrase is open; before any
token but an `else` nothing is.

* `OpenAt.bind`: what is derived when all branches have their alternatives can be extended further.
* `resolves_of_derives`: every word of a phrase can be resolved, by induction on its derivation.
* `exists_nearest`: a program of the grammar is one with every `else` at the nearest open branch.
-/

namespace FeatherScript.Grammar

/-! ## Open branches -/

/-- What holds at a place, or else at the end of any block after the `else` there, or so on. -/
inductive OpenAt (D : Place → Prop) : Place → Prop
  | closed {q} (h : D q) : OpenAt D q
  | extend {span q r} (hElse : Takes (.keyword .kwElse) span q r)
      (hBlock : ∀ tree u, Derives .nearest (.block tree) r u → OpenAt D u) : OpenAt D q

namespace OpenAt

variable {D E : Place → Prop} {q : Place}

theorem bind (h : OpenAt D q) (hNext : ∀ u, D u → OpenAt E u) : OpenAt E q := by
  induction h with
  | closed h => exact hNext _ h
  | extend hElse _ ih => exact .extend hElse fun tree u hTree => ih tree u hTree

theorem imp (h : OpenAt D q) (hImp : ∀ u, D u → E u) : OpenAt E q :=
  h.bind fun u hD => .closed (hImp u hD)

theorem of_ne_else (h : OpenAt D q) (hKind : q.kind ≠ .keyword .kwElse) : D q := by
  cases h with
  | closed h => exact h
  | extend hElse => exact absurd hElse.kind_eq hKind

/-- Only the end of the second of two parts is open, unless the second part is empty. -/
theorem append {r : Place} {F : Place → Prop} (hFirst : OpenAt D q) (hSecond : OpenAt E r)
    (hEmpty : q.kind = .keyword .kwElse → r = q ∧ ∀ u, D u → F u)
    (hBoth : D q → ∀ u, E u → F u) : OpenAt F r := by
  by_cases hKind : q.kind = .keyword .kwElse
  · obtain ⟨rfl, hAlone⟩ := hEmpty hKind
    exact hFirst.imp hAlone
  · exact hSecond.imp (hBoth (hFirst.of_ne_else hKind))

end OpenAt

/-! ## Branches -/

theorem exists_takes_of_kind {p : Place} {kind : TokenKind} (hKind : p.kind = kind)
    (hMore : kind ≠ .endOfFile) : ∃ span q, Takes kind span p q := by
  obtain ⟨last, rest⟩ := p
  cases rest with
  | nil => exact absurd hKind.symm hMore
  | cons token rest =>
    cases hKind
    exact ⟨token.span, ⟨token.span, rest⟩, rfl, rfl⟩

/-- A branch without alternative is open wherever its consequent ends. -/
theorem openAt_branch {start close : Span} {condition : Tree} {p₀ p₁ p₂ q : Place}
    (hIf : Takes (.keyword .kwIf) start p₀ p₁)
    (hCondition : Derives .nearest (.enclosed condition close) p₁ p₂)
    (hConsequent : OpenAt (fun q => ∃ tree, Derives .nearest (.block tree) p₂ q) q) :
    OpenAt (fun q => ∃ tree, Derives .nearest (.statement tree) p₀ q) q := by
  refine hConsequent.bind ?_
  rintro u ⟨tree, hTree⟩
  by_cases hKind : u.kind = .keyword .kwElse
  · obtain ⟨span, r, hElse⟩ := exists_takes_of_kind hKind nofun
    refine .extend hElse fun other v hOther => .closed ?_
    exact ⟨_, .branch hIf hCondition hTree (.alternative hElse hOther)⟩
  · exact .closed ⟨_, .branch hIf hCondition hTree (.noAlternative fun _ => hKind)⟩

/-- An alternative goes to the innermost branch that is open in the consequent, if there is one. -/
theorem openAt_branchElse {start close span : Span} {condition : Tree} {p₀ p₁ p₂ p₃ p₄ q : Place}
    (hIf : Takes (.keyword .kwIf) start p₀ p₁)
    (hCondition : Derives .nearest (.enclosed condition close) p₁ p₂)
    (hConsequent : OpenAt (fun q => ∃ tree, Derives .nearest (.block tree) p₂ q) p₃)
    (hElse : Takes (.keyword .kwElse) span p₃ p₄)
    (hOther : OpenAt (fun q => ∃ tree, Derives .nearest (.block tree) p₄ q) q) :
    OpenAt (fun q => ∃ tree, Derives .nearest (.statement tree) p₀ q) q := by
  cases hConsequent with
  | closed h =>
    obtain ⟨tree, hTree⟩ := h
    refine hOther.imp ?_
    rintro u ⟨other, hOther⟩
    exact ⟨_, .branch hIf hCondition hTree (.alternative hElse hOther)⟩
  | extend hElse' hInner =>
    obtain ⟨-, -, rfl⟩ := hElse.unique hElse'
    refine hOther.bind ?_
    rintro u ⟨other, hOther⟩
    exact openAt_branch hIf hCondition (hInner other u hOther)

/-! ## Every phrase -/

/-- What becomes of a word of a phrase when every `else` goes to the nearest open branch. -/
def Phrase.Resolves : Phrase → Place → Place → Prop
  | program _ => fun p q => ∃ tree, Derives .nearest (.program tree) p q
  | statements _ => fun p => OpenAt fun q => ∃ trees, Derives .nearest (.statements trees) p q
  | statement _ => fun p => OpenAt fun q => ∃ tree, Derives .nearest (.statement tree) p q
  | terminator => Derives .nearest .terminator
  | block _ => fun p => OpenAt fun q => ∃ tree, Derives .nearest (.block tree) p q
  | alternative other => fun p q => (other = none ∧ q = p) ∨
    ∃ span r, Takes (.keyword .kwElse) span p r ∧
      OpenAt (fun q => ∃ tree, Derives .nearest (.block tree) r q) q
  | enclosed _ _ => fun p q => ∃ tree close, Derives .nearest (.enclosed tree close) p q
  | expression _ => fun p => OpenAt fun q => ∃ tree, Derives .nearest (.expression tree) p q
  | level l _ => fun p => OpenAt fun q => ∃ tree, Derives .nearest (.level l tree) p q
  | operations l _ => fun p => OpenAt fun q => ∃ ops, Derives .nearest (.operations l ops) p q
  | application _ => fun p => OpenAt fun q => ∃ tree, Derives .nearest (.application tree) p q
  | calls _ => fun p => OpenAt fun q => ∃ suffixes, Derives .nearest (.calls suffixes) p q
  | arguments _ => fun p => OpenAt fun q => ∃ trees, Derives .nearest (.arguments trees) p q
  | argumentList _ => fun p => OpenAt fun q => ∃ trees, Derives .nearest (.argumentList trees) p q
  | primary _ => fun p => OpenAt fun q => ∃ tree, Derives .nearest (.primary tree) p q
  | functionName name => Derives .nearest (.functionName name)
  | params names => Derives .nearest (.params names)
  | paramList names => Derives .nearest (.paramList names)

theorem Level.resolves_operand {l : Level} {tree : Tree} {p q : Place} :
    (l.operand tree).Resolves p q ↔
      OpenAt (fun q => ∃ tree, Derives .nearest (l.operand tree) p q) q := by
  cases l <;> rfl

theorem ne_else_of_takes {sign : Symbol} {span : Span} {p q : Place}
    (h : Takes (.symbol sign) span p q) : p.kind ≠ .keyword .kwElse := by
  rw [h.kind_eq]
  nofun

theorem ne_else_of_terminator {rule : ElseRule} {p q : Place} (h : Derives rule .terminator p q) :
    p.kind ≠ .keyword .kwElse := by
  intro hKind
  cases h with
  | semicolon hSemicolon => exact ne_else_of_takes hSemicolon hKind
  | beforeClose hClose =>
    rw [hKind] at hClose
    rcases hClose with hClose | hClose <;> cases hClose

/-- Statements, operations and calls before an `else` are none at all. -/
theorem eq_of_else {p q : Place} (hKind : p.kind = .keyword .kwElse) :
    (∀ trees, Derives .free (.statements trees) p q → q = p) ∧
    (∀ l ops, Derives .free (.operations l ops) p q → q = p) ∧
    (∀ suffixes, Derives .free (.calls suffixes) p q → q = p) := by
  refine ⟨fun trees h => ?_, fun l ops h => ?_, fun suffixes h => ?_⟩
  · cases h with
    | noStatements => rfl
    | moreStatements hTree =>
      have hStarts : startsStatement p.kind = true := starts_of_derives hTree
      rw [hKind] at hStarts
      cases hStarts
  · cases h with
    | noOperations => rfl
    | moreOperations _ hSign => exact absurd hKind (ne_else_of_takes hSign)
  · cases h with
    | noCalls => rfl
    | moreCalls hOpen => exact absurd hKind (ne_else_of_takes hOpen)

theorem resolves_of_derives {phrase : Phrase} {p q : Place} (h : Derives .free phrase p q) :
    phrase.Resolves p q := by
  induction h with
  | program _ hEnd ih =>
    obtain ⟨trees, hTrees⟩ := ih.of_ne_else (by rw [hEnd.kind_eq]; nofun)
    exact ⟨_, .program hTrees hEnd⟩
  | noStatements => exact .closed ⟨[], .noStatements⟩
  | moreStatements _ hTrees ihTree ihTrees =>
    refine ihTree.append ihTrees ?_ ?_
    · rintro hKind
      refine ⟨(eq_of_else hKind).1 _ hTrees, ?_⟩
      rintro u ⟨tree, hTree⟩
      exact ⟨[tree], .moreStatements hTree .noStatements⟩
    · rintro ⟨tree, hTree⟩ u ⟨trees, hTrees⟩
      exact ⟨tree :: trees, .moreStatements hTree hTrees⟩
  | branch hIf _ _ _ ihCondition ihConsequent ihOther =>
    obtain ⟨condition, close, hCondition⟩ := ihCondition
    rcases ihOther with ⟨-, rfl⟩ | ⟨span, r, hElse, hOther⟩
    · exact openAt_branch hIf hCondition ihConsequent
    · exact openAt_branchElse hIf hCondition ihConsequent hElse hOther
  | loop hWhile _ _ ihCondition ihBody =>
    obtain ⟨condition, close, hCondition⟩ := ihCondition
    refine ihBody.imp ?_
    rintro u ⟨body, hBody⟩
    exact ⟨_, .loop hWhile hCondition hBody⟩
  | printing hPrint _ _ ihArgument ihEnd =>
    obtain ⟨argument, close, hArgument⟩ := ihArgument
    exact .closed ⟨_, .printing hPrint hArgument ihEnd⟩
  | emptyStatement hSemicolon => exact .closed ⟨_, .emptyStatement hSemicolon⟩
  | expressionStatement _ hEnd ihTree ihEnd =>
    obtain ⟨tree, hTree⟩ := ihTree.of_ne_else (ne_else_of_terminator hEnd)
    exact .closed ⟨tree, .expressionStatement hTree ihEnd⟩
  | semicolon hSemicolon => exact .semicolon hSemicolon
  | beforeClose hClose => exact .beforeClose hClose
  | braces hOpen _ hClose ihTrees =>
    obtain ⟨trees, hTrees⟩ := ihTrees.of_ne_else (ne_else_of_takes hClose)
    exact .closed ⟨_, .braces hOpen hTrees hClose⟩
  | single _ ihTree => exact ihTree.imp fun _ ⟨tree, hTree⟩ => ⟨tree, .single hTree⟩
  | noAlternative => exact .inl ⟨rfl, rfl⟩
  | alternative hElse _ ihTree => exact .inr ⟨_, _, hElse, ihTree⟩
  | enclosed hOpen _ hClose ihTree =>
    obtain ⟨tree, hTree⟩ := ihTree.of_ne_else (ne_else_of_takes hClose)
    exact ⟨tree, _, .enclosed hOpen hTree hClose⟩
  | declaration hVar hName hSign _ ihValue =>
    exact ihValue.imp fun _ ⟨_, hValue⟩ => ⟨_, .declaration hVar hName hSign hValue⟩
  | assignment hName hSign _ ihValue =>
    exact ihValue.imp fun _ ⟨_, hValue⟩ => ⟨_, .assignment hName hSign hValue⟩
  | comparison _ ihTree => exact ihTree.imp fun _ ⟨tree, hTree⟩ => ⟨tree, .comparison hTree⟩
  | level _ hOps ihLeft ihOps =>
    refine (Level.resolves_operand.mp ihLeft).append ihOps ?_ ?_
    · intro hKind
      refine ⟨(eq_of_else hKind).2.1 _ _ hOps, ?_⟩
      rintro u ⟨left, hLeft⟩
      exact ⟨left, .level hLeft .noOperations⟩
    · rintro ⟨left, hLeft⟩ u ⟨ops, hOps⟩
      exact ⟨_, .level hLeft hOps⟩
  | noOperations => exact .closed ⟨[], .noOperations⟩
  | moreOperations hLevel hSign _ hOps ihRight ihOps =>
    refine (Level.resolves_operand.mp ihRight).append ihOps ?_ ?_
    · intro hKind
      refine ⟨(eq_of_else hKind).2.1 _ _ hOps, ?_⟩
      rintro u ⟨right, hRight⟩
      exact ⟨_, .moreOperations hLevel hSign hRight .noOperations⟩
    · rintro ⟨right, hRight⟩ u ⟨ops, hOps⟩
      exact ⟨_, .moreOperations hLevel hSign hRight hOps⟩
  | application _ hSuffixes ihCallee ihSuffixes =>
    refine ihCallee.append ihSuffixes ?_ ?_
    · intro hKind
      refine ⟨(eq_of_else hKind).2.2 _ hSuffixes, ?_⟩
      rintro u ⟨callee, hCallee⟩
      exact ⟨callee, .application hCallee .noCalls⟩
    · rintro ⟨callee, hCallee⟩ u ⟨suffixes, hSuffixes⟩
      exact ⟨_, .application hCallee hSuffixes⟩
  | noCalls => exact .closed ⟨[], .noCalls⟩
  | moreCalls hOpen _ hClose _ ihArgs ihSuffixes =>
    obtain ⟨args, hArgs⟩ := ihArgs.of_ne_else (ne_else_of_takes hClose)
    exact ihSuffixes.imp fun _ ⟨_, hSuffixes⟩ => ⟨_, .moreCalls hOpen hArgs hClose hSuffixes⟩
  | noArguments => exact .closed ⟨[], .noArguments⟩
  | someArguments _ ihTrees =>
    exact ihTrees.imp fun _ ⟨trees, hTrees⟩ => ⟨trees, .someArguments hTrees⟩
  | lastArgument _ ihTree => exact ihTree.imp fun _ ⟨_, hTree⟩ => ⟨_, .lastArgument hTree⟩
  | nextArgument _ hComma _ ihTree ihTrees =>
    obtain ⟨tree, hTree⟩ := ihTree.of_ne_else (ne_else_of_takes hComma)
    exact ihTrees.imp fun _ ⟨_, hTrees⟩ => ⟨_, .nextArgument hTree hComma hTrees⟩
  | int hToken => exact .closed ⟨_, .int hToken⟩
  | true hToken => exact .closed ⟨_, .true hToken⟩
  | false hToken => exact .closed ⟨_, .false hToken⟩
  | null hToken => exact .closed ⟨_, .null hToken⟩
  | ref hToken => exact .closed ⟨_, .ref hToken⟩
  | parenthesized _ ihTree =>
    obtain ⟨tree, close, hTree⟩ := ihTree
    exact .closed ⟨tree, .parenthesized hTree⟩
  | function hFunction _ hOpen _ hClose _ ihName ihParams ihBody =>
    exact ihBody.imp fun _ ⟨_, hBody⟩ =>
      ⟨_, .function hFunction ihName hOpen ihParams hClose hBody⟩
  | anonymous => exact .anonymous
  | functionName hName => exact .functionName hName
  | noParams => exact .noParams
  | someParams _ ihNames => exact .someParams ihNames
  | lastParam hName => exact .lastParam hName
  | nextParam hName hComma _ ihNames => exact .nextParam hName hComma ihNames

/-- A program of the grammar is one with every `else` at the nearest open branch. -/
theorem exists_nearest {tokens : List Token} {tree : Tree} (h : IsProgram .free tokens tree) :
    ∃ other, IsProgram .nearest tokens other := by
  obtain ⟨last, hTree⟩ := h
  obtain ⟨other, hOther⟩ := resolves_of_derives hTree
  exact ⟨other, last, hOther⟩

/-- The rule on alternatives only excludes derivations. -/
theorem derives_free {rule : ElseRule} {phrase : Phrase} {p q : Place}
    (h : Derives rule phrase p q) : Derives .free phrase p q := by
  induction h with
  | noAlternative => exact .noAlternative nofun
  | beforeClose hClose => exact .beforeClose hClose
  | function hFunction _ hOpen _ hClose _ ihName ihParams ihBody =>
    exact .function hFunction ihName hOpen ihParams hClose ihBody
  | _ => constructor <;> assumption

theorem isProgram_free {rule : ElseRule} {tokens : List Token} {tree : Tree}
    (h : IsProgram rule tokens tree) : IsProgram .free tokens tree := by
  obtain ⟨last, hTree⟩ := h
  exact ⟨last, derives_free hTree⟩

end FeatherScript.Grammar
