import FeatherScript.Proofs.Grammar.Derivation
import FeatherScript.Proofs.Token.Covering
import FeatherScript.Proofs.Tree.Parts

/-!
# The spans of a program

Every construct of a program stands over some of the source, from its first token or operand up to
its last one. The only span that does not come from a token is that of a program without statements.

* `Place.In`: a place between the tokens of a source.
* `Tree.Over`: all parts of a tree stand over a source.
* `Phrase.Over`, `derives_over`: all trees of a phrase do.
-/

namespace FeatherScript

open Text

variable {cs : List Char}

/-- All parts of a tree stand over a source. -/
abbrev Tree.Over (cs : List Char) (tree : Tree) : Prop := tree.Each (Span.Over cs)

theorem Token.Placed.fits {t : Token} (h : t.Placed cs) : t.span.Fits cs := by
  by_cases hEnd : t.kind = .endOfFile
  · rw [h.last hEnd]
    exact Span.fits_end cs
  · exact (h.covers hEnd).toFits

/-! ## Trees of repeated parts -/

namespace Tree

variable {tree first left callee : Tree}

theorem over_chain {more : List Tree} (hFirst : first.Over cs) (hMore : ∀ t ∈ more, t.Over cs) :
    (first.chain more).Over cs := by
  unfold chain
  induction more generalizing first with
  | nil => exact hFirst
  | cons second more ih =>
    obtain ⟨hSecond, hMore⟩ := List.forall_mem_cons.mp hMore
    refine ih (.intro (hFirst.span.merge hSecond.span.toFits) ?_) hMore
    simp only [children, List.forall_mem_cons]
    exact ⟨hFirst, hSecond, List.forall_mem_nil _⟩

theorem over_run {trees : List Tree} {span : Span} (hSpan : span.Over cs)
    (hTrees : ∀ t ∈ trees, t.Over cs) : (run span trees).Over cs := by
  cases trees with
  | nil => exact .intro hSpan (List.forall_mem_nil _)
  | cons first more =>
    obtain ⟨hFirst, hMore⟩ := List.forall_mem_cons.mp hTrees
    exact over_chain hFirst hMore

theorem over_operations {ops : List (Operator × Tree)} (hLeft : left.Over cs)
    (hOps : ∀ op ∈ ops, op.2.Over cs) : (left.operations ops).Over cs := by
  unfold operations
  induction ops generalizing left with
  | nil => exact hLeft
  | cons op ops ih =>
    obtain ⟨hRight, hOps⟩ := List.forall_mem_cons.mp hOps
    refine ih (.intro (hLeft.span.merge hRight.span.toFits) ?_) hOps
    simp only [children, List.forall_mem_cons]
    exact ⟨hLeft, hRight, List.forall_mem_nil _⟩

theorem over_calls {suffixes : List (List Tree × Span)} (hCallee : callee.Over cs)
    (hSuffixes : ∀ s ∈ suffixes, (∀ t ∈ s.1, t.Over cs) ∧ s.2.Over cs) :
    (callee.calls suffixes).Over cs := by
  unfold calls
  induction suffixes generalizing callee with
  | nil => exact hCallee
  | cons suffix suffixes ih =>
    obtain ⟨⟨hArgs, hClose⟩, hSuffixes⟩ := List.forall_mem_cons.mp hSuffixes
    refine ih (.intro (hCallee.span.merge hClose.toFits) ?_) hSuffixes
    exact List.forall_mem_cons.mpr ⟨hCallee, hArgs⟩

theorem over_named {name : Option Name} {span : Span} {params : List Name}
    (hSpan : span.Over cs) (hBody : tree.Over cs) : (named name span params tree).Over cs := by
  have hFunction : (function span params tree).Over cs :=
    .intro hSpan (List.forall_mem_singleton.mpr hBody)
  cases name with
  | none => exact hFunction
  | some name => exact .intro hSpan (List.forall_mem_singleton.mpr hFunction)

end Tree

namespace Grammar

/-! ## Places and phrases -/

/-- The tokens after a place are those of a source, and so is the one before it, if there is one. -/
structure Place.In (cs : List Char) (p : Place) : Prop where
  last : p.last.Fits cs
  rest : ∀ t ∈ p.rest, t.Placed cs

variable {rule : ElseRule} {phrase : Phrase} {kind : TokenKind} {span : Span} {p q : Place}

theorem Takes.stays (h : Takes kind span p q) (hIn : p.In cs) : q.In cs := by
  obtain ⟨hRest, rfl⟩ := h
  have hTokens := hIn.rest
  rw [hRest, List.forall_mem_cons] at hTokens
  exact ⟨hTokens.1.fits, hTokens.2⟩

theorem Takes.over (h : Takes kind span p q) (hIn : p.In cs) (hMore : kind ≠ .endOfFile) :
    span.Over cs := by
  have hTokens := hIn.rest
  rw [h.1, List.forall_mem_cons] at hTokens
  exact hTokens.1.covers hMore

/-- All trees that a phrase stands for stand over a source. -/
def Phrase.Over (cs : List Char) : Phrase → Prop
  | .program tree => tree.Over cs ∨ tree = .null .origin
  | .statements trees | .arguments trees | .argumentList trees => ∀ t ∈ trees, t.Over cs
  | .statement tree | .block tree | .expression tree | .level _ tree | .application tree
  | .primary tree => tree.Over cs
  | .alternative tree => ∀ t ∈ tree, t.Over cs
  | .enclosed tree close => tree.Over cs ∧ close.Over cs
  | .operations _ ops => ∀ op ∈ ops, op.2.Over cs
  | .calls suffixes => ∀ s ∈ suffixes, (∀ t ∈ s.1, t.Over cs) ∧ s.2.Over cs
  | .terminator | .functionName _ | .params _ | .paramList _ => True

theorem over_operand {l : Level} {tree : Tree} : (l.operand tree).Over cs ↔ tree.Over cs := by
  cases l <;> rfl

/-- A leaf stands over its token. -/
theorem over_leaf {tree : Tree} (h : Takes kind tree.span p q) (hIn : p.In cs)
    (hMore : kind ≠ .endOfFile) (hLeaf : tree.children = []) : tree.Over cs ∧ q.In cs := by
  refine ⟨.intro (h.over hIn hMore) ?_, h.stays hIn⟩
  rw [hLeaf]
  exact List.forall_mem_nil _

/-- From a place in a source on, the trees of a phrase stand over the source, and reading it leads
to another place there. -/
theorem derives_over (h : Derives rule phrase p q) (hIn : p.In cs) :
    phrase.Over cs ∧ q.In cs := by
  induction h with
  | @program trees _ _ _ _ _ hEnd ih =>
    obtain ⟨hTrees, hIn⟩ := ih hIn
    refine ⟨?_, hEnd.stays hIn⟩
    cases trees with
    | nil => exact .inr rfl
    | cons first more =>
      obtain ⟨hFirst, hMore⟩ := List.forall_mem_cons.mp hTrees
      exact .inl (Tree.over_chain hFirst hMore)
  | noStatements | noArguments | noOperations | noCalls => exact ⟨List.forall_mem_nil _, hIn⟩
  | moreStatements _ _ ihTree ihTrees =>
    obtain ⟨hTree, hIn⟩ := ihTree hIn
    obtain ⟨hTrees, hIn⟩ := ihTrees hIn
    exact ⟨List.forall_mem_cons.mpr ⟨hTree, hTrees⟩, hIn⟩
  | branch hIf _ _ _ ihCondition ihConsequent ihOther =>
    have hStart := hIf.over hIn nofun
    obtain ⟨⟨hCondition, -⟩, hIn⟩ := ihCondition (hIf.stays hIn)
    obtain ⟨hConsequent, hIn⟩ := ihConsequent hIn
    obtain ⟨hOther, hIn⟩ := ihOther hIn
    refine ⟨.intro (hStart.merge hIn.last) ?_, hIn⟩
    simp only [Tree.children, List.forall_mem_cons, Option.mem_toList]
    exact ⟨hCondition, hConsequent, hOther⟩
  | loop hWhile _ _ ihCondition ihBody =>
    have hStart := hWhile.over hIn nofun
    obtain ⟨⟨hCondition, -⟩, hIn⟩ := ihCondition (hWhile.stays hIn)
    obtain ⟨hBody, hIn⟩ := ihBody hIn
    refine ⟨.intro (hStart.merge hIn.last) ?_, hIn⟩
    simp only [Tree.children, List.forall_mem_cons]
    exact ⟨hCondition, hBody, List.forall_mem_nil _⟩
  | printing hPrint _ _ ihArgument ihEnd =>
    have hStart := hPrint.over hIn nofun
    obtain ⟨⟨hArgument, hClose⟩, hIn⟩ := ihArgument (hPrint.stays hIn)
    refine ⟨.intro (hStart.merge hClose.toFits) ?_, (ihEnd hIn).2⟩
    exact List.forall_mem_singleton.mpr hArgument
  | emptyStatement hToken | int hToken | true hToken | false hToken | null hToken | ref hToken =>
    exact over_leaf hToken hIn nofun rfl
  | expressionStatement _ _ ihTree ihEnd =>
    obtain ⟨hTree, hIn⟩ := ihTree hIn
    exact ⟨hTree, (ihEnd hIn).2⟩
  | semicolon hToken | functionName hToken | lastParam hToken => exact ⟨trivial, hToken.stays hIn⟩
  | beforeClose | anonymous | noParams => exact ⟨trivial, hIn⟩
  | braces hOpen _ hClose ihTrees =>
    have hOpening := hOpen.over hIn nofun
    obtain ⟨hTrees, hIn⟩ := ihTrees (hOpen.stays hIn)
    have hClosing := hClose.over hIn nofun
    exact ⟨Tree.over_run (hOpening.merge hClosing.toFits) hTrees, hClose.stays hIn⟩
  | single _ ih | comparison _ ih | someArguments _ ih | someParams _ ih => exact ih hIn
  | noAlternative => exact ⟨nofun, hIn⟩
  | alternative hElse _ ih =>
    obtain ⟨hTree, hIn⟩ := ih (hElse.stays hIn)
    refine ⟨?_, hIn⟩
    rintro _ ⟨⟩
    exact hTree
  | enclosed hOpen _ hClose ih =>
    obtain ⟨hTree, hIn⟩ := ih (hOpen.stays hIn)
    exact ⟨⟨hTree, hClose.over hIn nofun⟩, hClose.stays hIn⟩
  | declaration hVar hName hSign _ ihValue =>
    have hStart := hVar.over hIn nofun
    obtain ⟨hValue, hIn⟩ := ihValue (hSign.stays (hName.stays (hVar.stays hIn)))
    refine ⟨.intro (hStart.merge hValue.span.toFits) ?_, hIn⟩
    exact List.forall_mem_singleton.mpr hValue
  | assignment hName hSign _ ihValue =>
    have hStart := hName.over hIn nofun
    obtain ⟨hValue, hIn⟩ := ihValue (hSign.stays (hName.stays hIn))
    refine ⟨.intro (hStart.merge hValue.span.toFits) ?_, hIn⟩
    exact List.forall_mem_singleton.mpr hValue
  | level _ _ ihLeft ihOps =>
    obtain ⟨hLeft, hIn⟩ := ihLeft hIn
    obtain ⟨hOps, hIn⟩ := ihOps hIn
    exact ⟨Tree.over_operations (over_operand.mp hLeft) hOps, hIn⟩
  | moreOperations _ hSign _ _ ihRight ihOps =>
    obtain ⟨hRight, hIn⟩ := ihRight (hSign.stays hIn)
    obtain ⟨hOps, hIn⟩ := ihOps hIn
    exact ⟨List.forall_mem_cons.mpr ⟨over_operand.mp hRight, hOps⟩, hIn⟩
  | application _ _ ihCallee ihSuffixes =>
    obtain ⟨hCallee, hIn⟩ := ihCallee hIn
    obtain ⟨hSuffixes, hIn⟩ := ihSuffixes hIn
    exact ⟨Tree.over_calls hCallee hSuffixes, hIn⟩
  | moreCalls hOpen _ hClose _ ihArgs ihSuffixes =>
    obtain ⟨hArgs, hIn⟩ := ihArgs (hOpen.stays hIn)
    have hSpan := hClose.over hIn nofun
    obtain ⟨hSuffixes, hIn⟩ := ihSuffixes (hClose.stays hIn)
    exact ⟨List.forall_mem_cons.mpr ⟨⟨hArgs, hSpan⟩, hSuffixes⟩, hIn⟩
  | lastArgument _ ih =>
    obtain ⟨hTree, hIn⟩ := ih hIn
    exact ⟨List.forall_mem_singleton.mpr hTree, hIn⟩
  | nextArgument _ hComma _ ihTree ihTrees =>
    obtain ⟨hTree, hIn⟩ := ihTree hIn
    obtain ⟨hTrees, hIn⟩ := ihTrees (hComma.stays hIn)
    exact ⟨List.forall_mem_cons.mpr ⟨hTree, hTrees⟩, hIn⟩
  | parenthesized _ ih =>
    obtain ⟨⟨hTree, -⟩, hIn⟩ := ih hIn
    exact ⟨hTree, hIn⟩
  | function hFunction _ hOpen _ hClose _ ihName ihParams ihBody =>
    have hStart := hFunction.over hIn nofun
    obtain ⟨-, hIn⟩ := ihName (hFunction.stays hIn)
    obtain ⟨-, hIn⟩ := ihParams (hOpen.stays hIn)
    obtain ⟨hBody, hIn⟩ := ihBody (hClose.stays hIn)
    exact ⟨Tree.over_named (hStart.merge hIn.last) hBody, hIn⟩
  | nextParam hName hComma _ ih => exact ⟨trivial, (ih (hComma.stays (hName.stays hIn))).2⟩

/-- A program of a source stands over it, unless it has no statements. -/
theorem over_of_isProgram {source : String} {names : NameTable} {tree : Tree}
    (h : IsProgram rule (lex source names).tokens tree) :
    tree.Over source.toList ∨ tree = .null .origin := by
  obtain ⟨last, hTree⟩ := h
  exact (derives_over hTree ⟨Span.fits_origin _, lex_placed source names⟩).1

end Grammar

end FeatherScript
