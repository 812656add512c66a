import FeatherScript.Program
import FeatherScript.Proofs.Grammar.Recognition
import FeatherScript.Proofs.Tree.Forest

/-!
# What a parser stores

Whether a reading succeeds or fails, with or without errors that it recovers from, it adds nodes to
the table one construct after another. What it was given to hold and what it read is pending
afterwards; where it fails, all of that is given up. Without recorded errors nothing is given up.

* `Reply.Plants`: what a reply makes of the nodes that it holds.
* `Reply.Plants.bind`, `Reply.Plants.hold`, `State.plants_build`: one reading after another, nodes
  that a reading leaves alone, and nodes that are stored.
* `parse_built`: the table of every parse.
* `forest_of_readProgram`: the table of a program without errors.
-/

namespace FeatherScript

namespace Grammar

open NodeTable

/-! ## Replies -/

namespace Reply

variable {α β : Type} {s : State} {strict : Bool} {held : List NodeId} {ids : α → List NodeId}
  {ids' : β → List NodeId}

/-- From a table where some nodes are pending, a reply goes on to one where other nodes are pending
in their place, or none if it fails. It makes no orphans unless it records an error or fails. -/
structure Plants (r : Reply strict s α) (held : List NodeId) (ids : α → List NodeId) : Prop where
  ok : ∀ {a rest orphans}, r.result = .ok a → s.table.Built (held ++ rest) orphans →
    ∃ orphans', r.state.table.Built (ids a ++ rest) orphans' ∧
      (r.state.errors = s.errors → orphans' = orphans)
  error : ∀ {e rest orphans}, r.result = .error e → s.table.Built (held ++ rest) orphans →
    ∃ orphans', r.state.table.Built rest orphans'

theorem plants_done {a : α} (hIds : held.Perm (ids a)) :
    (done a : Reply false s α).Plants held ids := by
  refine ⟨fun hOk hBuilt => ?_, nofun⟩
  cases hOk
  exact ⟨_, hBuilt.reorder (hIds.append_right _), fun _ => rfl⟩

theorem plants_fail {expected : Expectation} :
    (fail expected : Reply strict s α).Plants held ids :=
  ⟨nofun, fun _ hBuilt => ⟨_, hBuilt.drop⟩⟩

theorem Plants.relax {r : Reply strict s α} (h : r.Plants held ids) : r.relax.Plants held ids :=
  ⟨h.ok, h.error⟩

/-- A reading leaves nodes alone that it was not given. -/
theorem Plants.hold {r : Reply strict s α} (h : r.Plants held ids) (more : List NodeId) :
    r.Plants (held ++ more) fun a => ids a ++ more := by
  refine ⟨fun hOk hBuilt => ?_, fun hError hBuilt => ?_⟩
  · rw [List.append_assoc] at hBuilt
    obtain ⟨orphans', hBuilt', hSame⟩ := h.ok hOk hBuilt
    exact ⟨orphans', by rwa [List.append_assoc], hSame⟩
  · rw [List.append_assoc] at hBuilt
    obtain ⟨orphans', hBuilt'⟩ := h.error hError hBuilt
    exact ⟨_, hBuilt'.drop⟩

/-- One reading after another that has succeeded. -/
theorem Plants.seq {strict' strict'' : Bool} {r : Reply strict s α} {r' : Reply strict' r.state β}
    {whole : Reply strict'' s β} {a : α} (h : r.Plants held ids) (hFirst : r.result = .ok a)
    (h' : r'.Plants (ids a) ids') (hResult : whole.result = r'.result)
    (hState : whole.state = r'.state) : whole.Plants held ids' := by
  refine ⟨fun hOk hBuilt => ?_, fun hError hBuilt => ?_⟩
  · obtain ⟨orphans₁, hBuilt₁, hSame₁⟩ := h.ok hFirst hBuilt
    obtain ⟨orphans₂, hBuilt₂, hSame₂⟩ := h'.ok (hResult.symm.trans hOk) hBuilt₁
    rw [hState]
    refine ⟨orphans₂, hBuilt₂, fun hErrors => ?_⟩
    have hClean := r.advances.errors_eq r'.advances hErrors
    exact (hSame₂ (hErrors.trans hClean.symm)).trans (hSame₁ hClean)
  · obtain ⟨orphans₁, hBuilt₁, -⟩ := h.ok hFirst hBuilt
    rw [hState]
    exact h'.error (hResult.symm.trans hError) hBuilt₁

theorem Plants.andThen {r : Reply true s α}
    {next : α → (t : State) → t.left < s.left → Reply strict t β} (h : r.Plants held ids)
    (hNext : ∀ a t hLeft, (next a t hLeft).Plants (ids a) ids') :
    (r.andThen next).Plants held ids' := by
  unfold Reply.andThen
  split
  · next hResult => exact ⟨nofun, fun _ hBuilt => h.error hResult hBuilt⟩
  · next a hResult => exact h.seq hResult (hNext a _ _) rfl rfl

theorem Plants.bind {r : Reply false s α}
    {next : α → (t : State) → t.left ≤ s.left → Reply strict t β} (h : r.Plants held ids)
    (hNext : ∀ a t hLeft, (next a t hLeft).Plants (ids a) ids') :
    (r.bind next).Plants held ids' := by
  unfold Reply.bind
  split
  · next hResult => exact ⟨nofun, fun _ hBuilt => h.error hResult hBuilt⟩
  · next a hResult => exact h.seq hResult (hNext a _ _) rfl rfl

/-- Recovery from an error makes orphans, but it has recorded the error. -/
theorem Plants.orRecover {r : Reply true s α} {recover : State → ParseError → State}
    {hRecover : ∀ (t : State) e, (t.record e).Advances (recover t e)}
    {hLess : ∀ (t : State) e, t.rest = s.rest → (recover t e).left < t.left}
    (hTable : ∀ t e, (recover t e).table = t.table) (h : r.Plants [] ids) :
    (r.orRecover recover hRecover hLess).Plants [] fun found => found.elim [] ids := by
  unfold Reply.orRecover
  split
  · next a hResult =>
    refine ⟨fun hOk hBuilt => ?_, nofun⟩
    cases hOk
    exact h.ok hResult hBuilt
  · next e hResult =>
    refine ⟨fun hOk hBuilt => ?_, nofun⟩
    cases hOk
    obtain ⟨orphans', hBuilt'⟩ := h.error hResult hBuilt
    refine ⟨orphans', by rw [hTable]; exact hBuilt', fun hErrors => ?_⟩
    have hRecord := r.state.advances_record e
    have hClean := r.advances.errors_eq (hRecord.trans (hRecover r.state e)) hErrors
    have hPushed := (r.advances.trans hRecord).errors_eq (hRecover r.state e) hErrors
    have hSize := congrArg Array.size (hPushed.trans hClean.symm)
    simp [State.record] at hSize

end Reply

/-! ## Tokens and nodes -/

namespace State

open Reply

variable {α β : Type} {s : State} {strict inner : Bool} {held : List NodeId}
  {ids : β → List NodeId}

theorem plants_takeOr {read : TokenKind → Option α} {otherwise : Reply strict s β}
    {next : α → Span → (t : State) → t.left < s.left → Reply inner t β}
    (hOtherwise : otherwise.Plants held ids)
    (hNext : ∀ a span t hLeft, (next a span t hLeft).Plants held ids) :
    (s.takeOr read otherwise next).Plants held ids := by
  obtain ⟨rest, last, table, errors⟩ := s
  cases rest with
  | nil => exact hOtherwise
  | cons token rest =>
    unfold takeOr
    dsimp only
    split
    · exact hOtherwise
    · split
      · exact hOtherwise
      · next a _ =>
        have hRest := hNext a token.span ⟨rest, token.span, table, errors⟩
          (Nat.lt_succ_self rest.length)
        exact ⟨hRest.ok, hRest.error⟩

theorem plants_eatOr {sign : Symbol} {otherwise : Reply strict s β}
    {next : Span → (t : State) → t.left < s.left → Reply inner t β}
    (hOtherwise : otherwise.Plants held ids)
    (hNext : ∀ span t hLeft, (next span t hLeft).Plants held ids) :
    (s.eatOr sign otherwise next).Plants held ids :=
  plants_takeOr hOtherwise fun _ => hNext

theorem plants_advance {expected : Expectation} :
    (s.advance expected).Plants held fun _ => held :=
  plants_takeOr plants_fail fun _ _ _ _ => plants_done (.refl held)

theorem plants_expect {sign : Symbol} {expected : Expectation} :
    (s.expect sign expected).Plants held fun _ => held :=
  plants_eatOr plants_fail fun _ _ _ => plants_done (.refl held)

theorem plants_expectName : s.expectName.Plants held fun _ => held :=
  plants_takeOr plants_fail fun _ _ _ _ => plants_done (.refl held)

theorem plants_optionalName : s.optionalName.Plants held fun _ => held :=
  plants_takeOr (plants_done (.refl held)) fun _ _ _ _ => plants_done (.refl held)

/-- What is stored takes the place of what it is made of. -/
theorem plants_build {f : NodeTable → NodeId × NodeTable}
    {hGrows : ∀ t : NodeTable, t.Grows (f t).2}
    (hBuild : ∀ {t : NodeTable} {rest orphans}, t.Built (held ++ rest) orphans →
      (f t).2.Built ((f t).1 :: rest) orphans) :
    (s.build f hGrows).Plants held fun id => [id] := by
  refine ⟨fun hOk hBuilt => ?_, nofun⟩
  cases hOk
  exact ⟨_, hBuild hBuilt, fun _ => rfl⟩

theorem plants_addNode {form : Form} {span : Span} (hPlain : form.Plain)
    (hParts : held.Perm form.parts) : (s.addNode form span).Plants held fun id => [id] :=
  plants_build fun hBuilt => .plain hPlain (hBuilt.reorder (hParts.append_right _))

end State

/-! ## Blocks -/

open Reply State

/-- A reply whose result is one new node, or fails. -/
abbrev Reply.PlantsOne {strict : Bool} {s : State} (r : Reply strict s NodeId) : Prop :=
  r.Plants [] fun id => [id]

/-- The nested expressions and statements are planted. -/
structure Below.Planted {bound : List Token} (below : Below bound) : Prop where
  expression : ∀ s hBound, (below.expression s hBound).PlantsOne
  statement : ∀ s hBound, (below.statement s hBound).PlantsOne

variable {bound : List Token} {below : Below bound}

theorem plants_found {s : State} (found : Option NodeId) (more : List NodeId) :
    (done (found.toList ++ more) : Reply false s (List NodeId)).Plants
      (more ++ found.elim [] fun id => [id]) id := by
  refine plants_done ?_
  cases found with
  | none => exact .of_eq (List.append_nil more)
  | some found => exact List.perm_append_singleton found more

theorem statements_plants (hBelow : below.Planted) {s : State} {hBound : s.left < bound.length} :
    (statements below s hBound).Plants [] id := by
  rw [statements]
  split
  · exact plants_done (.refl [])
  · have hTable : ∀ (t : State) e, (t.recover e).table = t.table := fun _ _ => rfl
    refine (((hBelow.statement s hBound).orRecover hTable).andThen fun found t hLess => ?_).relax
    exact ((statements_plants hBelow).hold _).bind fun more _ _ => plants_found found more
termination_by s.left

theorem block_plants (hBelow : below.Planted) {s : State} {hBound : s.left < bound.length} :
    (block below s hBound).PlantsOne := by
  refine plants_eatOr (hBelow.statement s hBound) fun opening s₁ _ => ?_
  refine (statements_plants hBelow).bind fun ids s₂ _ => ?_
  refine plants_expect.andThen fun closing s₃ _ => ?_
  exact plants_build Built.addRun

/-! ## Expressions -/

theorem paramNames_plants {s : State} : (paramNames s).Plants [] fun _ => [] := by
  rw [paramNames]
  refine plants_expectName.andThen fun name t hLess => ?_
  refine plants_eatOr (plants_done (.refl [])) fun comma u hLess' => ?_
  exact paramNames_plants.andThen fun more _ _ => plants_done (.refl [])
termination_by s.left

theorem params_plants {s : State} : (params s).Plants [] fun _ => [] := by
  rw [params]
  split
  · exact plants_done (.refl [])
  · exact paramNames_plants.relax

theorem function_plants (hBelow : below.Planted) {s : State} {hBound : s.left ≤ bound.length} :
    (function below s hBound).PlantsOne := by
  refine plants_advance.andThen fun start s₁ _ => ?_
  refine plants_optionalName.bind fun name s₂ _ => ?_
  refine plants_expect.andThen fun opening s₃ _ => ?_
  refine params_plants.bind fun names s₄ _ => ?_
  refine plants_expect.andThen fun close s₅ _ => ?_
  refine (block_plants hBelow).andThen fun body s₆ _ => ?_
  exact plants_build Built.addFunction

theorem leaf_plants {s : State} {form : Form} (hPlain : form.Plain) (hParts : form.parts = []) :
    (leaf s form).PlantsOne :=
  plants_advance.andThen fun _ _ _ => plants_addNode hPlain (.of_eq hParts.symm)

theorem primary_plants (hBelow : below.Planted) {s : State} {hBound : s.left ≤ bound.length} :
    (primary below s hBound).PlantsOne := by
  rw [primary]
  split
  · exact leaf_plants trivial rfl
  · exact leaf_plants trivial rfl
  · exact leaf_plants trivial rfl
  · exact function_plants hBelow
  · refine plants_advance.andThen fun opening s₁ _ => ?_
    refine (hBelow.expression s₁ _).andThen fun inner s₂ _ => ?_
    exact plants_expect.andThen fun _ _ _ => plants_done (.refl [inner])
  · exact leaf_plants trivial rfl
  · exact leaf_plants trivial rfl
  · exact plants_fail

theorem argumentIds_plants (hBelow : below.Planted) {s : State} {hBound : s.left < bound.length} :
    (argumentIds below s hBound).Plants [] id := by
  rw [argumentIds]
  refine (hBelow.expression s hBound).andThen fun id t hLess => ?_
  refine plants_eatOr (plants_done (.refl [id])) fun comma u hLess' => ?_
  refine ((argumentIds_plants hBelow).hold [id]).andThen fun more _ _ => ?_
  exact plants_done (List.perm_append_singleton id more)
termination_by s.left

theorem arguments_plants (hBelow : below.Planted) {s : State} {hBound : s.left < bound.length} :
    (arguments below s hBound).Plants [] id := by
  rw [arguments]
  split
  · exact plants_done (.refl [])
  · exact (argumentIds_plants hBelow).relax

theorem callSuffixes_plants (hBelow : below.Planted) {s : State} {hBound : s.left ≤ bound.length}
    {callee : NodeId} : (callSuffixes below callee s hBound).Plants [callee] fun id => [id] := by
  rw [callSuffixes]
  refine plants_eatOr (plants_done (.refl [callee])) fun opening s₁ hLess => ?_
  refine ((arguments_plants hBelow).hold [callee]).bind fun args s₂ hLeft => ?_
  refine plants_expect.andThen fun close s₃ hLess' => ?_
  refine (plants_build fun hBuilt => ?_).bind fun call s₄ hLeft' => callSuffixes_plants hBelow
  exact .call (hBuilt.reorder ((List.perm_append_singleton callee args).append_right _))
termination_by s.left

theorem postfixExpr_plants (hBelow : below.Planted) {s : State} {hBound : s.left ≤ bound.length} :
    (postfixExpr below s hBound).PlantsOne :=
  (primary_plants hBelow).andThen fun _ _ _ => callSuffixes_plants hBelow

variable {read : TokenKind → Option Operator}
  {operand : (s : State) → s.left ≤ bound.length → Reply true s NodeId}

theorem operations_plants (hOperand : ∀ s hBound, (operand s hBound).PlantsOne) {s : State}
    {hBound : s.left ≤ bound.length} {left : NodeId} :
    (operations read operand left s hBound).Plants [left] fun id => [id] := by
  rw [operations]
  refine plants_takeOr (plants_done (.refl [left])) fun op sign s₁ hLess => ?_
  refine ((hOperand s₁ _).hold [left]).andThen fun right s₂ hLess' => ?_
  refine (plants_build fun hBuilt => ?_).bind fun whole s₃ hLeft => operations_plants hOperand
  exact .addBinary (hBuilt.reorder (.swap left right _))
termination_by s.left

theorem binaryLevel_plants (hOperand : ∀ s hBound, (operand s hBound).PlantsOne) {s : State}
    {hBound : s.left ≤ bound.length} : (binaryLevel read operand s hBound).PlantsOne :=
  (hOperand s hBound).andThen fun _ _ _ => operations_plants hOperand

theorem comparison_plants (hBelow : below.Planted) {s : State} {hBound : s.left ≤ bound.length} :
    (comparison below s hBound).PlantsOne := by
  have hMultiplicative : ∀ s hBound, (multiplicative below s hBound).PlantsOne :=
    fun _ _ => binaryLevel_plants fun _ _ => postfixExpr_plants hBelow
  have hAdditive : ∀ s hBound, (additive below s hBound).PlantsOne :=
    fun _ _ => binaryLevel_plants hMultiplicative
  exact binaryLevel_plants hAdditive

theorem declaration_plants (hBelow : below.Planted) {s : State} {hBound : s.left ≤ bound.length} :
    (declaration below s hBound).PlantsOne := by
  refine plants_advance.andThen fun start s₁ _ => ?_
  refine plants_expectName.andThen fun name s₂ _ => ?_
  refine plants_expect.andThen fun sign s₃ _ => ?_
  refine (hBelow.expression s₃ _).andThen fun value s₄ _ => ?_
  exact plants_addNode trivial (.refl [value])

theorem assignment_plants (hBelow : below.Planted) {s : State} {hBound : s.left ≤ bound.length}
    {name : Name} : (assignment below name s hBound).PlantsOne := by
  refine plants_advance.andThen fun start s₁ _ => ?_
  refine plants_expect.andThen fun sign s₂ _ => ?_
  refine (hBelow.expression s₂ _).andThen fun value s₃ _ => ?_
  exact plants_addNode trivial (.refl [value])

theorem expressionWith_plants (hBelow : below.Planted) {s : State}
    {hBound : s.left ≤ bound.length} : (expressionWith below s hBound).PlantsOne := by
  rw [expressionWith]
  split
  · exact declaration_plants hBelow
  · split
    · exact assignment_plants hBelow
    · exact comparison_plants hBelow
  · exact comparison_plants hBelow

/-! ## Statements -/

theorem terminator_plants {s : State} {held : List NodeId} :
    (terminator s).Plants held fun _ => held := by
  refine plants_eatOr ?_ fun _ _ _ => plants_done (.refl held)
  split
  · exact plants_done (.refl held)
  · exact plants_fail

theorem parenthesized_plants (hBelow : below.Planted) {s : State}
    {hBound : s.left ≤ bound.length} :
    (parenthesized below s hBound).Plants [] fun inner => [inner.1] := by
  refine plants_expect.andThen fun opening s₁ _ => ?_
  refine (hBelow.expression s₁ _).andThen fun inner s₂ _ => ?_
  exact plants_expect.andThen fun _ _ _ => plants_done (.refl [inner])

theorem alternative_plants (hBelow : below.Planted) {s : State} {hBound : s.left < bound.length} :
    (alternative below s hBound).Plants [] Option.toList := by
  refine plants_takeOr (plants_done (.refl [])) fun _ _ s₁ _ => ?_
  exact (block_plants hBelow).andThen fun other _ _ => plants_done (.refl [other])

theorem branch_plants (hBelow : below.Planted) {s : State} {hBound : s.left ≤ bound.length} :
    (branch below s hBound).PlantsOne := by
  refine plants_advance.andThen fun start s₁ _ => ?_
  refine (parenthesized_plants hBelow).andThen fun condition s₂ _ => ?_
  refine ((block_plants hBelow).hold [condition.1]).andThen fun consequent s₃ _ => ?_
  refine ((alternative_plants hBelow).hold [consequent, condition.1]).bind fun other s₄ _ => ?_
  exact plants_addNode trivial (List.perm_append_comm.trans (.swap condition.1 consequent _))

theorem loop_plants (hBelow : below.Planted) {s : State} {hBound : s.left ≤ bound.length} :
    (loop below s hBound).PlantsOne := by
  refine plants_advance.andThen fun start s₁ _ => ?_
  refine (parenthesized_plants hBelow).andThen fun condition s₂ _ => ?_
  refine ((block_plants hBelow).hold [condition.1]).andThen fun body s₃ _ => ?_
  exact plants_addNode trivial (.swap condition.1 body [])

theorem printing_plants (hBelow : below.Planted) {s : State} {hBound : s.left ≤ bound.length} :
    (printing below s hBound).PlantsOne := by
  refine plants_advance.andThen fun start s₁ _ => ?_
  refine (parenthesized_plants hBelow).andThen fun argument s₂ _ => ?_
  refine terminator_plants.bind fun _ s₃ _ => ?_
  exact plants_addNode trivial (.refl [argument.1])

theorem statementWith_plants (hBelow : below.Planted) {s : State}
    {hBound : s.left ≤ bound.length} : (statementWith below s hBound).PlantsOne := by
  rw [statementWith]
  split
  · exact branch_plants hBelow
  · exact loop_plants hBelow
  · exact printing_plants hBelow
  · exact leaf_plants trivial rfl
  · refine (expressionWith_plants hBelow).andThen fun whole s₁ _ => ?_
    exact terminator_plants.bind fun _ _ _ => plants_done (.refl [whole])

/-! ## Programs -/

theorem nested_planted (bound : List Token) : (nested bound).Planted := by
  induction hLength : bound.length using Nat.strongRecOn generalizing bound with
  | ind n ih =>
    have hRest : ∀ s : State, s.left < bound.length → (nested s.rest).Planted :=
      fun s hBound => ih s.left (hLength ▸ hBound) s.rest rfl
    constructor
    · intro s hBound
      rw [show (nested bound).expression s hBound = expression s from rfl, expression]
      exact expressionWith_plants (hRest s hBound)
    · intro s hBound
      rw [show (nested bound).statement s hBound = statement s from rfl, statement]
      exact statementWith_plants (hRest s hBound)

theorem statement_plants (s : State) : (statement s).PlantsOne := by
  rw [statement]
  exact statementWith_plants (nested_planted s.rest)

theorem table_strayBrace (s : State) : (strayBrace s).state.table = s.table := by
  obtain ⟨rest, last, table, errors⟩ := s
  cases rest with
  | nil => rfl
  | cons token rest =>
    unfold strayBrace eatOr takeOr
    dsimp only
    split
    · rfl
    · split <;> rfl

theorem topStatements_plants (s : State) : (topStatements s).Plants [] id := by
  rw [topStatements]
  split
  · exact plants_done (.refl [])
  · have hTable : ∀ (t : State) e, (recoverOutside t e).table = t.table :=
      fun t e => table_strayBrace (t.recover e)
    refine (((statement_plants s).orRecover hTable).andThen fun found t hLess => ?_).relax
    exact ((topStatements_plants t).hold _).bind fun more _ _ => plants_found found more
termination_by s.left

/-- Only the root of a parse is pending, and without errors nothing is an orphan. -/
theorem parse_built (tokens : List Token) : ∃ orphans,
    (parse tokens).table.Built [(parse tokens).root] orphans ∧
      ((parse tokens).errors = [] → orphans = []) := by
  obtain ⟨⟨ids, hOk⟩, -⟩ := topStatements_ends (.initial tokens)
  have hStart : NodeTable.empty.Built ([] ++ []) [] := .empty
  obtain ⟨orphans, hBuilt, hSame⟩ := (topStatements_plants (.initial tokens)).ok hOk hStart
  refine ⟨orphans, ?_, fun hErrors => hSame (Array.toList_inj.mp hErrors)⟩
  rw [parse, hOk]
  exact hBuilt.addRun

end Grammar

/-! ## Sources -/

/-- A program is what was parsed from the tokens of its source, without errors. -/
theorem parsed_of_readProgram {source : String} {p : Program} (hRead : readProgram source = .ok p) :
    (parse (lex source .initial).tokens).errors = [] ∧
      p.table = (parse (lex source .initial).tokens).table ∧
      p.root = (parse (lex source .initial).tokens).root := by
  unfold readProgram readTokens at hRead
  generalize lex source .initial = lexed at hRead ⊢
  dsimp only at hRead
  split at hRead
  · cases hRead
  · change (if (parse lexed.tokens).hasErrors then _ else _) = _ at hRead
    split at hRead
    · cases hRead
    · next hClean =>
      cases hRead
      exact ⟨by simpa [Parsed.hasErrors] using hClean, rfl, rfl⟩

/-- The table of a program without errors is a tree. -/
theorem forest_of_readProgram {source : String} {p : Program} (hRead : readProgram source = .ok p) :
    p.table.Forest [p.root] [] := by
  obtain ⟨hErrors, hTable, hRoot⟩ := parsed_of_readProgram hRead
  obtain ⟨orphans, hBuilt, hNone⟩ := Grammar.parse_built (lex source .initial).tokens
  rw [hNone hErrors] at hBuilt
  rw [hTable, hRoot]
  exact hBuilt.forest

end FeatherScript
