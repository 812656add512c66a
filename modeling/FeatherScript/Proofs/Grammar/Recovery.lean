import FeatherScript.Proofs.Grammar.Iterations
import FeatherScript.Proofs.Grammar.Parallel
import FeatherScript.Proofs.Grammar.Provenance
import FeatherScript.Proofs.Tree.Concatenation

/-!
# Recovery leaves no trace

When the loop over the statements of a program starts a pass, it does not matter how it came there.
What is read, stored and recorded from then on is what the tokens from there on give as a program of
their own; only the numbers of the nodes and the slices of the table stand behind those before.

* `Pass.alike`, `Passes.alike`: passes from states that are alike.
* `behind`: what has been read so far before what is read by itself.
* `State.Collects`: the trees of the statements that passes read.
* `parse_resumes`: the theorem.
-/

namespace FeatherScript

namespace Grammar

open Likeness Enclosing

/-! ## Passes side by side -/

namespace Enclosing

variable {L : Likeness} {w : Enclosing} {s s' t : State} {found : Option NodeId}
  {founds : List (Option NodeId)}

theorem stops_iff (hL : L.Respected) (h : L.States s s') : w.Stops s' ↔ w.Stops s := by
  cases w with
  | program => exact h.atEnd_iff hL
  | block => exact h.atClose_iff hL

theorem recover_alike (hL : L.Respected) {e e' : ParseError} (h : L.States s s')
    (he : L.Faults e e') : L.States (w.recover s e) (w.recover s' e') := by
  cases w with
  | program => exact recoverOutside_alike hL h he
  | block => exact h.recover hL he

/-- A pass from a state is one from every state that is alike. -/
theorem Pass.alike (hL : L.Respected) (h : L.States s s') (hPass : w.Pass s found t) :
    ∃ found' t', w.Pass s' found' t' ∧ Option.Rel L.Ids found found' ∧ L.States t t' := by
  have hStatement := statement_alike hL h
  have hMore : ¬ w.Stops s' := mt (stops_iff hL h).mp hPass.more
  cases hPass with
  | read _ hOk =>
    obtain ⟨_, _, hError, -, -⟩ | ⟨id, id', hOk', hOk'', hId⟩ := hStatement.cases
    · cases hError.symm.trans hOk
    · cases hOk'.symm.trans hOk
      exact ⟨some id', _, .read hMore hOk'', .some hId, hStatement.state⟩
  | skipped _ hError =>
    obtain ⟨e, e', hError', hError'', hFault⟩ | ⟨_, _, hOk, -, -⟩ := hStatement.cases
    · cases hError'.symm.trans hError
      exact ⟨none, _, .skipped hMore hError'', .none, recover_alike hL hStatement.state hFault⟩
    · cases hOk.symm.trans hError

theorem Passes.alike (hL : L.Respected) (h : L.States s s') (hPasses : w.Passes s founds t) :
    ∃ founds' t', w.Passes s' founds' t' ∧ List.Forall₂ (Option.Rel L.Ids) founds founds' ∧
      L.States t t' := by
  induction hPasses generalizing s' with
  | nil => exact ⟨[], s', .nil, .nil, h⟩
  | cons hFirst _ ih =>
    obtain ⟨found', u', hFirst', hFound, hu⟩ := hFirst.alike hL h
    obtain ⟨founds', t', hMore', hFounds, ht⟩ := ih hu
    exact ⟨found' :: founds', t', .cons hFirst' hMore', .cons hFound hFounds, ht⟩

/-! ## The trees of passes -/

/-- A pass adds what it read to the nodes that are pending. -/
theorem Pass.built (hPass : w.Pass s found t) {rest orphans : List NodeId}
    (hBuilt : s.table.Built rest orphans) :
    ∃ orphans', t.table.Built (found.toList ++ rest) orphans' := by
  cases hPass with
  | read _ hOk =>
    obtain ⟨orphans', hBuilt', -⟩ := (statement_plants s).ok hOk hBuilt
    exact ⟨orphans', hBuilt'⟩
  | @skipped e _ hError =>
    obtain ⟨orphans', hBuilt'⟩ := (statement_plants s).error hError hBuilt
    refine ⟨orphans', ?_⟩
    cases w with
    | program =>
      have hTable : (recoverOutside (statement s).state e).table = (statement s).state.table :=
        table_strayBrace _
      rw [recover, hTable]
      exact hBuilt'
    | block => exact hBuilt'

theorem Passes.built (hPasses : w.Passes s founds t) {rest orphans : List NodeId}
    (hBuilt : s.table.Built rest orphans) :
    ∃ orphans', t.table.Built (founds.reduceOption ++ rest) orphans' := by
  induction hPasses generalizing rest orphans with
  | nil => exact ⟨orphans, hBuilt⟩
  | @cons s u t found founds hFirst _ ih =>
    obtain ⟨_, hBuilt'⟩ := hFirst.built hBuilt
    obtain ⟨orphans', hBuilt''⟩ := ih hBuilt'
    refine ⟨orphans', hBuilt''.reorder ?_⟩
    cases found with
    | none => exact .refl _
    | some id => exact List.perm_middle

end Enclosing

/-- The trees of the nodes that passes found; a pass that skipped its statement has none. -/
def State.Collects (t : State) (founds : List (Option NodeId)) (trees : List (Option Tree)) :
    Prop :=
  List.Forall₂ (Option.Rel fun id tree => t.table.tree? id = some tree) founds trees

namespace State.Collects

variable {t u : State} {founds more : List (Option NodeId)} {trees others : List (Option Tree)}

theorem treesOf (h : t.Collects founds trees) :
    TreesOf t.table founds.reduceOption trees.reduceOption := by
  induction h with
  | nil => exact .nil
  | cons hFound _ ih =>
    cases hFound with
    | none => exact ih
    | some hTree => exact .cons hTree ih

theorem of_grows (hGrows : t.table.Grows u.table) (h : t.Collects founds trees) :
    u.Collects founds trees :=
  h.imp fun _ _ hFound => by
    cases hFound with
    | none => exact .none
    | some hTree => exact .some (NodeTable.tree?_of_grows hGrows hTree)

theorem append (h : t.Collects founds trees) (hMore : t.Collects more others) :
    t.Collects (founds ++ more) (trees ++ others) := List.rel_append h hMore

/-- The root of a parse unfolds to the run of the statements that its passes read. -/
theorem tree?_root (h : t.Collects founds trees) :
    (parsedFrom founds t).table.tree? (parsedFrom founds t).root =
      some (Tree.run .origin trees.reduceOption) :=
  NodeTable.tree?_addRun h.treesOf

end State.Collects

/-- Every statement that the passes of a program read has a tree. -/
theorem exists_collects {tokens : List Token} {founds : List (Option NodeId)} {t : State}
    (hPasses : program.Passes (.initial tokens) founds t) : ∃ trees, t.Collects founds trees := by
  obtain ⟨orphans, hBuilt⟩ := hPasses.built NodeTable.Built.empty
  have hPending := hBuilt.forest.pending_lt
  refine NodeTable.exists_forall₂ fun found hFound => ?_
  cases found with
  | none => exact ⟨none, .none⟩
  | some id =>
    have hId : id ∈ founds.reduceOption ++ [] := by simpa [List.reduceOption_mem_iff] using hFound
    obtain ⟨tree, hTree⟩ := hBuilt.arranged.formed.exists_tree (hPending id hId)
    exact ⟨some tree, .some hTree⟩

/-! ## What was read so far -/

/-- All that follows in a reading, with what was read before it, and the same by itself. -/
def behind (s : State) : Likeness where
  Names := Eq
  Tokens := Eq
  Spans := Eq
  Ids id id' := id = s.table.size + id'
  ArgSlices args args' := args = args'.shift s.table.args.size
  ParamSlices params params' := params = params'.shift s.table.params.size
  Tables t t' := t = s.table.append t'
  Errors errors errors' := errors = s.errors ++ errors'
  start := s.left

variable {s : State}

theorem form_behind {form form' : Form} (h : (behind s).Forms form form') :
    form = form'.shift s.table := by
  cases h with
  | int | bool | null => rfl
  | ref hName => exact congrArg Form.ref hName
  | print hArgument => exact congrArg Form.print hArgument
  | binary op hLeft hRight => exact congrArg₂ (Form.binary op) hLeft hRight
  | branch hCondition hConsequent hAlternative =>
    cases hAlternative with
    | none => exact hCondition ▸ hConsequent ▸ rfl
    | some hSame => exact hCondition ▸ hConsequent ▸ hSame ▸ rfl
  | loop hCondition hBody => exact congrArg₂ Form.loop hCondition hBody
  | sequence hFirst hSecond => exact congrArg₂ Form.sequence hFirst hSecond
  | declare hName hValue => exact congrArg₂ Form.declare hName hValue
  | assign hName hValue => exact congrArg₂ Form.assign hName hValue
  | function hParams hBody => exact congrArg₂ Form.function hParams hBody
  | call hCallee hArgs => exact congrArg₂ Form.call hCallee hArgs

theorem behind_respected (s : State) : (behind s).Respected where
  kind := by
    rintro x _ rfl
    exact kind_alike_self x.kind
  span := congrArg Token.span
  merge := congrArg₂ Span.merge
  spanOf := by
    rintro _ t' _ id' rfl rfl
    exact NodeTable.spanOf_append id'
  node {_ t' form form' span span'} hTable hForm hSpan := by
    obtain rfl := hTable
    obtain rfl := form_behind hForm
    obtain rfl := hSpan
    have hAdded := NodeTable.addNode_append s.table t' form' span
    exact ⟨congrArg Prod.fst hAdded, congrArg Prod.snd hAdded⟩
  args {_ t' ids ids'} hTable hIds := by
    obtain rfl := hTable
    obtain rfl : ids = ids'.map (s.table.size + ·) := by
      induction hIds with
      | nil => rfl
      | cons hId _ ih => exact congrArg₂ List.cons hId ih
    have hAdded := NodeTable.addArgs_append s.table t' ids'
    exact ⟨congrArg Prod.fst hAdded, congrArg Prod.snd hAdded⟩
  params {_ t' names names'} hTable hNames := by
    obtain rfl := hTable
    obtain rfl : names = names' := List.forall₂_eq_eq_eq ▸ hNames
    have hAdded := NodeTable.addParams_append s.table t' names
    exact ⟨congrArg Prod.fst hAdded, congrArg Prod.snd hAdded⟩
  push := by
    rintro _ errors' ⟨expected, token⟩ ⟨expected', token'⟩ rfl ⟨hExpected, hFound⟩
    obtain rfl : expected' = expected := hExpected
    obtain rfl : token = token' := hFound
    exact Array.push_append

section

variable {L : Likeness} {ts ts' : List Token} {x : Token}

theorem beforeEnd_eq_nil_iff : beforeEnd ts = [] ↔ (headToken ts).kind = .endOfFile := by
  cases ts with
  | nil => exact ⟨fun _ => rfl, fun _ => rfl⟩
  | cons x ts => simp [beforeEnd, headToken]

theorem fromEnd_of_end (hEnd : (headToken ts).kind = .endOfFile) : fromEnd ts = ts := by
  cases ts with
  | nil => rfl
  | cons x ts =>
    have hKind : x.kind = .endOfFile := hEnd
    simp [fromEnd, hKind]

theorem beforeEnd_cons (hMore : x.kind ≠ .endOfFile) :
    beforeEnd (x :: ts) = x :: beforeEnd ts ∧ fromEnd (x :: ts) = fromEnd ts := by
  simp [beforeEnd, fromEnd, hMore]

/-- Tokens that are the same up to the first end of the source are aligned, whatever follows it. -/
theorem aligned_of_same (hTokens : ∀ x, L.Tokens x x) (hBefore : beforeEnd ts' = beforeEnd ts)
    (hLast : headToken (fromEnd ts') = headToken (fromEnd ts)) : L.Aligned ts ts' := by
  induction ts generalizing ts' with
  | nil =>
    rw [fromEnd_of_end (beforeEnd_eq_nil_iff.mp hBefore)] at hLast
    exact .stop rfl (hLast ▸ hTokens _)
  | cons x ts ih =>
    by_cases hEnd : x.kind = .endOfFile
    · have hNone : beforeEnd (x :: ts) = [] := beforeEnd_eq_nil_iff.mpr hEnd
      have hEnd' := beforeEnd_eq_nil_iff.mp (hBefore.trans hNone)
      have hWhole : fromEnd (x :: ts) = x :: ts := fromEnd_of_end hEnd
      rw [fromEnd_of_end hEnd', hWhole] at hLast
      exact .stop hEnd (hLast ▸ hTokens _)
    · rw [(beforeEnd_cons hEnd).1] at hBefore
      rw [(beforeEnd_cons hEnd).2] at hLast
      have hMore : ¬ (headToken ts').kind = .endOfFile := fun hEnd' => by
        cases hBefore.symm.trans (beforeEnd_eq_nil_iff.mpr hEnd')
      cases ts' with
      | nil => exact absurd rfl hMore
      | cons y ts' =>
        have hCons : y.kind ≠ .endOfFile := hMore
        rw [(beforeEnd_cons hCons).1] at hBefore
        rw [(beforeEnd_cons hCons).2] at hLast
        obtain ⟨rfl, hRest⟩ := List.cons.inj hBefore
        exact .next hEnd (hTokens y) (ih hRest hLast)

/-- Every list of tokens is aligned with itself. -/
theorem aligned_self (hTokens : ∀ x, L.Tokens x x) (tokens : List Token) :
    L.Aligned tokens tokens :=
  aligned_of_same hTokens rfl rfl

end

/-- A state is behind what was read so far as its tokens are at the start of their own program. -/
theorem behind_initial (s : State) : (behind s).States s (.initial s.rest) where
  rest := aligned_self (fun _ => rfl) s.rest
  last hLess := absurd hLess (Nat.lt_irrefl _)
  begun := Nat.le_refl _
  table := (NodeTable.append_empty s.table).symm
  errors := (Array.append_empty).symm

/-- The trees of alike passes are the same. -/
theorem State.Collects.of_behind {t t' : State} {founds founds' : List (Option NodeId)}
    {trees : List (Option Tree)} (hStates : (behind s).States t t')
    (hFounds : List.Forall₂ (Option.Rel (behind s).Ids) founds founds')
    (h : t'.Collects founds' trees) : t.Collects founds trees := by
  have hTable : t.table = s.table.append t'.table := hStates.table
  induction hFounds generalizing trees with
  | nil =>
    cases h
    exact .nil
  | cons hFound _ ih =>
    cases h with
    | cons hTree hTrees =>
      refine .cons ?_ (ih hTrees)
      cases hFound with
      | none =>
        cases hTree
        exact .none
      | some hId =>
        cases hTree with
        | some hTree =>
          refine .some ?_
          rw [hTable, show _ = _ from hId, NodeTable.tree?_append, hTree]

/-! ## The theorem -/

/-- From every state in which the loop over the statements of a program starts a pass, after any
number of statements that could be read or were skipped, the reading goes on as if the rest of the
tokens were a program of their own: its further passes read the same trees, with the same spans, or
skip where the own program does; the errors are those so far and then those of the own program; and
the table is the one so far with the own one behind it. -/
theorem parse_resumes {tokens : List Token} {founds : List (Option NodeId)} {s : State}
    (hPasses : program.Passes (.initial tokens) founds s) :
    s.rest <:+ tokens ∧
    (parse tokens).errors = s.errors.toList ++ (parse s.rest).errors ∧
    ∃ later own t t' before trees,
      program.Passes s later t ∧ parse tokens = parsedFrom (founds ++ later) t ∧
      program.Passes (.initial s.rest) own t' ∧ parse s.rest = parsedFrom own t' ∧
      t.table = s.table.append t'.table ∧
      s.Collects founds before ∧ t.Collects later trees ∧ t'.Collects own trees ∧
      (parse tokens).table.tree? (parse tokens).root =
        some (Tree.run .origin (before ++ trees).reduceOption) ∧
      (parse s.rest).table.tree? (parse s.rest).root =
        some (Tree.run .origin trees.reduceOption) := by
  obtain ⟨later, t, hLater, hEnd, -⟩ := topStatements_passes s
  obtain ⟨own, t', hOwn, hFounds, hStates⟩ :=
    hLater.alike (behind_respected s) (behind_initial s)
  have hEnd' : t'.AtEnd := (hStates.atEnd_iff (behind_respected s)).mpr hEnd
  have hWhole := parse_of_passes (hPasses.append hLater) hEnd
  have hRest := parse_of_passes hOwn hEnd'
  obtain ⟨before, hBefore⟩ := exists_collects hPasses
  obtain ⟨trees, hTrees⟩ := exists_collects hOwn
  have hTrees' := hTrees.of_behind hStates hFounds
  have hAll := (hBefore.of_grows hLater.advances.table).append hTrees'
  refine ⟨hPasses.advances.suffix, ?_, later, own, t, t', before, trees, hLater, hWhole, hOwn,
    hRest, hStates.table, hBefore, hTrees', hTrees, ?_, ?_⟩
  · have hErrors : t.errors = s.errors ++ t'.errors := hStates.errors
    rw [hWhole, hRest, parsedFrom, parsedFrom, hErrors, Array.toList_append]
  · rw [hWhole]
    exact hAll.tree?_root
  · rw [hRest]
    exact hTrees.tree?_root

/-- The tokens of `f(1,);f;`. -/
def brokenCall : List Token :=
  [⟨.ident ⟨1⟩, ⟨0, 1⟩⟩, ⟨.symbol .leftParen, ⟨1, 2⟩⟩, ⟨.int 1, ⟨2, 3⟩⟩, ⟨.symbol .comma, ⟨3, 4⟩⟩,
    ⟨.symbol .rightParen, ⟨4, 5⟩⟩, ⟨.symbol .semicolon, ⟨5, 6⟩⟩, ⟨.ident ⟨1⟩, ⟨6, 7⟩⟩,
    ⟨.symbol .semicolon, ⟨7, 8⟩⟩, ⟨.endOfFile, ⟨8, 8⟩⟩]

/-- The error of `brokenCall`. -/
def missingArgument : ParseError := ⟨.expression, ⟨.symbol .rightParen, ⟨4, 5⟩⟩⟩

/-- Where the second statement of `brokenCall` starts, with the callee and the argument that were
stored for the first. -/
def afterBrokenCall : State :=
  recoverOutside (statement (.initial brokenCall)).state missingArgument

/-- The second statement of `brokenCall` is read as it is by itself. -/
theorem parse_resumes_brokenCall :
    program.Passes (.initial brokenCall) [none] afterBrokenCall ∧ afterBrokenCall.table.size = 2 ∧
    (parse brokenCall).errors = missingArgument :: (parse (brokenCall.drop 6)).errors ∧
    (parse brokenCall).table.tree? (parse brokenCall).root =
      (parse (brokenCall.drop 6)).table.tree? (parse (brokenCall.drop 6)).root := by
  have hError : (statement (.initial brokenCall)).result = .error missingArgument := by
    decide +kernel
  have hPasses : program.Passes (.initial brokenCall) [none] afterBrokenCall :=
    .cons (.skipped (TokenKind.ident_ne_end ⟨1⟩) hError) .nil
  have hRest : afterBrokenCall.rest = brokenCall.drop 6 := by decide +kernel
  have hErrors : afterBrokenCall.errors = #[missingArgument] := by decide +kernel
  obtain ⟨-, hAll, _, _, _, _, before, trees, _, _, _, _, _, hBefore, _, _, hRoot, hOwn⟩ :=
    parse_resumes hPasses
  rw [hErrors, hRest] at hAll
  rw [hRest] at hOwn
  refine ⟨hPasses, by decide +kernel, hAll, ?_⟩
  cases hBefore with
  | cons hNone hNil =>
    cases hNone
    cases hNil
    rw [hRoot, hOwn]
    rfl

end Grammar

end FeatherScript
