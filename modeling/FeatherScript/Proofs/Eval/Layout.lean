import FeatherScript.Proofs.Eval.Refinement
import FeatherScript.Proofs.Tree.WellFormed

/-!
# Outcomes do not depend on the layout of a table

A program ends exactly when the reference evaluation of its tree does, with the same lines printed
and the same value or error. So a run knows of a table only the tree of its root: neither the
numbers of the nodes, nor which of them are shared or never used, nor where the arguments and
parameters stand makes a difference.

* `Leaves`: what a run leaves behind in terms of trees; it is unique.
* `evaluate_refines`: with the same fuel, both evaluations end alike or neither does.
* `ends_iff_tree_ends`: the theorem.
-/

namespace FeatherScript.Eval

variable {t : NodeTable}

/-! ## Outcomes -/

/-- Both evaluations have the same error, or values with the same meaning. -/
inductive ResultMeans (t : NodeTable) :
    Except EvalError Value → Except EvalError Reference.Value → Prop
  | ok {v w} (hMeans : Means t v w) : ResultMeans t (.ok v) (.ok w)
  | error (e) : ResultMeans t (.error e) (.error e)

/-- What a run leaves behind, in terms of trees. -/
structure Leaves (t : NodeTable) (result : Except EvalError Value) (s : State)
    (w : Reference.Outcome) : Prop where
  result : ResultMeans t result w.result
  printed : s.printed.toList.map Value.text = w.printed
  scopes : ScopesMean t s.scopes w.scopes

/-- The run of a program ends with an outcome in terms of trees. -/
def Ends (o : Options) (p : Program) (w : Reference.Outcome) : Prop :=
  ∃ fuel result s, p.evaluate o fuel = .ok (result, s) ∧ Leaves p.table result s w

/-! ## Uniqueness -/

theorem rel_unique {α β : Type} {r : α → β → Prop} (hUnique : ∀ a b b', r a b → r a b' → b = b')
    {x : Option α} {y y' : Option β} (h : Option.Rel r x y) (h' : Option.Rel r x y') : y = y' := by
  cases h with
  | none =>
    cases h'
    rfl
  | some h =>
    cases h' with
    | some h' => rw [hUnique _ _ _ h h']

theorem ScopeMeans.unique {a : Scope} {b b' : Reference.Scope} (h : ScopeMeans t a b)
    (h' : ScopeMeans t a b') : b = b' := by
  obtain ⟨bindings, parent⟩ := b
  obtain ⟨bindings', parent'⟩ := b'
  have hBindings : bindings = bindings' := by
    funext name
    exact rel_unique (r := Means t) (fun _ _ _ => Means.unique) (h.bindings name) (h'.bindings name)
  have hParent : parent = parent' := h.parent.symm.trans h'.parent
  rw [hBindings, hParent]

theorem ScopesMean.unique {g : Scopes} {scopes scopes' : Array Reference.Scope}
    (h : ScopesMean t g scopes) (h' : ScopesMean t g scopes') : scopes = scopes' := by
  refine Array.ext_getElem? fun id => ?_
  exact rel_unique (r := ScopeMeans t) (fun _ _ _ => ScopeMeans.unique) (h.scope id) (h'.scope id)

theorem ResultMeans.unique {result : Except EvalError Value}
    {w w' : Except EvalError Reference.Value} (h : ResultMeans t result w)
    (h' : ResultMeans t result w') : w = w' := by
  cases h with
  | ok hMeans =>
    cases h' with
    | ok hMeans' => rw [hMeans.unique hMeans']
  | error e =>
    cases h'
    rfl

theorem Leaves.unique {result : Except EvalError Value} {s : State} {w w' : Reference.Outcome}
    (h : Leaves t result s w) (h' : Leaves t result s w') : w = w' := by
  obtain ⟨r, printed, scopes⟩ := w
  obtain ⟨r', printed', scopes'⟩ := w'
  have hResult : r = r' := h.result.unique h'.result
  have hPrinted : printed = printed' := h.printed.symm.trans h'.printed
  have hScopes : scopes = scopes' := h.scopes.unique h'.scopes
  rw [hResult, hPrinted, hScopes]

/-! ## Runs -/

theorem represents_initial : Represents t 0 State.initial Reference.State.initial := by
  refine ⟨⟨rfl, fun id => ?_⟩, rfl, rfl⟩
  cases id with
  | zero => exact .some ⟨fun _ => .none, rfl⟩
  | succ id => exact .none

variable {p : Program} {tree : Tree}

/-- With the same fuel, both evaluations end alike, or the fuel suffices for neither. -/
theorem evaluate_refines (hTree : p.table.tree? p.root = some tree) (o : Options) (fuel : Nat) :
    (∃ result s w, p.evaluate o fuel = .ok (result, s) ∧
      Reference.outcome? o fuel tree = some w ∧ Leaves p.table result s w) ∨
    (p.evaluate o fuel = .error .outOfFuel ∧ Reference.outcome? o fuel tree = none) := by
  have hAgree := eval_refines o fuel 0 Scopes.global p.root tree hTree _ _ represents_initial
  unfold Program.evaluate Effect.settle Reference.outcome?
  generalize eval (o.setting p.table) fuel p.root Scopes.global State.initial = x at hAgree ⊢
  generalize Reference.evaluate o fuel 0 tree Scopes.global .initial = y at hAgree ⊢
  cases hAgree with
  | ok hValue hState =>
    exact .inl ⟨_, _, _, rfl, rfl, .ok hValue, hState.printed, hState.scopes⟩
  | error hCause hState =>
    cases hCause with
    | failed e => exact .inl ⟨_, _, _, rfl, rfl, .error e, hState.printed, hState.scopes⟩
    | outOfFuel => exact .inr ⟨rfl, rfl⟩

/-- A program ends with exactly the outcomes of its tree. -/
theorem ends_iff (hTree : p.table.tree? p.root = some tree) (o : Options) (w : Reference.Outcome) :
    Ends o p w ↔ Reference.Ends o tree w := by
  constructor
  · rintro ⟨fuel, result, s, hRun, hLeaves⟩
    rcases evaluate_refines hTree o fuel with ⟨_, _, w', hRun', hTheirs, hLeaves'⟩ | ⟨hNone, -⟩
    · cases hRun.symm.trans hRun'
      exact ⟨fuel, hLeaves.unique hLeaves' ▸ hTheirs⟩
    · cases hRun.symm.trans hNone
  · rintro ⟨fuel, hTheirs⟩
    rcases evaluate_refines hTree o fuel with ⟨result, s, w', hRun, hTheirs', hLeaves⟩ | ⟨-, hNone⟩
    · cases hTheirs.symm.trans hTheirs'
      exact ⟨fuel, result, s, hRun, hLeaves⟩
    · cases hTheirs.symm.trans hNone

/-- A program in a well-formed table is evaluated like its tree, and without leaving the table; so
two programs with the same tree, in whatever tables, have the same outcomes. -/
theorem ends_iff_tree_ends (hFormed : p.table.WellFormed) (hRoot : p.root < p.table.size)
    (o : Options) :
    ∃ tree, p.table.tree? p.root = some tree ∧ (∀ w, Ends o p w ↔ Reference.Ends o tree w) ∧
      (∀ fuel, p.evaluate o fuel ≠ .error .dangling) ∧
      ∀ q : Program, q.table.tree? q.root = some tree → ∀ w, Ends o p w ↔ Ends o q w := by
  obtain ⟨tree, hTree⟩ := hFormed.exists_tree hRoot
  refine ⟨tree, hTree, ends_iff hTree o, fun fuel => ?_, fun q hTree' w => ?_⟩
  · rcases evaluate_refines hTree o fuel with ⟨_, _, _, hRun, -⟩ | ⟨hRun, -⟩
    · rw [hRun]
      nofun
    · rw [hRun]
      nofun
  · exact (ends_iff hTree o w).trans (ends_iff hTree' o w).symm

/-- `print(1) + print(1)` with one node for both operands, and a node that nothing refers to. -/
def sharedOperands : Program where
  table := ⟨#[⟨.int 1, ⟨6, 7⟩⟩, ⟨.null, .origin⟩, ⟨.print 0, ⟨0, 8⟩⟩, ⟨.binary .add 2 2, ⟨0, 19⟩⟩],
    #[], #[]⟩
  root := 3
  names := .initial

/-- The same tree with a node for every construct. -/
def separateOperands : Program where
  table := ⟨#[⟨.int 1, ⟨6, 7⟩⟩, ⟨.print 0, ⟨0, 8⟩⟩, ⟨.int 1, ⟨6, 7⟩⟩, ⟨.print 2, ⟨0, 8⟩⟩,
    ⟨.binary .add 1 3, ⟨0, 19⟩⟩], #[], #[]⟩
  root := 4
  names := .initial

/-- The tree of both. -/
def operandsTree : Tree :=
  .binary ⟨0, 19⟩ .add (.print ⟨0, 8⟩ (.int ⟨6, 7⟩ 1)) (.print ⟨0, 8⟩ (.int ⟨6, 7⟩ 1))

theorem tree?_sharedOperands :
    sharedOperands.table.tree? sharedOperands.root = some operandsTree := by
  have hOne : sharedOperands.table.tree? 0 = some (.int ⟨6, 7⟩ 1) :=
    NodeTable.tree?_eq_some_iff.mpr ⟨_, rfl, .int 1⟩
  have hPrint : sharedOperands.table.tree? 2 = some (.print ⟨0, 8⟩ (.int ⟨6, 7⟩ 1)) :=
    NodeTable.tree?_eq_some_iff.mpr ⟨_, rfl, .print ⟨by decide, hOne⟩⟩
  exact NodeTable.tree?_eq_some_iff.mpr
    ⟨_, rfl, .binary ⟨by decide, hPrint⟩ ⟨by decide, hPrint⟩⟩

theorem tree?_separateOperands :
    separateOperands.table.tree? separateOperands.root = some operandsTree := by
  have hLeft : separateOperands.table.tree? 0 = some (.int ⟨6, 7⟩ 1) :=
    NodeTable.tree?_eq_some_iff.mpr ⟨_, rfl, .int 1⟩
  have hRight : separateOperands.table.tree? 2 = some (.int ⟨6, 7⟩ 1) :=
    NodeTable.tree?_eq_some_iff.mpr ⟨_, rfl, .int 1⟩
  have hPrintLeft : separateOperands.table.tree? 1 = some (.print ⟨0, 8⟩ (.int ⟨6, 7⟩ 1)) :=
    NodeTable.tree?_eq_some_iff.mpr ⟨_, rfl, .print ⟨by decide, hLeft⟩⟩
  have hPrintRight : separateOperands.table.tree? 3 = some (.print ⟨0, 8⟩ (.int ⟨6, 7⟩ 1)) :=
    NodeTable.tree?_eq_some_iff.mpr ⟨_, rfl, .print ⟨by decide, hRight⟩⟩
  exact NodeTable.tree?_eq_some_iff.mpr
    ⟨_, rfl, .binary ⟨by decide, hPrintLeft⟩ ⟨by decide, hPrintRight⟩⟩

theorem ends_iff_sharedOperands : sharedOperands.table.WellFormed ∧
    sharedOperands.root < sharedOperands.table.size ∧
    ∀ o w, Ends o sharedOperands w ↔ Ends o separateOperands w := by
  have hFormed : sharedOperands.table.WellFormed := by decide
  have hRoot : sharedOperands.root < sharedOperands.table.size := by decide
  refine ⟨hFormed, hRoot, fun o w => ?_⟩
  obtain ⟨tree, hTree, -, -, hSame⟩ := ends_iff_tree_ends hFormed hRoot o
  cases hTree.symm.trans tree?_sharedOperands
  exact hSame separateOperands tree?_separateOperands w

end FeatherScript.Eval
