import FeatherScript.Proofs.Eval.Effects
import FeatherScript.Proofs.Eval.Reference
import FeatherScript.Proofs.Eval.Simulation
import FeatherScript.Proofs.Tree.Unfolding

/-!
# Nodes are evaluated like their trees

The evaluation of a node simulates the reference evaluation of its tree. A state of the one
represents a state of the other: scopes have the same numbers in both, they bind the same names, and
a closure that was made of a node has the tree of that node for its body.

* `Means`, `Represents`: values and states of the two evaluations.
* `assign_refines`, `applyWith_refines`, ...: one effect or construct each.
* `eval_refines`: the evaluation of any node that has a tree.
-/

namespace FeatherScript.Eval

/-! ## Representation -/

/-- A value means one of the reference evaluation; the nodes in it stand for trees. -/
inductive Means (t : NodeTable) : Value → Reference.Value → Prop
  | int (value) : Means t (.int value) (.int value)
  | bool (value) : Means t (.bool value) (.bool value)
  | null : Means t .null .null
  | closure {c params body} (hParams : t.params? c.params = some params)
      (hBody : t.tree? c.body = some body) : Means t (.closure c) (.closure params body c.scope)

/-- A scope binds the same names as one of the reference evaluation, to values that mean those. -/
structure ScopeMeans (t : NodeTable) (a : Scope) (b : Reference.Scope) : Prop where
  bindings : ∀ name, Option.Rel (Means t) (a.lookup? name) (b.bindings name)
  parent : a.parent = b.parent

/-- The scopes of both evaluations, by their numbers. -/
structure ScopesMean (t : NodeTable) (g : Scopes) (scopes : Array Reference.Scope) : Prop where
  size : g.all.size = scopes.size
  scope : ∀ id, Option.Rel (ScopeMeans t) (g.scope? id) scopes[id]?

/-- A state inside a number of closure bodies represents one of the reference evaluation. -/
structure Represents (t : NodeTable) (depth : Nat) (s : State) (r : Reference.State) : Prop where
  scopes : ScopesMean t s.scopes r.scopes
  printed : s.printed.toList.map Value.text = r.printed
  depth : s.depth = depth

/-- Both evaluations stop for the same cause. -/
inductive SameStop : Stop → Reference.Stop → Prop
  | failed (e) : SameStop (.failed e) (.failed e)
  | outOfFuel : SameStop (.fault .outOfFuel) .outOfFuel

/-- An effect refines one of the reference evaluation, inside a number of closure bodies. -/
abbrev Refines {α β : Type} (t : NodeTable) (depth : Nat) (P : α → β → Prop) (x : Effect α)
    (y : Reference.Effect β) : Prop :=
  Simulates (Represents t depth) SameStop P x y

variable {t : NodeTable} {o : Options} {depth : Nat} {env : ScopeId} {name : Name}

namespace Means

variable {v : Value} {w : Reference.Value}

theorem text_eq (h : Means t v w) : v.text = w.text := by
  cases h with
  | closure hParams hBody =>
    have hLength := NodeTable.length_of_params? hParams
    simp only [Value.text, Reference.Value.text, hLength]
  | _ => rfl

theorem unique {w' : Reference.Value} (h : Means t v w) (h' : Means t v w') : w = w' := by
  cases h with
  | closure hParams hBody =>
    cases h' with
    | closure hParams' hBody' =>
      cases hParams.symm.trans hParams'
      cases hBody.symm.trans hBody'
      rfl
  | _ =>
    cases h'
    rfl

end Means

/-! ## Lookup -/

theorem rel_cases {α β : Type} {r : α → β → Prop} {x : Option α} {y : Option β}
    (h : Option.Rel r x y) :
    (x = none ∧ y = none) ∨ ∃ a b, x = some a ∧ y = some b ∧ r a b := by
  cases h with
  | none => exact .inl ⟨rfl, rfl⟩
  | some h => exact .inr ⟨_, _, rfl, rfl, h⟩

namespace ScopesMean

variable {g : Scopes} {scopes : Array Reference.Scope}

/-- The owner of a name, with what its value means. -/
inductive Found (t : NodeTable) (g : Scopes) (name : Name) :
    Option ScopeId → Option (ScopeId × Reference.Value) → Prop
  | none : Found t g name none none
  | some {owner v w} (hValue : g.lookup? owner name = some v) (hMeans : Means t v w) :
      Found t g name (some owner) (some (owner, w))

theorem lookup? (h : ScopesMean t g scopes) (env : ScopeId) (name : Name) :
    Option.Rel (Means t) (g.lookup? env name) (scopes[env]?.bind (·.bindings name)) := by
  unfold Scopes.lookup?
  rcases rel_cases (h.scope env) with ⟨hOurs, hTheirs⟩ | ⟨a, b, hOurs, hTheirs, hScope⟩
  · rw [hOurs, hTheirs]
    exact .none
  · rw [hOurs, hTheirs]
    exact hScope.bindings name

/-- Both evaluations find the same owner. -/
theorem find? (h : ScopesMean t g scopes) (env : ScopeId) (name : Name) :
    Found t g name (g.owner? env name) (Reference.find? scopes env name) := by
  rw [Reference.find?]
  rcases rel_cases (h.scope env) with ⟨hOurs, hTheirs⟩ | ⟨a, b, hOurs, hTheirs, hScope⟩
  · rw [Scopes.owner?_of_none hOurs, hTheirs]
    exact .none
  · rw [Scopes.owner?_of_scope? hOurs, Scope.binds, hTheirs, hScope.parent]
    rcases rel_cases (hScope.bindings name) with ⟨hOwn, hFree⟩ | ⟨v, w, hOwn, hBound, hMeans⟩
    · simp only [hOwn, hFree, Option.isSome_none, Bool.false_eq_true, if_false]
      cases hParent : b.parent with
      | none => exact .none
      | some outer =>
        by_cases hLess : outer < env
        · have hOuter := find? h outer name
          simpa [Option.filter, hLess] using hOuter
        · simpa [Option.filter, hLess] using Found.none
    · have hValue : g.lookup? env name = some v := by rw [Scopes.lookup?, hOurs, ← hOwn]; rfl
      simp only [hOwn, hBound, Option.isSome_some, if_true]
      exact .some hValue hMeans
termination_by env

theorem resolve (h : ScopesMean t g scopes) (env : ScopeId) (name : Name) :
    Means t (g.resolve env name) (Reference.resolve scopes env name) := by
  have hFound := h.find? env name
  unfold Reference.resolve
  generalize hOwner : g.owner? env name = owner at hFound
  generalize Reference.find? scopes env name = found at hFound
  cases hFound with
  | none =>
    rw [Scopes.resolve_of_no_owner hOwner]
    exact .null
  | some hValue hMeans =>
    rw [Scopes.resolve_of_owner? hOwner hValue]
    exact hMeans

/-- An assignment writes the same scope in both evaluations. -/
theorem assignee (h : ScopesMean t g scopes) (env : ScopeId) (name : Name) :
    g.assignee env name = Reference.target scopes env name := by
  have hFound := h.find? env name
  unfold Scopes.assignee Reference.target
  generalize hOwner : g.owner? env name = owner at hFound
  generalize Reference.find? scopes env name = found at hFound
  cases hFound with
  | none => rw [if_pos (Scopes.resolve_of_no_owner hOwner)]
  | some hValue hMeans =>
    rw [Scopes.resolve_of_owner? hOwner hValue]
    cases hMeans <;> rfl

/-! ## Changes -/

theorem write (h : ScopesMean t g scopes) {v : Value} {w : Reference.Value} (hMeans : Means t v w)
    (target : ScopeId) (name : Name) :
    ScopesMean t (g.write target name v) (scopes.modify target (·.bind name w)) := by
  refine ⟨?_, fun id => ?_⟩
  · simp [Scopes.write, h.size]
  · rw [Scopes.scope?_write, Array.getElem?_modify]
    split
    · rcases rel_cases (h.scope id) with ⟨hOurs, hTheirs⟩ | ⟨a, b, hOurs, hTheirs, hScope⟩
      · rw [hOurs, hTheirs]
        exact .none
      · rw [hOurs, hTheirs]
        refine .some ⟨fun n => ?_, hScope.parent⟩
        rw [Scope.lookup?_set]
        simp only [Reference.Scope.bind]
        split
        · exact .some hMeans
        · exact hScope.bindings n
    · exact h.scope id

theorem enclose (h : ScopesMean t g scopes) (outer : ScopeId) :
    ScopesMean t (g.enclose outer).2 (scopes.push ⟨fun _ => none, some outer⟩) := by
  refine ⟨?_, fun id => ?_⟩
  · rw [Scopes.size_enclose, Array.size_push, h.size]
  · rw [Scopes.scope?_enclose, Array.getElem?_push, h.size]
    split
    · exact .some ⟨fun _ => .none, rfl⟩
    · exact h.scope id

end ScopesMean

/-! ## Effects -/

open Effect

theorem fail_refines {α β : Type} {P : α → β → Prop} (cause : EvalCause) (span : Span) :
    Refines t depth P (fail cause (some span)) (Reference.fail cause span) :=
  Simulates.throw (.failed _)

theorem resolve_refines (env : ScopeId) (name : Name) :
    Refines t depth (Means t) (resolve env name)
      (do return Reference.resolve (← get).scopes env name) :=
  fun _ _ h => .ok (h.scopes.resolve env name) h

/-- The same name is bound in the same scope, to a value with the same meaning. -/
theorem represents_write {s : State} {r : Reference.State} {v : Value} {w : Reference.Value}
    (h : Represents t depth s r) (hMeans : Means t v w) (target : ScopeId) (name : Name) :
    Represents t depth { s with scopes := s.scopes.write target name v }
      { r with scopes := r.scopes.modify target (·.bind name w) } :=
  ⟨h.scopes.write hMeans target name, h.printed, h.depth⟩

theorem declare_refines {v : Value} {w : Reference.Value} (hMeans : Means t v w) (env : ScopeId)
    (name : Name) (span : Span) :
    Refines t depth (fun _ _ => True) (declare env name v (some span))
      (Reference.declare env name w span) := by
  intro s r h
  rw [declare_eq, Reference.declare_eq, Scopes.binds_eq_isSome]
  rcases rel_cases (h.scopes.lookup? env name) with ⟨hOurs, hFree⟩ | ⟨a, b, hOurs, hBound, -⟩
  · simp only [hOurs, hFree, Option.isSome_none, Bool.false_eq_true, if_false]
    exact .ok trivial (represents_write h hMeans env name)
  · simp only [hOurs, hBound, Option.isSome_some, if_true]
    exact .error (.failed _) h

theorem assign_refines {v : Value} {w : Reference.Value} (hMeans : Means t v w) (env : ScopeId)
    (name : Name) (span : Option Span) :
    Refines t depth (fun _ _ => True) (assign env name v span) (Reference.assign env name w) := by
  intro s r h
  rw [assign_eq, Reference.assign_eq, h.scopes.assignee env name]
  exact .ok trivial (represents_write h hMeans _ name)

theorem print_refines {v : Value} {w : Reference.Value} (hMeans : Means t v w) :
    Refines t depth (fun _ _ => True) (print v) (Reference.print w.text) := by
  intro s r h
  refine .ok trivial ⟨h.scopes, ?_, h.depth⟩
  rw [Array.toList_push, List.map_append, h.printed, ← hMeans.text_eq]
  rfl

theorem enclose_refines (outer : ScopeId) :
    Refines t depth (· = ·) (onScopes (·.enclose outer)) (Reference.enclose outer) :=
  fun _ _ h => .ok h.scopes.size ⟨h.scopes.enclose outer, h.printed, h.depth⟩

theorem makeClosure_refines {params : Slice} {body : NodeId} {names : List Name} {tree : Tree}
    (hParams : t.params? params = some names) (hBody : t.tree? body = some tree) (env : ScopeId) :
    Refines t depth (Means t) (makeClosure params body env)
      (return .closure names tree env) :=
  fun _ _ h => .ok (.closure hParams hBody) ⟨h.scopes, h.printed, h.depth⟩

/-- The body of a closure is one level deeper. -/
theorem entered_refines {α β : Type} {P : α → β → Prop} {x : Effect α} {y : Reference.Effect β}
    (h : Refines t (depth + 1) P x y) : Refines t depth P (entered x) y := by
  intro s r hState
  have hInner := h { s with depth := s.depth + 1 } r
    ⟨hState.scopes, hState.printed, congrArg (· + 1) hState.depth⟩
  unfold entered
  generalize x { s with depth := s.depth + 1 } = result at hInner ⊢
  generalize y r = result' at hInner ⊢
  cases hInner with
  | ok hValue hState => exact .ok hValue ⟨hState.scopes, hState.printed, by simp [hState.depth]⟩
  | error hCause hState =>
    exact .error hCause ⟨hState.scopes, hState.printed, by simp [hState.depth]⟩

theorem depth_refines {α β : Type} {P : α → β → Prop} {f : Nat → Effect α}
    {y : Reference.Effect β} (h : Refines t depth P (f depth) y) :
    Refines t depth P (Effect.depth >>= f) y := by
  intro s r hState
  have hRun : (Effect.depth >>= f) s = f s.depth s := rfl
  rw [hRun, hState.depth]
  exact h s r hState

/-! ## Constructs -/

theorem bindParams_refines {args : List Value} {args' : List Reference.Value}
    (hArgs : List.Forall₂ (Means t) args args') (env : ScopeId) (names : List Name) (span : Span) :
    Refines t depth (fun _ _ => True) (bindParams env (some span) names args)
      (Reference.bindParams env span names args') := by
  induction names generalizing args args' with
  | nil => exact .pure trivial
  | cons name names ih =>
    obtain ⟨hHead, hTail⟩ := forall₂_head_tail hArgs .null
    exact (declare_refines hHead env name span).bind fun _ _ _ => ih hTail

theorem means_ofOperation {v : Value} (hPlain : ∀ c, v ≠ .closure c) :
    Means t v (.ofOperation v) := by
  cases v with
  | int value => exact .int value
  | bool value => exact .bool value
  | null => exact .null
  | closure c => exact absurd rfl (hPlain c)

theorem operate_refines {v v' : Value} {w w' : Reference.Value} (hLeft : Means t v w)
    (hRight : Means t v' w') (op : Operator) (span : Span) :
    Refines t depth (Means t)
      (match op.apply v v' with
        | .ok value => pure value
        | .error cause => fail cause (some span))
      (Reference.operate op span w w') := by
  cases hLeft with
  | int a =>
    cases hRight with
    | int b =>
      simp only [Operator.apply, Reference.operate]
      cases hResult : op.applyInt a b with
      | ok value => exact .pure (means_ofOperation (Operator.applyInt_plain hResult))
      | error cause => exact fail_refines cause span
    | _ => exact fail_refines _ span
  | _ => cases hRight <;> exact fail_refines _ span

variable {ev : Evaluator}

theorem conditionWith_refines {id : NodeId} {tree : Tree} {y : Reference.Effect Reference.Value}
    (hTree : t.tree? id = some tree) (h : Refines t depth (Means t) (ev id env) y) :
    Refines t depth (· = ·) (conditionWith (o.setting t) ev id env)
      (do Reference.truth tree.span (← y)) := by
  refine h.bind fun v w hMeans => ?_
  have hSpan : (o.setting t).table.spanOf id = tree.span := NodeTable.spanOf_of_tree? hTree
  cases hMeans with
  | bool b => exact .pure rfl
  | _ =>
    simp only [hSpan]
    exact fail_refines _ _

/-- A condition and the part that it selects. -/
theorem branch_refines {condition : Effect Bool} {consequent other : Effect Value} {span : Span}
    {condition' consequent' other' : Reference.Effect Reference.Value}
    (hCondition : Refines t depth (· = ·) condition (do Reference.truth span (← condition')))
    (hConsequent : Refines t depth (Means t) consequent consequent')
    (hOther : Refines t depth (Means t) other other') :
    Refines t depth (Means t) (do if ← condition then consequent else other)
      (do if ← Reference.truth span (← condition') then consequent' else other') := by
  rw [← bind_assoc]
  refine hCondition.bind ?_
  rintro b _ rfl
  cases b with
  | true => exact hConsequent
  | false => exact hOther

theorem loopWith_refines {condition : Effect Bool} {body : Effect Value}
    {condition' : Reference.Effect Bool} {body' : Reference.Effect Reference.Value}
    (hCondition : Refines t depth (· = ·) condition condition')
    (hBody : Refines t depth (Means t) body body') (fuel : Nat) {v : Value} {w : Reference.Value}
    (hLast : Means t v w) :
    Refines t depth (Means t) (loopWith condition body fuel v)
      (Reference.repeatWhile condition' body' fuel w) := by
  induction fuel generalizing v w with
  | zero => exact .throw .outOfFuel
  | succ fuel ih =>
    refine hCondition.bind ?_
    rintro b _ rfl
    cases b with
    | true => exact hBody.bind fun v w hMeans => ih hMeans
    | false => exact .pure hLast

theorem argumentsWith_refines {ids : List NodeId} {trees : List Tree}
    {y : Tree → Reference.Effect Reference.Value}
    (h : List.Forall₂ (fun id tree => Refines t depth (Means t) (ev id env) (y tree)) ids trees) :
    Refines t depth (List.Forall₂ (Means t)) (argumentsWith ev env ids) (trees.mapM y) := by
  induction h with
  | nil => exact .pure .nil
  | cons hHead _ ih =>
    rw [List.mapM_cons]
    exact hHead.bind fun v w hMeans => ih.bind fun vs ws hRest => .pure (.cons hMeans hRest)

theorem applyWith_refines {c : Closure} {params : List Name} {args : List Value}
    {args' : List Reference.Value} {body : ScopeId → Reference.Effect Reference.Value}
    (hParams : t.params? c.params = some params) (hArgs : List.Forall₂ (Means t) args args')
    (hBody : ∀ env, Refines t (depth + 1) (Means t) (ev c.body env) (body env)) (span : Span) :
    Refines t depth (Means t) (applyWith (o.setting t) ev c args span)
      (Reference.apply o depth params c.scope args' span body) := by
  refine depth_refines ?_
  unfold Reference.apply
  by_cases hDepth : o.maxDepth ≤ depth
  · rw [if_pos hDepth, if_pos (show (o.setting t).maxDepth ≤ depth from hDepth)]
    exact fail_refines _ span
  rw [if_neg hDepth, if_neg (show ¬ (o.setting t).maxDepth ≤ depth from hDepth)]
  have hFound : found ((o.setting t).table.params? c.params) = (pure params : Effect _) := by
    rw [show (o.setting t).table.params? c.params = some params from hParams]
    rfl
  rw [hFound, pure_bind, hArgs.length_eq]
  by_cases hArity : o.policy = .strict ∧ args'.length < params.length
  · rw [if_pos hArity, if_pos (show (o.setting t).policy = .strict ∧ _ from hArity)]
    exact fail_refines _ span
  rw [if_neg hArity, if_neg (show ¬ ((o.setting t).policy = .strict ∧ _) from hArity)]
  refine (enclose_refines c.scope).bind ?_
  rintro env _ rfl
  exact (bindParams_refines hArgs env params span).bind fun _ _ _ => entered_refines (hBody env)

theorem callWith_refines {callee : NodeId} {args : Slice} {f : Tree} {ids : List NodeId}
    {trees : List Tree} {span : Span}
    {evTree : Nat → Tree → ScopeId → Reference.Effect Reference.Value}
    (hCallee : t.tree? callee = some f) (hArgs : t.args? args = some ids)
    (hTrees : List.Forall₂ (fun id tree => t.tree? id = some tree) ids trees)
    (hEv : ∀ depth env id tree, t.tree? id = some tree →
      Refines t depth (Means t) (ev id env) (evTree depth tree env)) :
    Refines t depth (Means t) (callWith (o.setting t) ev callee args env span)
      (do
        match ← evTree depth f env with
        | .closure params body scope =>
          let values ← trees.mapM fun arg => evTree depth arg env
          Reference.apply o depth params scope values span (evTree (depth + 1) body)
        | other => Reference.fail (.notCallable other.type) f.span) := by
  refine (hEv depth env callee f hCallee).bind fun v w hMeans => ?_
  have hSpan : (o.setting t).table.spanOf callee = f.span := NodeTable.spanOf_of_tree? hCallee
  cases hMeans with
  | closure hParams hBody =>
    have hFound : found ((o.setting t).table.args? args) = (pure ids : Effect _) := by
      rw [show (o.setting t).table.args? args = some ids from hArgs]
      rfl
    simp only [hFound, pure_bind]
    have hEach := hTrees.imp fun id tree hTree => hEv depth env id tree hTree
    have hValues := argumentsWith_refines hEach
    exact hValues.bind fun vs ws hRest =>
      applyWith_refines hParams hRest (fun inner => hEv (depth + 1) inner _ _ hBody) span
  | _ =>
    simp only [hSpan]
    exact fail_refines _ _

/-! ## Nodes -/

/-- One level of evaluation refines one level of the reference evaluation. -/
theorem nodeWith_refines {fuel : Nat} {id : NodeId} {tree : Tree} (hTree : t.tree? id = some tree)
    (hEv : ∀ depth env id tree, t.tree? id = some tree →
      Refines t depth (Means t) (ev id env) (Reference.evaluate o fuel depth tree env)) :
    Refines t depth (Means t) (nodeWith (o.setting t) fuel ev id env)
      (Reference.evaluate o (fuel + 1) depth tree env) := by
  obtain ⟨⟨form, span⟩, hNode, hShape⟩ := NodeTable.tree?_eq_some_iff.mp hTree
  have hFound : found ((o.setting t).table.node? id) = (pure ⟨form, span⟩ : Effect _) := by
    rw [show (o.setting t).table.node? id = _ from hNode]
    rfl
  unfold nodeWith Reference.evaluate
  rw [hFound, pure_bind]
  have hChild : ∀ {child subtree}, child < id ∧ t.tree? child = some subtree →
      Refines t depth (Means t) (ev child env) (Reference.evaluate o fuel depth subtree env) :=
    fun h => hEv depth env _ _ h.2
  cases hShape with
  | int value => exact .pure (.int value)
  | bool value => exact .pure (.bool value)
  | null => exact .pure .null
  | ref name => exact resolve_refines env name
  | print hArgument =>
    exact (hChild hArgument).bind fun v w hMeans =>
      (print_refines hMeans).bind fun _ _ _ => .pure hMeans
  | binary hLeft hRight =>
    exact (hChild hLeft).bind fun v w hMeans => (hChild hRight).bind fun v' w' hMeans' =>
      operate_refines hMeans hMeans' _ span
  | branch hCondition hConsequent =>
    refine branch_refines (conditionWith_refines hCondition.2 (hChild hCondition)) ?_ ?_
    · exact hChild hConsequent
    · exact .pure .null
  | branchElse hCondition hConsequent hAlternative =>
    refine branch_refines (conditionWith_refines hCondition.2 (hChild hCondition)) ?_ ?_
    · exact hChild hConsequent
    · exact hChild hAlternative
  | loop hCondition hBody =>
    exact loopWith_refines (conditionWith_refines hCondition.2 (hChild hCondition)) (hChild hBody)
      fuel .null
  | sequence hFirst hSecond => exact (hChild hFirst).bind fun _ _ _ => hChild hSecond
  | declare hValue =>
    exact (hChild hValue).bind fun v w hMeans =>
      (declare_refines hMeans env _ span).bind fun _ _ _ => .pure hMeans
  | assign hValue =>
    exact (hChild hValue).bind fun v w hMeans =>
      (assign_refines hMeans env _ _).bind fun _ _ _ => .pure hMeans
  | function hParams hBody => exact makeClosure_refines hParams hBody.2 env
  | call hCallee hArgs hTrees =>
    exact callWith_refines hCallee.2 hArgs (hTrees.imp fun _ _ h => h.2) hEv

/-- The evaluation of a node refines that of its tree, with the same fuel. -/
theorem eval_refines (o : Options) (fuel depth : Nat) (env : ScopeId) (id : NodeId) (tree : Tree)
    (hTree : t.tree? id = some tree) :
    Refines t depth (Means t) (eval (o.setting t) fuel id env)
      (Reference.evaluate o fuel depth tree env) := by
  induction fuel generalizing depth env id tree with
  | zero => exact .throw .outOfFuel
  | succ fuel ih => exact nodeWith_refines hTree ih

end FeatherScript.Eval
