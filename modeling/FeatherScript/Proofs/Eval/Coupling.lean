import FeatherScript.Proofs.Eval.Effects
import FeatherScript.Proofs.Eval.Moment
import FeatherScript.Proofs.Tree.Forest

/-!
# Two evaluations side by side

Many facts about evaluation compare two runs of the same nodes: with more fuel, with other limits,
or in other scopes. A coupling says which effects of the two runs are related. If the relation goes
through every single effect, it goes through the evaluation of every node. An evaluation may be
coupled with itself, which gives facts about one run.

* `Value.Like`: values that differ at most in their closures.
* `permit`: the checks of an application, which are all that an application does before its scope.
* `Coupling`: the data of a coupling and the law of each effect.
* `Coupling.nodeWith_rel`: one level of evaluation, given what it does with its operands and with
  the bodies that it enters.
* `Coupling.eval_rel`: the evaluation of a node.
-/

namespace FeatherScript

/-! ## Related values -/

/-- Values that differ at most in their closures, which are related. -/
inductive Value.Like (C : Closure → Closure → Prop) : Value → Value → Prop
  | int (value) : Value.Like C (.int value) (.int value)
  | bool (value) : Value.Like C (.bool value) (.bool value)
  | null : Value.Like C .null .null
  | closure {c c'} (h : C c c') : Value.Like C (.closure c) (.closure c')

namespace Value.Like

variable {C : Closure → Closure → Prop} {v v' : Value}

theorem of_plain (hPlain : ∀ c, v ≠ .closure c) : Value.Like C v v := by
  cases v with
  | int value => exact .int value
  | bool value => exact .bool value
  | null => exact .null
  | closure c => exact absurd rfl (hPlain c)

theorem of_eq (hSame : ∀ c, C c c) (v : Value) : Value.Like C v v := by
  cases v with
  | closure c => exact .closure (hSame c)
  | _ => exact of_plain nofun

theorem eq (h : Value.Like Eq v v') : v = v' := by
  cases h with
  | closure hSame => rw [hSame]
  | _ => rfl

/-- Operators do not tell such values apart. -/
theorem apply_eq {w w' : Value} (hLeft : Value.Like C v v') (hRight : Value.Like C w w')
    (op : Operator) : op.apply v' w' = op.apply v w := by
  cases hLeft <;> cases hRight <;> rfl

end Value.Like

/-! ## Causes -/

/-- The causes for which an application of a closure is refused. -/
def EvalCause.Refusal : EvalCause → Prop
  | .stackOverflow _ | .arityMismatch .. => True
  | _ => False

/-- Operators refuse no application. -/
theorem Operator.apply_cause {op : Operator} {a b : Value} {cause : EvalCause}
    (h : op.apply a b = .error cause) : ¬ cause.Refusal := by
  obtain rfl | rfl | rfl | ⟨operation, rfl⟩ := apply_error h <;> exact id

/-- A node is in the table, and so are the arguments of its construct. -/
def NodeTable.Present (t : NodeTable) (id : NodeId) : Prop :=
  ∃ n, t.node? id = some n ∧ n.form.HasArgs t

namespace Eval

open Effect

/-! ## Applications -/

/-- The checks of an application, with the parameters that it binds if it passes them. -/
def permit (cfg : Setting) (c : Closure) (supplied : Nat) (span : Span) : Effect (List Name) := do
  if cfg.maxDepth ≤ (← depth) then
    fail (.stackOverflow cfg.maxDepth) (some span)
  else
    let params ← found (cfg.table.params? c.params)
    if cfg.policy = .strict ∧ supplied < params.length then
      fail (.arityMismatch params.length supplied) (some span)
    else return params

theorem permit_eq {cfg : Setting} {c : Closure} {supplied : Nat} {span : Span} {s : State} :
    permit cfg c supplied span s =
      if cfg.maxDepth ≤ s.depth then
        .error (.failed ⟨.stackOverflow cfg.maxDepth, some span⟩) s
      else
        match cfg.table.params? c.params with
        | none => .error (.fault .dangling) s
        | some params =>
          if cfg.policy = .strict ∧ supplied < params.length then
            .error (.failed ⟨.arityMismatch params.length supplied, some span⟩) s
          else .ok params s := by
  change (if cfg.maxDepth ≤ s.depth then _ else _ : Effect (List Name)) s = _
  by_cases hDepth : cfg.maxDepth ≤ s.depth
  · rw [if_pos hDepth, if_pos hDepth]
    rfl
  · rw [if_neg hDepth, if_neg hDepth]
    cases cfg.table.params? c.params with
    | none => rfl
    | some params =>
      change (if cfg.policy = .strict ∧ supplied < params.length then _ else _ : Effect _) s
        = if cfg.policy = .strict ∧ supplied < params.length then _ else _
      split
      · rfl
      · rfl

/-- An application makes its checks, and then binds the parameters in a new scope and enters the
body. -/
theorem applyWith_eq_permit (cfg : Setting) (ev : Evaluator) (c : Closure) (args : List Value)
    (span : Span) :
    applyWith cfg ev c args span = (do
      let params ← permit cfg c args.length span
      let env ← onScopes (·.enclose c.scope)
      bindParams env (some span) params args
      entered (ev c.body env)) := by
  funext s
  rw [applyWith_eq]
  change _ = EStateM.bind (permit cfg c args.length span) _ s
  rw [EStateM.bind, permit_eq]
  by_cases hDepth : cfg.maxDepth ≤ s.depth
  · rw [if_pos hDepth, if_pos hDepth]
  rw [if_neg hDepth, if_neg hDepth]
  cases cfg.table.params? c.params with
  | none => rfl
  | some params =>
    by_cases hArity : cfg.policy = .strict ∧ args.length < params.length
    · simp only [if_pos hArity]
    · simp only [if_neg hArity]
      rfl

/-! ## Couplings -/

/-- Two settings refer to the same nodes. -/
def Setting.SameTable (cfg cfg' : Setting) : Prop := cfg'.table = cfg.table

theorem Setting.SameTable.refl (cfg : Setting) : cfg.SameTable cfg := rfl

/-- A relation between the effects of two evaluations that goes through all of them. -/
structure Coupling (cfg cfg' : Setting) where
  /-- The effects that are related inside a number of closure bodies, by what their results are. -/
  Rel : Nat → {α β : Type} → (α → β → Prop) → Effect α → Effect β → Prop
  /-- The scopes that correspond to each other. -/
  SameScope : ScopeId → ScopeId → Prop
  /-- The closures that correspond to each other. -/
  SameClosure : Closure → Closure → Prop
  /-- The nodes that may be evaluated. -/
  Node : NodeId → Prop
  /-- The fuels with which loops are run. -/
  Fuel : Nat → Nat → Prop
  /-- The numbers of closure bodies inside which one more may be entered. -/
  Deeper : Nat → Prop
  sameTable : cfg.SameTable cfg'
  operand : ∀ {id n child}, Node id → cfg.table.node? id = some n →
    child ∈ n.form.operands cfg.table → Node child
  body : ∀ {c c'}, SameClosure c c' → c'.body = c.body ∧ Node c.body
  pure : ∀ {d α β} {P : α → β → Prop} {a b}, P a b → Rel d P (Pure.pure a) (Pure.pure b)
  bind : ∀ {d α β α' β'} {P : α → β → Prop} {Q : α' → β' → Prop} {x : Effect α} {y : Effect β}
    {f : α → Effect α'} {g : β → Effect β'}, Rel d P x y → (∀ a b, P a b → Rel d Q (f a) (g b)) →
    Rel d Q (x >>= f) (y >>= g)
  fail : ∀ {d α β} {P : α → β → Prop} {cause span}, ¬ cause.Refusal →
    Rel d P (Effect.fail cause span) (Effect.fail cause span)
  dangling : ∀ {d α β id} {P : α → β → Prop}, Node id → ¬ cfg.table.Present id →
    Rel d P (throw (.fault .dangling)) (throw (.fault .dangling))
  spent : ∀ {d α β n} {P : α → β → Prop} {y : Effect β}, Fuel 0 n →
    (n = 0 → y = throw (.fault .outOfFuel)) → Rel d P (throw (.fault .outOfFuel)) y
  burn : ∀ {n n'}, Fuel (n + 1) n' → ∃ k, n' = k + 1 ∧ Fuel n k
  resolve : ∀ {d e e'} (name), SameScope e e' →
    Rel d (Value.Like SameClosure) (Effect.resolve e name) (Effect.resolve e' name)
  print : ∀ {d v v'}, Value.Like SameClosure v v' →
    Rel d (fun _ _ => True) (Effect.print v) (Effect.print v')
  declare : ∀ {d e e' v v'} (name span), SameScope e e' → Value.Like SameClosure v v' →
    Rel d (fun _ _ => True) (Effect.declare e name v span) (Effect.declare e' name v' span)
  assign : ∀ {d e e' v v'} (name span), SameScope e e' → Value.Like SameClosure v v' →
    Rel d (fun _ _ => True) (Effect.assign e name v span) (Effect.assign e' name v' span)
  makeClosure : ∀ {d id params body span e e'}, Node id →
    cfg.table.node? id = some ⟨.function params body, span⟩ → SameScope e e' →
    Rel d (Value.Like SameClosure) (Effect.makeClosure params body e)
      (Effect.makeClosure params body e')
  permit : ∀ {d c c'} (supplied span), SameClosure c c' →
    Rel d (fun names names' => names = names' ∧ Deeper d) (permit cfg c supplied span)
      (permit cfg' c' supplied span)
  enclose : ∀ {d c c'}, SameClosure c c' →
    Rel d SameScope (onScopes (·.enclose c.scope)) (onScopes (·.enclose c'.scope))
  entered : ∀ {d α β} {P : α → β → Prop} {x y}, Rel (d + 1) P x y →
    Rel d P (Effect.entered x) (Effect.entered y)

namespace Coupling

variable {cfg cfg' : Setting} {K : Coupling cfg cfg'} {d fuel fuel' : Nat} {id : NodeId}
  {env env' : ScopeId} {ev ev' : Evaluator}

/-- Values that correspond to each other. -/
abbrev SameValue (K : Coupling cfg cfg') : Value → Value → Prop := Value.Like K.SameClosure

theorem table_eq (K : Coupling cfg cfg') : cfg'.table = cfg.table := K.sameTable

/-! ## References -/

theorem found_rel {α : Type} {target : Option α} (hNode : K.Node id)
    (hPresent : cfg.table.Present id → ∃ a, target = some a) :
    K.Rel d (fun a b => a = b ∧ target = some a) (found target) (found target) := by
  cases hTarget : target with
  | some a => exact K.pure ⟨rfl, rfl⟩
  | none =>
    refine K.dangling hNode fun h => ?_
    obtain ⟨a, hSome⟩ := hPresent h
    cases hTarget.symm.trans hSome

theorem foundNode_rel (hNode : K.Node id) :
    K.Rel d (fun n n' => n = n' ∧ cfg.table.node? id = some n) (found (cfg.table.node? id))
      (found (cfg'.table.node? id)) := by
  rw [K.table_eq]
  exact found_rel hNode fun ⟨n, hSome, _⟩ => ⟨n, hSome⟩

theorem foundArgs_rel {callee : NodeId} {args : Slice} {span : Span} (hNode : K.Node id)
    (hCall : cfg.table.node? id = some ⟨.call callee args, span⟩) :
    K.Rel d (fun ids ids' => ids = ids' ∧ cfg.table.args? args = some ids)
      (found (cfg.table.args? args)) (found (cfg'.table.args? args)) := by
  rw [K.table_eq]
  refine found_rel hNode ?_
  rintro ⟨n, hSome, hArgs⟩
  cases hCall.symm.trans hSome
  exact hArgs

/-! ## Constructs -/

theorem operate_rel {a a' b b' : Value} (hLeft : K.SameValue a a') (hRight : K.SameValue b b')
    (op : Operator) (span : Option Span) :
    K.Rel d K.SameValue
      (match op.apply a b with
        | .ok value => Pure.pure value
        | .error cause => Effect.fail cause span)
      (match op.apply a' b' with
        | .ok value => Pure.pure value
        | .error cause => Effect.fail cause span) := by
  rw [hLeft.apply_eq hRight op]
  cases hResult : op.apply a b with
  | ok value => exact K.pure (.of_plain (Operator.apply_plain hResult))
  | error cause => exact K.fail (Operator.apply_cause hResult)

theorem conditionWith_rel (h : K.Rel d K.SameValue (ev id env) (ev' id env')) :
    K.Rel d (· = ·) (conditionWith cfg ev id env) (conditionWith cfg' ev' id env') := by
  refine K.bind h fun v v' hSame => ?_
  cases hSame with
  | bool b => exact K.pure rfl
  | _ =>
    simp only [K.table_eq]
    exact K.fail not_false

theorem loopWith_rel {condition condition' : Effect Bool} {body body' : Effect Value}
    {last last' : Value} (hFuel : K.Fuel fuel fuel')
    (hCondition : K.Rel d (· = ·) condition condition') (hBody : K.Rel d K.SameValue body body')
    (hLast : K.SameValue last last') :
    K.Rel d K.SameValue (loopWith condition body fuel last)
      (loopWith condition' body' fuel' last') := by
  induction fuel generalizing fuel' last last' with
  | zero => exact K.spent hFuel fun hNone => by rw [hNone, loopWith]
  | succ fuel ih =>
    obtain ⟨rest, rfl, hRest⟩ := K.burn hFuel
    refine K.bind hCondition ?_
    rintro more _ rfl
    cases more with
    | false => exact K.pure hLast
    | true => exact K.bind hBody fun v v' hSame => ih hRest hSame

theorem argumentsWith_rel {ids : List NodeId}
    (h : ∀ id ∈ ids, K.Rel d K.SameValue (ev id env) (ev' id env')) :
    K.Rel d (List.Forall₂ K.SameValue) (argumentsWith ev env ids)
      (argumentsWith ev' env' ids) := by
  induction ids with
  | nil => exact K.pure .nil
  | cons id ids ih =>
    refine K.bind (h id List.mem_cons_self) fun v v' hHead => ?_
    have hRest := ih fun id hMem => h id (List.mem_cons_of_mem _ hMem)
    exact K.bind hRest fun vs vs' hTail => K.pure (.cons hHead hTail)

theorem bindParams_rel {args args' : List Value} (hScope : K.SameScope env env')
    (hArgs : List.Forall₂ K.SameValue args args') (names : List Name) (span : Option Span) :
    K.Rel d (fun _ _ => True) (bindParams env span names args)
      (bindParams env' span names args') := by
  induction names generalizing args args' with
  | nil => exact K.pure trivial
  | cons name names ih =>
    obtain ⟨hHead, hTail⟩ := forall₂_head_tail hArgs .null
    exact K.bind (K.declare name span hScope hHead) fun _ _ _ => ih hTail

/-- What is needed of the bodies of closures: that they are related one level deeper. -/
def BodiesRel (K : Coupling cfg cfg') (d : Nat) (ev ev' : Evaluator) : Prop :=
  ∀ {c c' env env'}, K.Deeper d → K.SameClosure c c' → K.SameScope env env' →
    K.Rel (d + 1) K.SameValue (ev c.body env) (ev' c.body env')

theorem applyWith_rel {c c' : Closure} {args args' : List Value} (hClosure : K.SameClosure c c')
    (hArgs : List.Forall₂ K.SameValue args args') (hBodies : K.BodiesRel d ev ev') (span : Span) :
    K.Rel d K.SameValue (applyWith cfg ev c args span) (applyWith cfg' ev' c' args' span) := by
  rw [applyWith_eq_permit, applyWith_eq_permit, ← hArgs.length_eq, (K.body hClosure).1]
  refine K.bind (K.permit args.length span hClosure) ?_
  rintro names _ ⟨rfl, hDeeper⟩
  refine K.bind (K.enclose hClosure) fun inner inner' hInner => ?_
  refine K.bind (bindParams_rel hInner hArgs names (some span)) fun _ _ _ => ?_
  exact K.entered (hBodies hDeeper hClosure hInner)

theorem callWith_rel {callee : NodeId} {args : Slice} {span : Span} (hNode : K.Node id)
    (hCall : cfg.table.node? id = some ⟨.call callee args, span⟩)
    (hOperands : ∀ child ∈ (Form.call callee args).operands cfg.table,
      K.Rel d K.SameValue (ev child env) (ev' child env'))
    (hBodies : K.BodiesRel d ev ev') :
    K.Rel d K.SameValue (callWith cfg ev callee args env span)
      (callWith cfg' ev' callee args env' span) := by
  refine K.bind (hOperands callee List.mem_cons_self) fun v v' hSame => ?_
  cases hSame with
  | closure hClosure =>
    refine K.bind (foundArgs_rel hNode hCall) ?_
    rintro ids _ ⟨rfl, hArgs⟩
    have hEach : ∀ arg ∈ ids, K.Rel d K.SameValue (ev arg env) (ev' arg env') := by
      intro arg hMem
      refine hOperands arg (List.mem_cons_of_mem _ ?_)
      simpa [Form.arguments, hArgs] using hMem
    refine K.bind (argumentsWith_rel hEach) fun vs vs' hValues => ?_
    exact applyWith_rel hClosure hValues hBodies span
  | _ =>
    simp only [K.table_eq]
    exact K.fail not_false

/-! ## Nodes -/

/-- One level of evaluation is related if its operands and the bodies that it enters are; a loop
needs fuel. -/
theorem nodeWith_rel (hNode : K.Node id) (hScope : K.SameScope env env')
    (hLoop : ∀ c b span, cfg.table.node? id = some ⟨.loop c b, span⟩ → K.Fuel fuel fuel')
    (hOperands : ∀ n, cfg.table.node? id = some n → ∀ child ∈ n.form.operands cfg.table,
      K.Rel d K.SameValue (ev child env) (ev' child env'))
    (hBodies : K.BodiesRel d ev ev') :
    K.Rel d K.SameValue (nodeWith cfg fuel ev id env) (nodeWith cfg' fuel' ev' id env') := by
  refine K.bind (foundNode_rel hNode) ?_
  rintro ⟨form, span⟩ _ ⟨rfl, hFound⟩
  have hParts := hOperands _ hFound
  cases form with
  | int value => exact K.pure (.int value)
  | bool value => exact K.pure (.bool value)
  | null => exact K.pure .null
  | ref name => exact K.resolve name hScope
  | print a =>
    refine K.bind (hParts a (by simp [Form.operands, Form.children, Form.parts])) ?_
    intro v v' hSame
    exact K.bind (K.print hSame) fun _ _ _ => K.pure hSame
  | binary op a b =>
    refine K.bind (hParts a (by simp [Form.operands, Form.children, Form.parts])) ?_
    intro v v' hLeft
    refine K.bind (hParts b (by simp [Form.operands, Form.children, Form.parts])) ?_
    intro w w' hRight
    exact operate_rel hLeft hRight op (some span)
  | branch c a b =>
    have hCondition := hParts c (by simp [Form.operands, Form.children, Form.parts])
    refine K.bind (conditionWith_rel hCondition) ?_
    rintro holds _ rfl
    cases holds with
    | true => exact hParts a (by simp [Form.operands, Form.children, Form.parts])
    | false =>
      cases b with
      | none => exact K.pure .null
      | some b => exact hParts b (by simp [Form.operands, Form.children, Form.parts])
  | loop c b =>
    have hCondition := hParts c (by simp [Form.operands, Form.children, Form.parts])
    have hBody := hParts b (by simp [Form.operands, Form.children, Form.parts])
    exact loopWith_rel (hLoop c b span hFound) (conditionWith_rel hCondition) hBody .null
  | sequence a b =>
    refine K.bind (hParts a (by simp [Form.operands, Form.children, Form.parts])) ?_
    intro _ _ _
    exact hParts b (by simp [Form.operands, Form.children, Form.parts])
  | declare name a =>
    refine K.bind (hParts a (by simp [Form.operands, Form.children, Form.parts])) ?_
    intro v v' hSame
    exact K.bind (K.declare name (some span) hScope hSame) fun _ _ _ => K.pure hSame
  | assign name a =>
    refine K.bind (hParts a (by simp [Form.operands, Form.children, Form.parts])) ?_
    intro v v' hSame
    exact K.bind (K.assign name (some span) hScope hSame) fun _ _ _ => K.pure hSame
  | function params body => exact K.makeClosure hNode hFound hScope
  | call callee args => exact callWith_rel hNode hFound hParts hBodies

/-- The evaluation of a node is related in both runs. -/
theorem eval_rel (K : Coupling cfg cfg') (hFuel : K.Fuel fuel fuel') (hNode : K.Node id)
    (hScope : K.SameScope env env') :
    K.Rel d K.SameValue (eval cfg fuel id env) (eval cfg' fuel' id env') := by
  -- A body is evaluated one call deeper, so the depth varies along the induction.
  induction fuel generalizing fuel' d id env env' with
  | zero => exact K.spent hFuel fun hNone => by rw [hNone, eval]
  | succ fuel ih =>
    obtain ⟨rest, rfl, hRest⟩ := K.burn hFuel
    refine nodeWith_rel hNode hScope (fun _ _ _ _ => hRest) (fun n hFound child hMem => ?_) ?_
    · exact ih hRest (K.operand hNode hFound hMem) hScope
    · intro c c' inner inner' _ hClosure hInner
      exact ih hRest (K.body hClosure).2 hInner

end Coupling

end Eval

end FeatherScript
