import FeatherScript.Proofs.Eval.Lockstep
import FeatherScript.Proofs.Tree.Alike

/-!
# Places and spellings play no part

Evaluation compares names by their numbers, and puts spans and names into errors without looking at
them. So evaluations that refer to tables with the same constructs go through the same states and
have the same values, or they stop for alike causes, whatever the spans are.

* `EvalCause.Alike`, `Stop.Alike`: causes that differ at most in a name, and errors that differ in
  their places too.
* `Alike`: effects with the same states and values that stop for alike reasons.
* `eval_alike`: the evaluation of a node in alike tables with the same names.
-/

namespace FeatherScript

variable {R : Name → Name → Prop}

/-- Causes that differ at most in the name that was declared already. -/
inductive EvalCause.Alike (R : Name → Name → Prop) : EvalCause → EvalCause → Prop
  | declared {n n'} (h : R n n') : EvalCause.Alike R (.alreadyDeclared n) (.alreadyDeclared n')
  | other {cause} (hName : ∀ n, cause ≠ .alreadyDeclared n) : EvalCause.Alike R cause cause

/-- Errors with alike causes, both with a place or both without. -/
structure EvalError.Alike (R : Name → Name → Prop) (e e' : EvalError) : Prop where
  cause : e.cause.Alike R e'.cause
  span : e'.span.isSome = e.span.isSome

namespace Eval

open Effect

/-! ## Effects -/

/-- Alike reasons to stop. -/
inductive Stop.Alike (R : Name → Name → Prop) : Stop → Stop → Prop
  | failed {e e'} (h : e.Alike R e') : Stop.Alike R (.failed e) (.failed e')
  | fault (fault) : Stop.Alike R (.fault fault) (.fault fault)

/-- Effects that differ at most in the errors they stop for, which are alike. -/
abbrev Alike {α : Type} (R : Name → Name → Prop) (x y : Effect α) : Prop :=
  Simulates Eq (Stop.Alike R) Eq x y

namespace Alike

variable {α β : Type} {x y : Effect α} {f g : α → Effect β}

theorem pure (a : α) : Alike R (Pure.pure a) (Pure.pure a) := Simulates.pure rfl

theorem fault (fault : Fault) :
    Alike R (throw (.fault fault) : Effect α) (throw (.fault fault)) :=
  Simulates.throw (.fault fault)

/-- An effect that always succeeds is like itself. -/
theorem succeeds (h : ∀ s, ∃ a t, x s = .ok a t) : Alike R x x := by
  rintro s _ rfl
  obtain ⟨a, t, hResult⟩ := h s
  rw [hResult]
  exact .ok rfl rfl

theorem found (target : Option α) : Alike R (Effect.found target) (Effect.found target) := by
  cases target with
  | none => exact fault .dangling
  | some a => exact pure a

theorem bind (h : Alike R x y) (hNext : ∀ a, Alike R (f a) (g a)) :
    Alike R (x >>= f) (y >>= g) := by
  refine Simulates.bind h ?_
  rintro a _ rfl
  exact hNext a

theorem fail {cause : EvalCause} {span span' : Span} (h : ∀ n, cause ≠ .alreadyDeclared n) :
    Alike R (Effect.fail cause (some span) : Effect α) (Effect.fail cause (some span')) :=
  Simulates.throw (.failed ⟨.other h, rfl⟩)

theorem entered (h : Alike R x y) : Alike R (Effect.entered x) (Effect.entered y) := by
  rintro s _ rfl
  exact agree_entered (h _ _ rfl)

end Alike

/-! ## Constructs -/

/-- Settings with the same limits and alike tables. -/
structure Setting.Alike (R : Name → Name → Prop) (cfg cfg' : Setting) : Prop where
  table : cfg.table.Alike R cfg'.table
  policy : cfg'.policy = cfg.policy
  maxDepth : cfg'.maxDepth = cfg.maxDepth

section

variable {cfg cfg' : Setting} {ev ev' : Evaluator} {id : NodeId} {env : ScopeId} {name : Name}
  {span span' : Span}

theorem declare_alike (hName : R name name) (env : ScopeId) (value : Value) :
    Alike R (declare env name value (some span)) (declare env name value (some span')) := by
  rintro s _ rfl
  rw [declare_eq, declare_eq]
  split
  · exact .error (.failed ⟨.declared hName, rfl⟩) rfl
  · exact .ok rfl rfl

theorem assign_alike (env : ScopeId) (name : Name) (value : Value) :
    Alike R (assign env name value (some span)) (assign env name value (some span')) := by
  rintro s _ rfl
  rw [assign_eq, assign_eq]
  exact .ok rfl rfl

theorem bindParams_alike {names : List Name} (hNames : ∀ n ∈ names, R n n) (env : ScopeId)
    (args : List Value) :
    Alike R (bindParams env (some span) names args) (bindParams env (some span') names args) := by
  induction names generalizing args with
  | nil => exact .pure ()
  | cons name names ih =>
    refine (declare_alike (hNames name List.mem_cons_self) env _).bind fun _ => ?_
    exact ih (fun n hMem => hNames n (List.mem_cons_of_mem name hMem)) args.tail

theorem conditionWith_alike (hEv : Alike R (ev id env) (ev' id env)) :
    Alike R (conditionWith cfg ev id env) (conditionWith cfg' ev' id env) := by
  refine hEv.bind fun value => ?_
  cases value with
  | bool b => exact .pure b
  | _ => exact .fail nofun

theorem loopWith_alike {condition condition' : Effect Bool} {body body' : Effect Value}
    (hCondition : Alike R condition condition') (hBody : Alike R body body') (fuel : Nat)
    (last : Value) :
    Alike R (loopWith condition body fuel last) (loopWith condition' body' fuel last) := by
  induction fuel generalizing last with
  | zero => exact .fault .outOfFuel
  | succ fuel ih =>
    refine hCondition.bind fun more => ?_
    cases more with
    | false => exact .pure last
    | true => exact hBody.bind ih

theorem argumentsWith_alike (hEv : ∀ id, Alike R (ev id env) (ev' id env)) (ids : List NodeId) :
    Alike R (argumentsWith ev env ids) (argumentsWith ev' env ids) := by
  induction ids with
  | nil => exact .pure []
  | cons id ids ih => exact (hEv id).bind fun _ => ih.bind fun _ => .pure _

variable (hSame : ∀ n n', R n n' → n' = n)

include hSame

/-- Related names are the same, and related to themselves. -/
theorem names_eq {names names' : List Name} (h : List.Forall₂ R names names') :
    names' = names ∧ ∀ n ∈ names, R n n := by
  induction h with
  | nil => exact ⟨rfl, nofun⟩
  | cons hName _ ih =>
    obtain ⟨rfl, hMore⟩ := ih
    obtain rfl := hSame _ _ hName
    exact ⟨rfl, List.forall_mem_cons.mpr ⟨hName, hMore⟩⟩

/-- The checks of an application lead to the same parameters. -/
theorem permit_alike (h : cfg.Alike R cfg') (c : Closure) (supplied : Nat) :
    Simulates Eq (Stop.Alike R) (fun names names' => names' = names ∧ ∀ n ∈ names, R n n)
      (permit cfg c supplied span) (permit cfg' c supplied span') := by
  rintro s _ rfl
  rw [permit_eq, permit_eq, h.policy, h.maxDepth]
  by_cases hDepth : cfg.maxDepth ≤ s.depth
  · rw [if_pos hDepth, if_pos hDepth]
    exact .error (.failed ⟨.other nofun, rfl⟩) rfl
  rw [if_neg hDepth, if_neg hDepth]
  cases hParams : cfg.table.params? c.params with
  | none =>
    rw [h.table.params?_none hParams]
    exact .error (.fault _) rfl
  | some names =>
    obtain ⟨names', hParams', hRelated⟩ := h.table.params? hParams
    obtain ⟨rfl, hNames⟩ := names_eq hSame hRelated
    rw [hParams']
    dsimp only
    split
    · exact .error (.failed ⟨.other nofun, rfl⟩) rfl
    · exact .ok ⟨rfl, hNames⟩ rfl

theorem applyWith_alike (h : cfg.Alike R cfg') (hEv : ∀ id env, Alike R (ev id env) (ev' id env))
    (c : Closure) (args : List Value) :
    Alike R (applyWith cfg ev c args span) (applyWith cfg' ev' c args span') := by
  rw [applyWith_eq_permit, applyWith_eq_permit]
  refine (permit_alike hSame h c args.length).bind ?_
  rintro params _ ⟨rfl, hNames⟩
  have hScope : Alike R (onScopes (·.enclose c.scope)) (onScopes (·.enclose c.scope)) :=
    .succeeds fun _ => ⟨_, _, rfl⟩
  refine hScope.bind fun inner => ?_
  refine (bindParams_alike hNames inner args).bind fun _ => ?_
  exact (hEv c.body inner).entered

theorem callWith_alike (h : cfg.Alike R cfg') (hEv : ∀ id env, Alike R (ev id env) (ev' id env))
    (callee : NodeId) (args : Slice) (env : ScopeId) :
    Alike R (callWith cfg ev callee args env span) (callWith cfg' ev' callee args env span') := by
  refine (hEv callee env).bind fun value => ?_
  cases value with
  | closure c =>
    rw [h.table.args?]
    refine (Alike.found _).bind fun ids => ?_
    refine (argumentsWith_alike (fun id => hEv id env) ids).bind fun values => ?_
    exact applyWith_alike hSame h hEv c values
  | _ => exact .fail nofun

/-- One level of evaluation, given the evaluation of other nodes. -/
theorem nodeWith_alike (h : cfg.Alike R cfg') (hEv : ∀ id env, Alike R (ev id env) (ev' id env))
    (fuel : Nat) (id : NodeId) (env : ScopeId) :
    Alike R (nodeWith cfg fuel ev id env) (nodeWith cfg' fuel ev' id env) := by
  unfold nodeWith
  cases hNode : cfg.table.node? id with
  | none =>
    rw [h.table.node?_none hNode]
    exact .fault .dangling
  | some node =>
    obtain ⟨node', hNode', hForm⟩ := h.table.node? hNode
    obtain ⟨form, span⟩ := node
    obtain ⟨form', span'⟩ := node'
    rw [hNode']
    dsimp only at hForm
    -- Three constructs have a name, which is the same in both; the others are the same altogether.
    cases hForm with
    | ref hName =>
      obtain rfl := hSame _ _ hName
      exact .succeeds fun _ => ⟨_, _, rfl⟩
    | declare hName =>
      obtain rfl := hSame _ _ hName
      exact (hEv _ env).bind fun v => (declare_alike hName env v).bind fun _ => .pure v
    | assign hName =>
      obtain rfl := hSame _ _ hName
      exact (hEv _ env).bind fun v => (assign_alike env _ v).bind fun _ => .pure v
    | other hName =>
      cases form with
      | ref | declare | assign => cases hName
      | int | bool | null => exact .pure _
      | function => exact .succeeds fun _ => ⟨_, _, rfl⟩
      | print a =>
        refine (hEv a env).bind fun value => ?_
        have hPrint : Alike R (print value) (print value) := .succeeds fun _ => ⟨_, _, rfl⟩
        exact hPrint.bind fun _ => .pure value
      | binary op a b =>
        refine (hEv a env).bind fun v => (hEv b env).bind fun w => ?_
        cases hApply : op.apply v w with
        | ok value => exact .pure value
        | error cause =>
          obtain rfl | rfl | rfl | ⟨operation, rfl⟩ := Operator.apply_error hApply <;>
            exact .fail nofun
      | branch c a b =>
        refine (conditionWith_alike (hEv c env)).bind fun holds => ?_
        cases holds with
        | true => exact hEv a env
        | false =>
          cases b with
          | none => exact .pure Value.null
          | some b => exact hEv b env
      | loop c b => exact loopWith_alike (conditionWith_alike (hEv c env)) (hEv b env) fuel .null
      | sequence a b => exact (hEv a env).bind fun _ => hEv b env
      | call callee args => exact callWith_alike hSame h hEv callee args env

/-- The evaluation of a node in alike tables with the same names. -/
theorem eval_alike (h : cfg.Alike R cfg') (fuel : Nat) (id : NodeId) (env : ScopeId) :
    Alike R (eval cfg fuel id env) (eval cfg' fuel id env) := by
  induction fuel generalizing id env with
  | zero => exact .fault .outOfFuel
  | succ fuel ih => exact nodeWith_alike hSame h ih fuel id env

end

end Eval

end FeatherScript
