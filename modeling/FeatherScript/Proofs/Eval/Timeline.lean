import FeatherScript.Proofs.Eval.Event

/-!
# The events of an evaluation

Every construct has the events of its operands, in their order, and those of its own effect. Only
the application of a closure makes a scope: one, when it has passed its checks, and before it binds
the parameters and enters the body. However an evaluation ends, its events are a run from the state
it started in to the one it ended in.

* `events`: the events of the evaluation of a node, construct by construct.
* `Follows`: an effect does what some events say.
* `eval_follows`: evaluation does what its events say.
* `outers_applyLog`, `Gathers.nodeLog`: applications make one scope each, and nothing else makes
  any.
-/

namespace FeatherScript.Eval

open Effect

/-! ## The events of constructs -/

/-- The events that an effect has when it starts in a state. -/
abbrev Log : Type := State → List Event

variable {α β : Type}

/-- The events of an effect, and then those of what comes after it if it succeeds. -/
def Log.andThen (log : Log) (x : Effect α) (next : α → Log) : Log := fun s =>
  log s ++ match x s with
    | .ok a t => next a t
    | .error _ _ => []

/-- No events. -/
def Log.none : Log := fun _ => []

/-- A declaration binds the name, unless it is bound. -/
def declareLog (env : ScopeId) (name : Name) (value : Value) : Log := fun s =>
  if s.scopes.binds env name then [] else [.bound env name value]

def bindParamsLog (env : ScopeId) (span : Option Span) : List Name → List Value → Log
  | [], _ => .none
  | name :: names, args =>
    (declareLog env name (args.head?.getD .null)).andThen
      (declare env name (args.head?.getD .null) span) fun _ =>
        bindParamsLog env span names args.tail

/-- The events inside a body, between those of entering and of leaving it. -/
def enteredLog (log : Log) : Log := fun s =>
  .entered :: (log { s with depth := s.depth + 1 } ++ [.left])

section

variable (cfg : Setting) (ev : Evaluator) (log : NodeId → ScopeId → Log)

def loopLog (condition body : NodeId) (env : ScopeId) : Nat → Log
  | 0 => .none
  | fuel + 1 =>
    (log condition env).andThen (conditionWith cfg ev condition env) fun more =>
      if more then (log body env).andThen (ev body env) fun _ => loopLog condition body env fuel
      else .none

def argumentsLog (env : ScopeId) : List NodeId → Log
  | [] => .none
  | id :: ids => (log id env).andThen (ev id env) fun _ => argumentsLog env ids

/-- The events of binding the parameters of a closure in a scope, and of its body. -/
def bodyLog (c : Closure) (params : List Name) (args : List Value) (span : Span) (env : ScopeId) :
    Log :=
  (bindParamsLog env (some span) params args).andThen (bindParams env (some span) params args)
    fun _ => enteredLog (log c.body env)

/-- The events of an application: if it passes its checks, a scope is made, and the body is entered
there. -/
def applyLog (c : Closure) (args : List Value) (span : Span) : Log :=
  Log.none.andThen (permit cfg c args.length span) fun params =>
    Log.andThen (fun _ => [.opened c args.length]) (onScopes (·.enclose c.scope)) fun env =>
      bodyLog log c params args span env

def callLog (callee : NodeId) (args : Slice) (env : ScopeId) (span : Span) : Log :=
  (log callee env).andThen (ev callee env) fun
    | .closure c =>
      match cfg.table.args? args with
      | some ids =>
        (argumentsLog ev log env ids).andThen (argumentsWith ev env ids) fun values =>
          applyLog cfg log c values span
      | none => .none
    | _ => .none

/-- The events of one level of evaluation, given those of other nodes. -/
def nodeLog (fuel : Nat) (id : NodeId) (env : ScopeId) : Log :=
  match cfg.table.node? id with
  | none => .none
  | some node =>
    match node.form with
    | .int _ | .bool _ | .null | .ref _ => .none
    | .print argument =>
      (log argument env).andThen (ev argument env) fun value _ => [.printed value]
    | .binary _ left right => (log left env).andThen (ev left env) fun _ => log right env
    | .branch condition consequent alternative =>
      (log condition env).andThen (conditionWith cfg ev condition env) fun holds =>
        if holds then log consequent env
        else
          match alternative with
          | some other => log other env
          | none => .none
    | .loop condition body => loopLog cfg ev log condition body env fuel
    | .sequence first second => (log first env).andThen (ev first env) fun _ => log second env
    | .declare name init =>
      (log init env).andThen (ev init env) fun value => declareLog env name value
    | .assign name source =>
      (log source env).andThen (ev source env) fun value s =>
        [.written s.scopes (s.scopes.assignee env name) name value]
    | .function params body => fun s => [.made ⟨s.closures, params, body, env⟩]
    | .call callee args => callLog cfg ev log callee args env node.span

end

/-- The events of the evaluation of a node. -/
def events (cfg : Setting) : Nat → NodeId → ScopeId → Log
  | 0 => fun _ _ => .none
  | fuel + 1 => nodeLog cfg (eval cfg fuel) (events cfg fuel) fuel

/-- The events of the application of a value from outside of any program. -/
def callEvents (cfg : Setting) (fuel : Nat) (callee : Value) (args : List Value) : Log :=
  match callee with
  | .closure c => applyLog cfg (events cfg fuel) c args .origin
  | _ => .none

/-! ## The scopes that are made -/

/-- The scopes around those that an effect makes, in the order in which they are made. -/
def Log.outers (log : Log) (s : State) : List ScopeId := (log s).filterMap Event.outer?

theorem Log.outers_andThen (log : Log) (x : Effect α) (next : α → Log) (s : State) :
    (log.andThen x next).outers s = log.outers s ++ match x s with
      | .ok a t => (next a).outers t
      | .error _ _ => [] := by
  unfold Log.outers Log.andThen
  rw [List.filterMap_append]
  cases x s <;> rfl

theorem outers_bindParamsLog (env : ScopeId) (span : Option Span) (names : List Name)
    (args : List Value) (s : State) : (bindParamsLog env span names args).outers s = [] := by
  induction names generalizing args s with
  | nil => rfl
  | cons name names ih =>
    have hDeclare : (declareLog env name (args.head?.getD .null)).outers s = [] := by
      unfold Log.outers declareLog
      split <;> rfl
    rw [bindParamsLog, Log.outers_andThen, hDeclare, List.nil_append]
    split
    · exact ih _ _
    · rfl

theorem outers_enteredLog (log : Log) (s : State) :
    (enteredLog log).outers s = log.outers { s with depth := s.depth + 1 } := by
  have hLeft : Event.outer? .left = none := rfl
  unfold Log.outers enteredLog
  rw [List.filterMap_cons_none rfl, List.filterMap_append, List.filterMap_cons_none hLeft,
    List.filterMap_nil, List.append_nil]

/-- The checks of an application change nothing. -/
theorem permit_cases (cfg : Setting) (c : Closure) (supplied : Nat) (span : Span) (s : State) :
    (∃ params, permit cfg c supplied span s = .ok params s) ∨
      ∃ stop, permit cfg c supplied span s = .error stop s := by
  rw [permit_eq]
  split
  · exact .inr ⟨_, rfl⟩
  · split
    · exact .inr ⟨_, rfl⟩
    · split
      · exact .inr ⟨_, rfl⟩
      · exact .inl ⟨_, rfl⟩

theorem outers_bodyLog (log : NodeId → ScopeId → Log) (c : Closure) (params : List Name)
    (args : List Value) (span : Span) (env : ScopeId) (s : State) :
    (bodyLog log c params args span env).outers s =
      match bindParams env (some span) params args s with
      | .ok _ t => (log c.body env).outers { t with depth := t.depth + 1 }
      | .error _ _ => [] := by
  rw [bodyLog, Log.outers_andThen, outers_bindParamsLog, List.nil_append]
  cases bindParams env (some span) params args s with
  | ok _ t => exact outers_enteredLog _ t
  | error _ _ => rfl

/-- An application that passes its checks makes one scope, inside that of the closure, and then
those that its body makes; one that does not pass them makes none. -/
theorem outers_applyLog (cfg : Setting) (log : NodeId → ScopeId → Log) (c : Closure)
    (args : List Value) (span : Span) (s : State) :
    (applyLog cfg log c args span).outers s =
      match permit cfg c args.length span s with
      | .ok params _ =>
        c.scope :: match bindParams s.scopes.all.size (some span) params args
            { s with scopes := (s.scopes.enclose c.scope).2 } with
          | .ok _ t => (log c.body s.scopes.all.size).outers { t with depth := t.depth + 1 }
          | .error _ _ => []
      | .error _ _ => [] := by
  rw [applyLog, Log.outers_andThen]
  obtain ⟨params, hPassed⟩ | ⟨stop, hRefused⟩ := permit_cases cfg c args.length span s
  · rw [hPassed]
    dsimp only
    rw [Log.outers_andThen]
    exact congrArg (c.scope :: ·) (outers_bodyLog log c params args span s.scopes.all.size _)
  · rw [hRefused]
    rfl

/-- The scopes that a log makes are those of evaluations of some nodes, one after the other, and
then those of something else, if it comes to that. -/
def Gathers (log : NodeId → ScopeId → Log) (env : ScopeId) (ids : List NodeId)
    (Own : List ScopeId → Prop) (whole : Log) : Prop :=
  ∀ s, ∃ (parts : List (NodeId × State)) (rest : List ScopeId),
    (∀ part ∈ parts, part.1 ∈ ids) ∧ (rest = [] ∨ Own rest) ∧
    whole.outers s = (parts.flatMap fun part => (log part.1 env).outers part.2) ++ rest

/-- The scopes of an application that a node comes to, which is a call. -/
def OwnScopes (cfg : Setting) (log : NodeId → ScopeId → Log) (n : Node) (rest : List ScopeId) :
    Prop :=
  ∃ callee args c values s, n.form = .call callee args ∧
    rest = (applyLog cfg log c values n.span).outers s

section

variable {cfg : Setting} {ev : Evaluator} {log : NodeId → ScopeId → Log} {env : ScopeId}
  {ids : List NodeId} {Own : List ScopeId → Prop} {whole : Log} {x : Effect α} {next : α → Log}

namespace Gathers

theorem of_none (h : ∀ s, whole.outers s = []) : Gathers log env ids Own whole :=
  fun s => ⟨[], [], nofun, .inl rfl, h s⟩

theorem of_mem {id : NodeId} (hMem : id ∈ ids) : Gathers log env ids Own (log id env) := by
  intro s
  refine ⟨[(id, s)], [], ?_, .inl rfl, ?_⟩
  · rwa [List.forall_mem_singleton]
  · rw [List.flatMap_singleton, List.append_nil]

theorem of_own (h : ∀ s, Own (whole.outers s)) : Gathers log env ids Own whole :=
  fun s => ⟨[], whole.outers s, nofun, .inr (h s), rfl⟩

theorem andThen (h : Gathers log env ids (fun _ => False) whole)
    (hNext : ∀ a, Gathers log env ids Own (next a)) :
    Gathers log env ids Own (whole.andThen x next) := by
  intro s
  obtain ⟨parts, rest, hParts, hRest, hFirst⟩ := h s
  obtain rfl := hRest.resolve_right not_false
  rw [Log.outers_andThen, hFirst, List.append_nil]
  cases x s with
  | error stop t => exact ⟨parts, [], hParts, .inl rfl, rfl⟩
  | ok a t =>
    obtain ⟨more, rest, hMore, hRest, hLast⟩ := hNext a t
    refine ⟨parts ++ more, rest, List.forall_mem_append.mpr ⟨hParts, hMore⟩, hRest, ?_⟩
    rw [List.flatMap_append, List.append_assoc, ← hLast]

theorem loopLog {c b : NodeId} (hCondition : c ∈ ids) (hBody : b ∈ ids) (fuel : Nat) :
    Gathers log env ids Own (loopLog cfg ev log c b env fuel) := by
  induction fuel with
  | zero => exact of_none fun _ => rfl
  | succ fuel ih =>
    refine (of_mem hCondition).andThen fun more => ?_
    cases more with
    | false => exact of_none fun _ => rfl
    | true => exact (of_mem hBody).andThen fun _ => ih

theorem argumentsLog {args : List NodeId} (hArgs : ∀ id ∈ args, id ∈ ids) :
    Gathers log env ids Own (argumentsLog ev log env args) := by
  induction args with
  | nil => exact of_none fun _ => rfl
  | cons id args ih =>
    obtain ⟨hFirst, hMore⟩ := List.forall_mem_cons.mp hArgs
    exact (of_mem hFirst).andThen fun _ => ih hMore

theorem callLog {callee : NodeId} {args : Slice} {span : Span} :
    Gathers log env ((Form.call callee args).operands cfg.table)
      (OwnScopes cfg log ⟨.call callee args, span⟩) (callLog cfg ev log callee args env span) := by
  refine andThen (of_mem (by simp [Form.operands, Form.children, Form.parts])) fun value => ?_
  cases value with
  | int | bool | null => exact of_none fun _ => rfl
  | closure c =>
    dsimp only
    cases hArgs : cfg.table.args? args with
    | none => exact of_none fun _ => rfl
    | some ids =>
      refine andThen (argumentsLog fun id hMem => ?_) fun values => of_own fun s => ?_
      · simp [Form.operands, Form.children, Form.arguments, hArgs, hMem]
      · exact ⟨callee, args, c, values, s, rfl, rfl⟩

/-- A node makes no scopes but those of its operands and, if it is a call, those of an application
after them. -/
theorem nodeLog {id : NodeId} {n : Node} (hNode : cfg.table.node? id = some n) (fuel : Nat) :
    Gathers log env (n.form.operands cfg.table) (OwnScopes cfg log n)
      (nodeLog cfg ev log fuel id env) := by
  obtain ⟨form, span⟩ := n
  unfold Eval.nodeLog
  rw [hNode]
  cases form with
  | int | bool | null | ref | function => exact of_none fun _ => rfl
  | print a =>
    refine andThen (of_mem ?_) fun value => of_none fun _ => rfl
    simp [Form.operands, Form.children, Form.parts]
  | binary op a b =>
    refine andThen (of_mem ?_) fun _ => of_mem ?_ <;>
      simp [Form.operands, Form.children, Form.parts]
  | branch c a b =>
    refine andThen (of_mem ?_) fun holds => ?_
    · simp [Form.operands, Form.children, Form.parts]
    cases holds with
    | true => exact of_mem (by simp [Form.operands, Form.children, Form.parts])
    | false =>
      cases b with
      | none => exact of_none fun _ => rfl
      | some b => exact of_mem (by simp [Form.operands, Form.children, Form.parts])
  | loop c b => apply loopLog <;> simp [Form.operands, Form.children, Form.parts]
  | sequence a b =>
    refine andThen (of_mem ?_) fun _ => of_mem ?_ <;>
      simp [Form.operands, Form.children, Form.parts]
  | declare name a =>
    refine andThen (of_mem ?_) fun value => of_none fun s => ?_
    · simp [Form.operands, Form.children, Form.parts]
    · unfold Log.outers declareLog
      split <;> rfl
  | assign name a =>
    refine andThen (of_mem ?_) fun value => of_none fun s => ?_
    · simp [Form.operands, Form.children, Form.parts]
    · unfold Log.outers Event.written
      dsimp only
      split <;> rfl
  | call callee args => exact callLog

end Gathers

end

/-! ## Effects that do what events say -/

variable {cfg : Setting} {s t : State} {x : Effect α} {f : α → Effect β} {log : Log}
  {next : α → Log} {P : State → α → Prop} {Q : State → β → Prop}

/-- Started in a state, an effect does what some events say, and has a value with a property if it
has one. -/
def Follows (cfg : Setting) (x : Effect α) (log : Log) (P : State → α → Prop) (s : State) : Prop :=
  match x s with
  | .ok a t => Run cfg .program s (log s) t ∧ P t a
  | .error _ t => Run cfg .program s (log s) t

namespace Follows

theorem of_ok {a : α} (h : Follows cfg x log P s) (hResult : x s = .ok a t) :
    Run cfg .program s (log s) t ∧ P t a := by
  unfold Follows at h
  rw [hResult] at h
  exact h

/-- The events lead to the state in which the effect ends, if it settles. -/
theorem exists_run (h : Follows cfg x log P s) :
    ∃ t, Run cfg .program s (log s) t ∧ ∀ result u, x.settle s = .ok (result, u) → u = t := by
  unfold Follows at h
  unfold settle
  cases hResult : x s with
  | ok a t =>
    rw [hResult] at h
    refine ⟨t, h.1, ?_⟩
    rintro result u ⟨⟩
    rfl
  | error stop t =>
    rw [hResult] at h
    refine ⟨t, h, fun result u hSettled => ?_⟩
    cases stop with
    | failed e =>
      cases hSettled
      rfl
    | fault fault => cases hSettled

theorem pure {a : α} (hValue : P s a) : Follows cfg (Pure.pure a) .none P s := ⟨.nil, hValue⟩

theorem throw {stop : Stop} : Follows cfg (MonadExcept.throw stop) .none P s := Run.nil

theorem fail {cause : EvalCause} {span : Option Span} :
    Follows cfg (Effect.fail cause span) .none P s := Run.nil

theorem bind (h : Follows cfg x log P s)
    (hNext : ∀ a t, x s = .ok a t → Run cfg .program s (log s) t → P t a →
      Follows cfg (f a) (next a) Q t) :
    Follows cfg (x >>= f) (log.andThen x next) Q s := by
  unfold Follows at h ⊢
  change match EStateM.bind x f s with
    | .ok b t => Run cfg .program s (log.andThen x next s) t ∧ Q t b
    | .error _ t => Run cfg .program s (log.andThen x next s) t
  unfold EStateM.bind Log.andThen
  cases hResult : x s with
  | error stop t =>
    rw [hResult] at h
    simpa using h
  | ok a t =>
    rw [hResult] at h
    have hAfter := hNext a t hResult h.1 h.2
    unfold Follows at hAfter
    dsimp only
    cases hLast : f a t with
    | ok b u =>
      rw [hLast] at hAfter
      exact ⟨h.1.append hAfter.1, hAfter.2⟩
    | error stop u =>
      rw [hLast] at hAfter
      exact h.1.append hAfter

theorem andThen_none (log : Log) (x : Effect α) : log.andThen x (fun _ => .none) = log := by
  funext s
  unfold Log.andThen Log.none
  split <;> exact List.append_nil _

/-- What comes after the events may do nothing of its own. -/
theorem bind_silent (h : Follows cfg x log P s)
    (hNext : ∀ a t, x s = .ok a t → Run cfg .program s (log s) t → P t a →
      Follows cfg (f a) .none Q t) :
    Follows cfg (x >>= f) log Q s := by
  have hBind := h.bind hNext
  rwa [andThen_none] at hBind

/-- A single event, and a value after it. -/
theorem single {x : Effect Unit} {e : Event} {a : α} (hResult : x s = .ok () t)
    (hEvent : log s = [e]) (hHappens : Happens cfg .program s e t) (hValue : P t a) :
    Follows cfg (x >>= fun _ => Pure.pure a) log P s := by
  unfold Follows
  rw [bind_of_ok hResult, hEvent]
  exact ⟨.single hHappens, hValue⟩

end Follows

/-! ## Constructs -/

/-- A state in which nodes may be evaluated in a scope. -/
def Ready (s : State) (env : ScopeId) : Prop := s.scopes.Closed ∧ env < s.scopes.all.size

/-- Evaluation in a scope does what its events say, and has a value that is known. -/
def Sound (cfg : Setting) (ev : Evaluator) (log : NodeId → ScopeId → Log) : Prop :=
  ∀ id env s, Ready s env → Follows cfg (ev id env) (log id env) (fun t v => t.scopes.Knows v) s

variable {ev : Evaluator} {logs : NodeId → ScopeId → Log} {id : NodeId} {env : ScopeId}
  {es : List Event} {fuel : Nat} {v : Value} {name : Name} {span : Option Span}

theorem Ready.run (h : Ready s env) (hRun : Run cfg .program s es t) : Ready t env :=
  ⟨hRun.closed h.1, Nat.lt_of_lt_of_le h.2 hRun.extension.size⟩

theorem conditionWith_follows (hEv : Sound cfg ev logs) (hReady : Ready s env) :
    Follows cfg (conditionWith cfg ev id env) (logs id env) (fun _ _ => True) s := by
  refine (hEv id env s hReady).bind_silent fun v t _ _ _ => ?_
  cases v with
  | bool b => exact .pure trivial
  | _ => exact .fail

theorem loopWith_follows (hEv : Sound cfg ev logs) {c b : NodeId} (hReady : Ready s env)
    (fuel : Nat) {last : Value} (hLast : s.scopes.Knows last) :
    Follows cfg (loopWith (conditionWith cfg ev c env) (ev b env) fuel last)
      (loopLog cfg ev logs c b env fuel) (fun t v => t.scopes.Knows v) s := by
  induction fuel generalizing s last with
  | zero => exact .throw
  | succ fuel ih =>
    refine (conditionWith_follows hEv hReady).bind fun more t _ hTest _ => ?_
    cases more with
    | false => exact .pure (hLast.extend hTest.extension)
    | true =>
      refine (hEv b env t (hReady.run hTest)).bind fun value u _ hBody hValue => ?_
      exact ih ((hReady.run hTest).run hBody) hValue

theorem argumentsWith_follows (hEv : Sound cfg ev logs) (hReady : Ready s env)
    (ids : List NodeId) :
    Follows cfg (argumentsWith ev env ids) (argumentsLog ev logs env ids)
      (fun t vs => ∀ v ∈ vs, t.scopes.Knows v) s := by
  induction ids generalizing s with
  | nil => exact .pure nofun
  | cons id ids ih =>
    refine (hEv id env s hReady).bind fun value t _ hFirst hValue => ?_
    refine (ih (hReady.run hFirst)).bind_silent fun values u _ hRest hValues => ?_
    refine .pure fun v hMem => ?_
    rcases List.mem_cons.mp hMem with rfl | hMem
    · exact hValue.extend hRest.extension
    · exact hValues v hMem

theorem declare_follows (hReady : Ready s env) (hValue : s.scopes.Knows v) :
    Follows cfg (declare env name v span) (declareLog env name v) (fun _ _ => True) s := by
  unfold Follows declareLog
  rw [declare_eq]
  cases hBinds : s.scopes.binds env name with
  | true => exact .nil
  | false => exact ⟨.single (.bound hReady.2 hBinds hValue), trivial⟩

theorem bindParams_follows (hReady : Ready s env) {args : List Value}
    (hArgs : ∀ v ∈ args, s.scopes.Knows v) (span : Option Span) (names : List Name) :
    Follows cfg (bindParams env span names args) (bindParamsLog env span names args)
      (fun _ _ => True) s := by
  induction names generalizing s args with
  | nil => exact .pure trivial
  | cons name names ih =>
    have hFirst : s.scopes.Knows (args.head?.getD .null) := by
      cases args with
      | nil => exact Scopes.knows_plain nofun
      | cons arg args => exact hArgs arg List.mem_cons_self
    refine (declare_follows hReady hFirst).bind fun _ t _ hRun _ => ?_
    refine ih (hReady.run hRun) fun v hMem => ?_
    exact (hArgs v (List.mem_of_mem_tail hMem)).extend hRun.extension

theorem entered_follows {x : Effect Value} {log : Log}
    (h : Follows cfg x log (fun t v => t.scopes.Knows v) { s with depth := s.depth + 1 }) :
    Follows cfg (entered x) (enteredLog log) (fun t v => t.scopes.Knows v) s := by
  unfold Follows at h ⊢
  unfold entered enteredLog
  cases hResult : x { s with depth := s.depth + 1 } with
  | ok a t =>
    rw [hResult] at h
    exact ⟨.cons .entered (h.1.append (.single .left)), h.2⟩
  | error stop t =>
    rw [hResult] at h
    exact .cons .entered (h.append (.single .left))

theorem permit_follows (c : Closure) (supplied : Nat) (span : Span) :
    Follows cfg (permit cfg c supplied span) .none
      (fun t params => s = t ∧ permit cfg c supplied span s = .ok params s) s := by
  unfold Follows
  obtain ⟨params, hPassed⟩ | ⟨stop, hRefused⟩ := permit_cases cfg c supplied span s
  · rw [hPassed]
    exact ⟨.nil, rfl, rfl⟩
  · rw [hRefused]
    exact .nil

theorem applyWith_follows (hEv : Sound cfg ev logs) {c : Closure} {args : List Value}
    (hClosed : s.scopes.Closed) (hScope : c.scope < s.scopes.all.size)
    (hArgs : ∀ v ∈ args, s.scopes.Knows v) (span : Span) :
    Follows cfg (applyWith cfg ev c args span) (applyLog cfg logs c args span)
      (fun t v => t.scopes.Knows v) s := by
  rw [applyWith_eq_permit]
  refine (permit_follows c args.length span).bind ?_
  rintro params _ - - ⟨rfl, hChecks⟩
  have hMade : Follows cfg (onScopes (·.enclose c.scope)) (fun _ => [.opened c args.length])
      (fun t env => Ready t env) s :=
    ⟨.single (.opened hChecks hScope), hClosed.enclose hScope, Scopes.lt_size_enclose _ _⟩
  refine hMade.bind fun env t _ hRun hReady => ?_
  have hKnown : ∀ v ∈ args, t.scopes.Knows v := fun v hMem =>
    (hArgs v hMem).extend hRun.extension
  refine (bindParams_follows hReady hKnown (some span) params).bind fun _ u _ hBound _ => ?_
  have hInside : Ready u env := hReady.run hBound
  exact entered_follows (hEv c.body env _ hInside)

theorem callWith_follows (hEv : Sound cfg ev logs) (hReady : Ready s env) (callee : NodeId)
    (args : Slice) (span : Span) :
    Follows cfg (callWith cfg ev callee args env span) (callLog cfg ev logs callee args env span)
      (fun t v => t.scopes.Knows v) s := by
  refine (hEv callee env s hReady).bind fun f t _ hCallee hKnown => ?_
  cases f with
  | closure c =>
    dsimp only
    cases cfg.table.args? args with
    | none => exact .throw
    | some ids =>
      have hStart := hReady.run hCallee
      refine (argumentsWith_follows hEv hStart ids).bind fun values u _ hValues hKnowns => ?_
      have hScope := hKnown.extend hValues.extension c rfl
      exact applyWith_follows hEv (hStart.run hValues).1 hScope hKnowns span
  | _ => exact .fail

/-- One level of evaluation does what its events say, if other nodes do what theirs say. -/
theorem nodeWith_follows (hEv : Sound cfg ev logs) (hReady : Ready s env) (fuel : Nat) :
    Follows cfg (nodeWith cfg fuel ev id env) (nodeLog cfg ev logs fuel id env)
      (fun t v => t.scopes.Knows v) s := by
  unfold nodeWith nodeLog
  cases cfg.table.node? id with
  | none => exact .throw
  | some node =>
    obtain ⟨form, span⟩ := node
    cases form with
    | int | bool | null => exact .pure (Scopes.knows_plain nofun)
    | ref name => exact ⟨.nil, hReady.1.knows_resolve⟩
    | print a =>
      refine (hEv a env s hReady).bind fun value t _ _ hKnown => ?_
      exact .single rfl rfl (.printed hKnown) hKnown
    | binary op a b =>
      refine (hEv a env s hReady).bind fun v t _ hLeft _ => ?_
      refine (hEv b env t (hReady.run hLeft)).bind_silent fun w u _ _ _ => ?_
      cases hResult : op.apply v w with
      | ok value => exact .pure (Scopes.knows_plain (Operator.apply_plain hResult))
      | error cause => exact .fail
    | branch c a b =>
      refine (conditionWith_follows hEv hReady).bind fun holds t _ hCondition _ => ?_
      have hThere := hReady.run hCondition
      cases holds with
      | true => exact hEv a env t hThere
      | false =>
        cases b with
        | none => exact .pure (Scopes.knows_plain nofun)
        | some b => exact hEv b env t hThere
    | loop c b => exact loopWith_follows hEv hReady fuel (Scopes.knows_plain nofun)
    | sequence a b =>
      refine (hEv a env s hReady).bind fun v t _ hFirst _ => ?_
      exact hEv b env t (hReady.run hFirst)
    | declare name a =>
      refine (hEv a env s hReady).bind fun v t _ hInit hKnown => ?_
      refine (declare_follows (hReady.run hInit) hKnown).bind_silent fun _ u _ hRun _ => ?_
      exact .pure (hKnown.extend hRun.extension)
    | assign name a =>
      refine (hEv a env s hReady).bind fun v t _ hSource hKnown => ?_
      have hTarget := Scopes.assignee_lt_size (hReady.run hSource).2 name
      have hWritten : Happens cfg .program t _ _ := .written name hTarget hKnown
      exact .single assign_eq rfl hWritten (hKnown.extend hWritten.extension)
    | function params body =>
      have hMade : Happens cfg .program s (.made ⟨s.closures, params, body, env⟩) _ :=
        .made hReady.2
      refine ⟨.single hMade, ?_⟩
      rintro c ⟨⟩
      exact hReady.2
    | call callee args => exact callWith_follows hEv hReady callee args span

/-- Evaluation does what its events say, however it ends. -/
theorem eval_follows (cfg : Setting) (fuel : Nat) :
    Sound cfg (eval cfg fuel) (events cfg fuel) := by
  induction fuel with
  | zero => exact fun id env s _ => .throw
  | succ fuel ih => exact fun id env s hReady => nodeWith_follows ih hReady fuel

theorem call_follows {callee : Value} {args : List Value} (fuel : Nat) (hClosed : s.scopes.Closed)
    (hCallee : s.scopes.Knows callee) (hArgs : ∀ v ∈ args, s.scopes.Knows v) :
    Follows cfg (call cfg fuel callee args) (callEvents cfg fuel callee args)
      (fun t v => t.scopes.Knows v) s := by
  cases callee with
  | closure c =>
    exact applyWith_follows (eval_follows cfg fuel) hClosed (hCallee c rfl) hArgs .origin
  | _ => exact .fail

/-! ## Declarations -/

/-- A declaration of a name that the scope binds does not succeed: it ends as its operand does, or,
if that has a value, as one of a name that was declared already. -/
def RefusesBound (cfg : Setting) (s : State) : Prop :=
  ∀ env name, s.scopes.binds env name = true → ∀ id init span,
    cfg.table.node? id = some ⟨.declare name init, span⟩ → ∀ fuel,
      eval cfg (fuel + 1) id env s = match eval cfg fuel init env s with
        | .ok _ t => .error (.failed ⟨.alreadyDeclared name, span⟩) t
        | .error stop t => .error stop t

theorem refusesBound_of_closed (hClosed : s.scopes.Closed) : RefusesBound cfg s := by
  intro env name hBinds id init span hNode fuel
  have hReady : Ready s env := ⟨hClosed, Scopes.lt_size_of_binds hBinds⟩
  have hInit := eval_follows cfg fuel init env s hReady
  have hLevel : eval cfg (fuel + 1) id env s = (eval cfg fuel init env >>= fun value =>
      declare env name value (some span) >>= fun _ => Pure.pure value) s := by
    change nodeWith cfg fuel (eval cfg fuel) id env s = _
    unfold nodeWith
    rw [hNode]
    rfl
  rw [hLevel]
  cases hResult : eval cfg fuel init env s with
  | ok value t =>
    obtain ⟨hRun, -⟩ := hInit.of_ok hResult
    have hStill := hRun.extension.names env name hBinds
    have hDeclare : declare env name value (some span) t
        = .error (.failed ⟨.alreadyDeclared name, span⟩) t := by
      rw [declare_eq, if_pos hStill]
    rw [bind_of_ok hResult, bind_of_error hDeclare]
  | error stop t => rw [bind_of_error hResult]

end FeatherScript.Eval
