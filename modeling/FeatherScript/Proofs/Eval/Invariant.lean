import FeatherScript.Proofs.Eval.Effects
import FeatherScript.Proofs.Eval.Moment

/-!
# Invariants of evaluation

An invariant of evaluation says which states may occur, how states may change, which values may
occur in a state, and which nodes may be evaluated in which scopes. If every single effect respects
it, so does every run: it holds at all moments that a run visits, and wherever the run ends, with a
value, with an error or for lack of fuel.

* `Ensures`: what an effect started in a state guarantees, however it ends.
* `Invariant`: the data of an invariant and the law of each effect.
* `Invariant.eval_ensures`, `Invariant.holds_of_visits`: the two consequences.
-/

namespace FeatherScript.Eval

open Effect

/-! ## Guarantees -/

variable {α β : Type} {x : Effect α} {f : α → Effect β} {s t : State} {J J' : State → Prop}
  {P P' : State → α → Prop} {Q : State → β → Prop}

/-- Started in a state, an effect ends in a state with one property and with a value that has
another there, if it has a value. -/
def Ensures (x : Effect α) (s : State) (J : State → Prop) (P : State → α → Prop) : Prop :=
  match x s with
  | .ok a t => J t ∧ P t a
  | .error _ t => J t

namespace Ensures

theorem of_ok {a : α} (h : Ensures x s J P) (hResult : x s = .ok a t) : J t ∧ P t a := by
  unfold Ensures at h
  rw [hResult] at h
  exact h

theorem pure {a : α} (hState : J s) (hValue : P s a) : Ensures (Pure.pure a) s J P :=
  ⟨hState, hValue⟩

theorem throw {stop : Stop} (hState : J s) : Ensures (MonadExcept.throw stop) s J P :=
  hState

theorem fail {cause : EvalCause} {span : Option Span} (hState : J s) :
    Ensures (Effect.fail cause span) s J P :=
  hState

theorem bind (h : Ensures x s J P)
    (hNext : ∀ a t, x s = .ok a t → J t → P t a → Ensures (f a) t J Q) :
    Ensures (x >>= f) s J Q := by
  unfold Ensures at h
  change match EStateM.bind x f s with | .ok a t => J t ∧ Q t a | .error _ t => J t
  unfold EStateM.bind
  cases hResult : x s with
  | ok a t =>
    rw [hResult] at h
    exact hNext a t hResult h.1 h.2
  | error stop t =>
    rw [hResult] at h
    exact h

theorem imp (h : Ensures x s J P) (hState : ∀ t, J t → J' t)
    (hValue : ∀ a t, J t → P t a → P' t a) : Ensures x s J' P' := by
  unfold Ensures at h ⊢
  cases hResult : x s with
  | ok a t =>
    rw [hResult] at h
    exact ⟨hState t h.1, hValue a t h.1 h.2⟩
  | error stop t =>
    rw [hResult] at h
    exact hState t h

/-- What a reference leads to, and the state as it was. -/
theorem found {target : Option α} (hState : J s) :
    Ensures (Effect.found target) s J fun t a => target = some a ∧ t = s := by
  cases target with
  | none => exact hState
  | some a => exact ⟨hState, rfl, rfl⟩

/-- The body of a closure, where the depth does not matter. -/
theorem entered (hDepth : ∀ t d, J t → J { t with depth := d })
    (hValue : ∀ a t d, J t → P t a → P { t with depth := d } a)
    (h : Ensures x { s with depth := s.depth + 1 } J P) : Ensures (Effect.entered x) s J P := by
  unfold Ensures at h ⊢
  unfold Effect.entered
  cases hResult : x { s with depth := s.depth + 1 } with
  | ok a t =>
    rw [hResult] at h
    exact ⟨hDepth t _ h.1, hValue a t _ h.1 h.2⟩
  | error stop t =>
    rw [hResult] at h
    exact hDepth t _ h

end Ensures

/-- Binding parameters is writing null or arguments to one scope, where the names are unbound. -/
theorem bindParams_ensures {env : ScopeId} {span : Option Span} {names : List Name}
    {args : List Value} (hStart : J s)
    (hWrite : ∀ s name v, J s → v = .null ∨ v ∈ args → s.scopes.binds env name = false →
      J { s with scopes := s.scopes.write env name v }) :
    Ensures (bindParams env span names args) s J fun _ _ => True := by
  induction names generalizing s args with
  | nil => exact ⟨hStart, trivial⟩
  | cons name names ih =>
    have hDeclare : Ensures (declare env name (args.head?.getD .null) span) s J
        fun _ _ => True := by
      unfold Ensures
      rw [declare_eq]
      cases hBinds : s.scopes.binds env name with
      | true => exact hStart
      | false =>
        refine ⟨hWrite s name _ hStart ?_ hBinds, trivial⟩
        cases args with
        | nil => exact .inl rfl
        | cons arg args => exact .inr List.mem_cons_self
    refine Ensures.bind hDeclare fun _ t _ hBound _ => ih hBound fun s name v hState hValue => ?_
    exact hWrite s name v hState (hValue.imp_right List.mem_of_mem_tail)

/-! ## Invariants -/

/-- An invariant of evaluation. -/
structure Invariant (cfg : Setting) where
  /-- The states that may occur. -/
  Holds : State → Prop
  /-- The changes that a state may undergo. -/
  Later : State → State → Prop
  /-- The values that may occur in a state. -/
  Valid : State → Value → Prop
  /-- The nodes that may be evaluated, with their scopes. -/
  Here : Moment → Prop
  refl : ∀ s, Later s s
  trans : ∀ {s t u}, Later s t → Later t u → Later s u
  valid_later : ∀ {s t v}, Later s t → Valid s v → Valid t v
  valid_plain : ∀ {s v}, (∀ c, v ≠ .closure c) → Valid s v
  inside : ∀ {m m'}, Here m → Inside cfg m m' → Later m.state m'.state → Here m'
  applies : ∀ {m c s m'}, Here m → Applies cfg m c s m' → Holds s → Valid s (.closure c) →
    Holds m'.state → Later s m'.state → Here m'
  resolved : ∀ {m name}, Here m → Holds m.state → Valid m.state (m.state.scopes.resolve m.env name)
  printed : ∀ {s v}, Holds s →
    Holds { s with printed := s.printed.push v } ∧ Later s { s with printed := s.printed.push v }
  deeper : ∀ {s d}, Holds s → Holds { s with depth := d } ∧ Later s { s with depth := d }
  declared : ∀ {m s name v}, Here m → Later m.state s → Holds s → Valid s v →
    s.scopes.binds m.env name = false →
    Holds { s with scopes := s.scopes.write m.env name v } ∧
      Later s { s with scopes := s.scopes.write m.env name v }
  assigned : ∀ {m s name v}, Here m → Later m.state s → Holds s → Valid s v →
    Holds { s with scopes := s.scopes.write (s.scopes.assignee m.env name) name v } ∧
      Later s { s with scopes := s.scopes.write (s.scopes.assignee m.env name) name v }
  made : ∀ {m c t}, Here m → Makes cfg m c t → Holds m.state →
    Holds t ∧ Later m.state t ∧ Valid t (.closure c)
  bound : ∀ {s c args params span}, Holds s → Valid s (.closure c) → (∀ v ∈ args, Valid s v) →
    cfg.table.params? c.params = some params →
    Ensures (bindParams s.scopes.all.size (some span) params args)
      { s with scopes := (s.scopes.enclose c.scope).2 } (fun t => Holds t ∧ Later s t)
      fun _ _ => True

namespace Invariant

variable {cfg : Setting} {inv : Invariant cfg} {m m' : Moment} {fuel : Nat} {id : NodeId}
  {env : ScopeId} {r : State} {v : Value}

/-- A state that may occur and that another one may have changed to. -/
def Reached (inv : Invariant cfg) (r s : State) : Prop := inv.Holds s ∧ inv.Later r s

/-- An effect, started in a state reached from another, ends in such a state with a valid value. -/
def Sound (inv : Invariant cfg) (r s : State) (x : Effect Value) : Prop :=
  Ensures x s (inv.Reached r) fun t v => inv.Later s t ∧ inv.Valid t v

theorem Reached.start (h : inv.Holds s) : inv.Reached s s := ⟨h, inv.refl s⟩

theorem Reached.trans (h : inv.Later r s) (h' : inv.Reached s t) : inv.Reached r t :=
  ⟨h'.1, inv.trans h h'.2⟩

theorem Sound.of_ok {x : Effect Value} (h : inv.Sound r s x) (hResult : x s = .ok v t) :
    inv.Reached r t ∧ inv.Later s t ∧ inv.Valid t v :=
  Ensures.of_ok h hResult

theorem Sound.valid {x : Effect Value} (h : inv.Sound r s x) :
    Ensures x s (inv.Reached r) inv.Valid :=
  Ensures.imp h (fun _ hReached => hReached) fun _ _ _ hValid => hValid.2

/-- What an evaluation guarantees from where it starts, it guarantees from before. -/
theorem Sound.from {x : Effect Value} (h : inv.Sound s s x) (hLater : inv.Later r s) :
    inv.Sound r s x :=
  Ensures.imp h (fun _ hReached => hReached.trans hLater) fun _ _ _ hValue => hValue

theorem Sound.pure (hReached : inv.Reached r s) (hValid : inv.Valid s v) :
    inv.Sound r s (Pure.pure v) :=
  Ensures.pure hReached ⟨inv.refl s, hValid⟩

/-- A change of the state, and a value that was valid before it. -/
theorem Sound.after {x : Effect Unit} (hResult : x s = .ok () t) (hReached : inv.Reached r s)
    (hChange : inv.Holds t ∧ inv.Later s t) (hValid : inv.Valid s v) :
    inv.Sound r s (x >>= fun _ => Pure.pure v) := by
  unfold Sound Ensures
  rw [bind_of_ok hResult]
  exact ⟨⟨hChange.1, inv.trans hReached.2 hChange.2⟩, hChange.2, inv.valid_later hChange.2 hValid⟩

theorem print_sound (hReached : inv.Reached r s) (hValid : inv.Valid s v) :
    inv.Sound r s (do print v; return v) :=
  Sound.after rfl hReached (inv.printed hReached.1) hValid

theorem declare_sound {name : Name} {span : Option Span} (hHere : inv.Here m)
    (hReached : inv.Reached m.state s) (hValid : inv.Valid s v) :
    inv.Sound m.state s (do declare m.env name v span; return v) := by
  cases hBinds : s.scopes.binds m.env name with
  | true =>
    refine Ensures.bind (P := fun _ _ => False) ?_ fun _ _ _ _ h => h.elim
    unfold Ensures
    rw [declare_eq, if_pos hBinds]
    exact hReached
  | false =>
    have hResult : declare m.env name v span s
        = .ok () { s with scopes := s.scopes.write m.env name v } := by
      rw [declare_eq, hBinds]
      rfl
    have hChange := inv.declared hHere hReached.2 hReached.1 hValid hBinds
    exact Sound.after hResult hReached hChange hValid

theorem assign_sound {name : Name} {span : Option Span} (hHere : inv.Here m)
    (hReached : inv.Reached m.state s) (hValid : inv.Valid s v) :
    inv.Sound m.state s (do assign m.env name v span; return v) :=
  Sound.after assign_eq hReached (inv.assigned hHere hReached.2 hReached.1 hValid) hValid

theorem operate_sound {op : Operator} {a b : Value} {span : Span} (hReached : inv.Reached r s) :
    inv.Sound r s (match op.apply a b with
      | .ok value => Pure.pure value
      | .error cause => fail cause (some span)) := by
  cases hResult : op.apply a b with
  | ok value => exact .pure hReached (inv.valid_plain (Operator.apply_plain hResult))
  | error cause => exact .fail hReached

/-! ## Constructs -/

theorem conditionWith_ensures (h : inv.Sound r s (eval cfg fuel id env)) :
    Ensures (conditionWith cfg (eval cfg fuel) id env) s (inv.Reached r) fun _ _ => True := by
  refine Ensures.bind h fun v t _ hReached _ => ?_
  cases v with
  | bool b => exact .pure hReached trivial
  | _ => exact .fail hReached

/-- Operands of a node, each evaluated soundly from wherever its evaluation starts. -/
def OperandsSound (inv : Invariant cfg) (m : Moment) : Prop :=
  ∀ m', Inside cfg m m' → inv.Reached m.state m'.state →
    inv.Sound m.state m'.state (eval cfg m'.fuel m'.node m'.env)

/-- The state at each test of a loop's condition. -/
theorem turns_reached {c b : NodeId} {span : Span}
    (hOperands : inv.OperandsSound ⟨fuel + 1, id, env, r⟩) (hHolds : inv.Holds r)
    (hNode : cfg.table.node? id = some ⟨.loop c b, span⟩)
    (hTurns : Turns (eval cfg fuel) c b env r s) : inv.Reached r s := by
  induction hTurns with
  | start => exact .start hHolds
  | next hTurns hTest hBody ih =>
    have hTested := (hOperands _ (.test hNode hTurns) ih).of_ok hTest
    exact ((hOperands _ (.body hNode hTurns hTest) hTested.1).of_ok hBody).1

theorem loopWith_sound {c b : NodeId} {span : Span}
    (hOperands : inv.OperandsSound ⟨fuel + 1, id, env, r⟩) (hHolds : inv.Holds r)
    (hNode : cfg.table.node? id = some ⟨.loop c b, span⟩)
    (hTurns : Turns (eval cfg fuel) c b env r s) (n : Nat) {last : Value}
    (hLast : inv.Valid s last) :
    Ensures (loopWith (conditionWith cfg (eval cfg fuel) c env) (eval cfg fuel b env) n last) s
      (inv.Reached r) inv.Valid := by
  induction n generalizing s last with
  | zero => exact Ensures.throw (turns_reached hOperands hHolds hNode hTurns)
  | succ n ih =>
    have hReached := turns_reached hOperands hHolds hNode hTurns
    have hTest := hOperands _ (.test hNode hTurns) hReached
    refine Ensures.bind (conditionWith_ensures hTest) fun more t hMore hTested _ => ?_
    have hValue := eval_of_conditionWith hMore
    cases more with
    | false => exact .pure hTested (inv.valid_later (hTest.of_ok hValue).2.1 hLast)
    | true =>
      have hBody := hOperands _ (.body hNode hTurns hValue) hTested
      refine Ensures.bind hBody fun v u hResult _ hValid => ?_
      exact ih (hTurns.next hValue hResult) hValid.2

/-- Some arguments of a call, after others and before the rest. -/
theorem argumentsWith_ensures {f : NodeId} {args : Slice} {span : Span} {c : Closure}
    {before middle after : List NodeId} {values : List Value} {u : State}
    (hOperands : inv.OperandsSound ⟨fuel + 1, id, env, r⟩)
    (hNode : cfg.table.node? id = some ⟨.call f args, span⟩)
    (hCallee : eval cfg fuel f env r = .ok (.closure c) t)
    (hArgs : cfg.table.args? args = some (before ++ (middle ++ after)))
    (hBefore : argumentsWith (eval cfg fuel) env before t = .ok values u)
    (hReached : inv.Reached r u) :
    Ensures (argumentsWith (eval cfg fuel) env middle) u (inv.Reached r) fun w vs =>
      inv.Later u w ∧ ∀ v ∈ vs, inv.Valid w v := by
  induction middle generalizing before values u with
  | nil => exact .pure hReached ⟨inv.refl u, nofun⟩
  | cons arg middle ih =>
    have hArg := hOperands _ (.argument hNode hCallee hArgs hBefore) hReached
    refine Ensures.bind hArg fun v w hValue hReached hValid => ?_
    have hRest := ih (by rw [hArgs]; simp) (argumentsWith_snoc hBefore hValue) hReached
    refine Ensures.bind hRest fun vs w' _ hReached hValids => ?_
    refine .pure hReached ⟨inv.trans hValid.1 hValids.1, ?_⟩
    intro v' hMem
    rcases List.mem_cons.mp hMem with rfl | hMem
    · exact inv.valid_later hValids.1 hValid.2
    · exact hValids.2 v' hMem

/-- The first arguments of a call. -/
theorem firstArguments_ensures {f : NodeId} {args : Slice} {span : Span} {c : Closure}
    {first after : List NodeId} (hOperands : inv.OperandsSound ⟨fuel + 1, id, env, r⟩)
    (hNode : cfg.table.node? id = some ⟨.call f args, span⟩)
    (hCallee : eval cfg fuel f env r = .ok (.closure c) t)
    (hArgs : cfg.table.args? args = some (first ++ after)) (hReached : inv.Reached r t) :
    Ensures (argumentsWith (eval cfg fuel) env first) t (inv.Reached r) fun w vs =>
      inv.Later t w ∧ ∀ v ∈ vs, inv.Valid w v := by
  have hAll : cfg.table.args? args = some ([] ++ (first ++ after)) := hArgs
  exact argumentsWith_ensures hOperands hNode hCallee hAll rfl hReached

/-- The state in which the evaluation of a body starts. -/
theorem reached_of_enters {c : Closure} {args : List Value} {span : Span} (hHolds : inv.Holds s)
    (hClosure : inv.Valid s (.closure c)) (hArgs : ∀ v ∈ args, inv.Valid s v)
    (h : Enters cfg fuel c args span s m) : inv.Reached s m.state := by
  cases h with
  | body hDepth hParams hArity hBind =>
    obtain ⟨hBound, -⟩ := Ensures.of_ok (inv.bound hHolds hClosure hArgs hParams) hBind
    obtain ⟨hDeeper, hLater⟩ := inv.deeper hBound.1
    exact ⟨hDeeper, inv.trans hBound.2 hLater⟩

theorem applyWith_sound {c : Closure} {args : List Value} {span : Span}
    (hReached : inv.Reached r s) (hClosure : inv.Valid s (.closure c))
    (hArgs : ∀ v ∈ args, inv.Valid s v)
    (hBody : ∀ m, Enters cfg fuel c args span s m → inv.Reached s m.state →
      inv.Sound m.state m.state (eval cfg m.fuel m.node m.env)) :
    inv.Sound r s (applyWith cfg (eval cfg fuel) c args span) := by
  refine Sound.from ?_ hReached.2
  have hStart : inv.Reached s s := .start hReached.1
  unfold Sound Ensures
  rw [applyWith_eq]
  by_cases hDepth : cfg.maxDepth ≤ s.depth
  · rw [if_pos hDepth]
    exact hStart
  rw [if_neg hDepth]
  cases hParams : cfg.table.params? c.params with
  | none => exact hStart
  | some params =>
    by_cases hArity : cfg.policy = .strict ∧ args.length < params.length
    · simp only [if_pos hArity]
      exact hStart
    simp only [if_neg hArity]
    refine Ensures.bind (inv.bound hReached.1 hClosure hArgs hParams) fun _ t hBind _ _ => ?_
    have hEnters : Enters cfg fuel c args span s _ :=
      .body (Nat.lt_of_not_le hDepth) hParams hArity hBind
    have hInner := reached_of_enters hReached.1 hClosure hArgs hEnters
    have hDeeper : ∀ t d, inv.Reached s t → inv.Reached s { t with depth := d } := fun t d h =>
      ⟨(inv.deeper h.1).1, inv.trans h.2 (inv.deeper h.1).2⟩
    refine Ensures.entered hDeeper (fun v t d h hValid => ?_) ?_
    · exact ⟨(hDeeper t d h).2, inv.valid_later (inv.deeper h.1).2 hValid.2⟩
    · refine Ensures.imp ((hBody _ hEnters hInner).from hInner.2) (fun _ h => h) ?_
      exact fun _ _ _ h => ⟨inv.trans hInner.2 h.1, h.2⟩

/-! ## Runs -/

/-- What is guaranteed of all operands and bodies that a node starts is guaranteed of the node. -/
theorem nodeWith_ensures (hHere : inv.Here ⟨fuel + 1, id, env, s⟩) (hHolds : inv.Holds s)
    (hOperands : inv.OperandsSound ⟨fuel + 1, id, env, s⟩)
    (hBodies : ∀ m, inv.Here m → inv.Holds m.state → m.fuel = fuel →
      inv.Sound m.state m.state (eval cfg m.fuel m.node m.env)) :
    Ensures (eval cfg (fuel + 1) id env) s (inv.Reached s) inv.Valid := by
  have hStart : inv.Reached s s := .start hHolds
  refine Ensures.bind (Ensures.found hStart) ?_
  rintro ⟨form, span⟩ u - - ⟨hNode, hSame⟩
  subst u
  cases form with
  | int value => exact .pure hStart (inv.valid_plain fun _ => nofun)
  | bool value => exact .pure hStart (inv.valid_plain fun _ => nofun)
  | null => exact .pure hStart (inv.valid_plain fun _ => nofun)
  | ref name => exact ⟨hStart, inv.resolved hHere hHolds⟩
  | print a =>
    refine Ensures.bind (hOperands _ (.printed hNode) hStart) fun v t _ hReached hValid => ?_
    exact (print_sound hReached hValid.2).valid
  | binary op a b =>
    refine Ensures.bind (hOperands _ (.left hNode) hStart) fun v t hLeft hReached _ => ?_
    refine Ensures.bind (hOperands _ (.right hNode hLeft) hReached) fun w u _ hReached _ => ?_
    exact (operate_sound hReached).valid
  | branch c a b =>
    have hCondition := conditionWith_ensures (hOperands _ (.condition hNode) hStart)
    refine Ensures.bind hCondition fun holds t hResult hReached _ => ?_
    have hValue := eval_of_conditionWith hResult
    cases holds with
    | true => exact (hOperands _ (.consequent hNode hValue) hReached).valid
    | false =>
      cases b with
      | none => exact .pure hReached (inv.valid_plain fun _ => nofun)
      | some b => exact (hOperands _ (.alternative hNode hValue) hReached).valid
  | loop c b =>
    exact loopWith_sound hOperands hHolds hNode .start fuel (inv.valid_plain fun _ => nofun)
  | sequence a b =>
    refine Ensures.bind (hOperands _ (.first hNode) hStart) fun v t hFirst hReached _ => ?_
    exact (hOperands _ (.second hNode hFirst) hReached).valid
  | declare name a =>
    refine Ensures.bind (hOperands _ (.declared hNode) hStart) fun v t _ hReached hValid => ?_
    exact (declare_sound hHere hReached hValid.2).valid
  | assign name a =>
    refine Ensures.bind (hOperands _ (.assigned hNode) hStart) fun v t _ hReached hValid => ?_
    exact (assign_sound hHere hReached hValid.2).valid
  | function params body =>
    obtain ⟨hAfter, hLater, hClosure⟩ := inv.made hHere (.function hNode) hHolds
    exact ⟨⟨hAfter, hLater⟩, hClosure⟩
  | call f args =>
    refine Ensures.bind (hOperands _ (.callee hNode) hStart) fun v t hCallee hReached hValid => ?_
    cases v with
    | closure c =>
      refine Ensures.bind (Ensures.found hReached) ?_
      rintro ids u - - ⟨hArgs, hSame⟩
      subst u
      have hValues := firstArguments_ensures hOperands hNode hCallee
        (hArgs.trans (congrArg some (List.append_nil _).symm)) hReached
      refine Ensures.bind hValues fun values u hResult hReached hValids => ?_
      have hClosure := inv.valid_later hValids.1 hValid.2
      refine (applyWith_sound hReached hClosure hValids.2 fun m hEnters hInner => ?_).valid
      have hBody := Applies.call hNode hCallee hArgs hResult hEnters
      have hThere := inv.applies hHere hBody hReached.1 hClosure hInner.1 hInner.2
      exact hBodies m hThere hInner.1 hEnters.fuel_eq
    | _ => exact .fail hReached

/-- Wherever an evaluation ends, the invariant holds, and its value is valid if it has one. -/
theorem eval_ensures (hHere : inv.Here m) (hHolds : inv.Holds m.state) :
    inv.Sound m.state m.state (eval cfg m.fuel m.node m.env) := by
  obtain ⟨fuel, id, env, s⟩ := m
  induction fuel generalizing id env s with
  | zero => exact Ensures.throw (.start hHolds)
  | succ fuel ih =>
    have hNode : Ensures (eval cfg (fuel + 1) id env) s (inv.Reached s) inv.Valid := by
      refine nodeWith_ensures hHere hHolds ?_ ?_
      · rintro ⟨fuel', id', env', s'⟩ hInside hReached
        obtain rfl : fuel' = fuel := (Nat.succ.inj hInside.fuel_eq).symm
        have hThere := inv.inside hHere hInside hReached.2
        exact (ih id' env' s' hThere hReached.1).from hReached.2
      · rintro ⟨fuel', id', env', s'⟩ hThere hHolds' hFuel
        obtain rfl : fuel' = fuel := hFuel
        exact ih id' env' s' hThere hHolds'
    exact Ensures.imp hNode (fun _ h => h) fun _ _ h hValid => ⟨h.2, hValid⟩

/-! ## Moments -/

theorem operandsSound_of_here (hHere : inv.Here m) : inv.OperandsSound m :=
  fun _ hInside hReached =>
    (eval_ensures (inv.inside hHere hInside hReached.2) hReached.1).from hReached.2

/-- The state in which the evaluation of an operand starts. -/
theorem reached_of_inside (hHere : inv.Here m) (hHolds : inv.Holds m.state)
    (h : Inside cfg m m') : inv.Reached m.state m'.state := by
  have hStart := Reached.start hHolds
  have hOperands := operandsSound_of_here hHere
  cases h with
  | right hNode hLeft => exact ((hOperands _ (.left hNode) hStart).of_ok hLeft).1
  | consequent hNode hCondition =>
    exact ((hOperands _ (.condition hNode) hStart).of_ok hCondition).1
  | alternative hNode hCondition =>
    exact ((hOperands _ (.condition hNode) hStart).of_ok hCondition).1
  | test hNode hTurns => exact turns_reached hOperands hHolds hNode hTurns
  | body hNode hTurns hTest =>
    have hReached := turns_reached hOperands hHolds hNode hTurns
    exact ((hOperands _ (.test hNode hTurns) hReached).of_ok hTest).1
  | second hNode hFirst => exact ((hOperands _ (.first hNode) hStart).of_ok hFirst).1
  | argument hNode hCallee hArgs hBefore =>
    have hCalled := ((hOperands _ (.callee hNode) hStart).of_ok hCallee).1
    have hEnsures := firstArguments_ensures hOperands hNode hCallee hArgs hCalled
    exact (Ensures.of_ok hEnsures hBefore).1
  | _ => exact hStart

/-- The states in which a closure is applied and the evaluation of its body starts. -/
theorem reached_of_applies {c : Closure} (hHere : inv.Here m) (hHolds : inv.Holds m.state)
    (h : Applies cfg m c s m') :
    inv.Reached m.state s ∧ inv.Valid s (.closure c) ∧ inv.Reached s m'.state := by
  have hOperands := operandsSound_of_here hHere
  cases h with
  | call hNode hCallee hArgs hValues hEnters =>
    have hCalled := (hOperands _ (.callee hNode) (.start hHolds)).of_ok hCallee
    have hEnsures := firstArguments_ensures hOperands hNode hCallee
      (hArgs.trans (congrArg some (List.append_nil _).symm)) hCalled.1
    obtain ⟨hReached, hLater, hValid⟩ := Ensures.of_ok hEnsures hValues
    have hClosure := inv.valid_later hLater hCalled.2.2
    exact ⟨hReached, hClosure, reached_of_enters hReached.1 hClosure hValid hEnters⟩

/-- The invariant holds at all moments that a run visits. -/
theorem holds_of_visits (hHere : inv.Here m) (hHolds : inv.Holds m.state) (h : Visits cfg m m') :
    inv.Here m' ∧ inv.Reached m.state m'.state := by
  induction h with
  | start => exact ⟨hHere, .start hHolds⟩
  | next _ hStarts ih =>
    obtain ⟨hThere, hReached⟩ := ih
    cases hStarts with
    | inside hInside =>
      have hNext := reached_of_inside hThere hReached.1 hInside
      exact ⟨inv.inside hThere hInside hNext.2, hNext.trans hReached.2⟩
    | applies hApplies =>
      obtain ⟨hCall, hClosure, hNext⟩ := reached_of_applies hThere hReached.1 hApplies
      have hBody := inv.applies hThere hApplies hCall.1 hClosure hNext.1 hNext.2
      exact ⟨hBody, (hNext.trans hCall.2).trans hReached.2⟩

end Invariant

end FeatherScript.Eval
