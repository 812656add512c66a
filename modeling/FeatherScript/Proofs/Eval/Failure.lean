import FeatherScript.Proofs.Eval.Moment
import FeatherScript.Proofs.Scope.Rooted
import Mathlib.Data.List.Duplicate

/-!
# Where evaluations stop

An evaluation that stops has come to a node whose own step stopped it, after every evaluation that
this node started had succeeded. What stops it goes through all enclosing evaluations as it is, save
that a loop around it may run out of fuel before it comes so far.

* `Refuses`, `Raises`: how an application and the step of a node stop.
* `exists_raises`: an evaluation stops where the step of a node does.
* `Raises.innermost`: nothing that this node started has stopped.
* `stops_of_visits`: what stops an evaluation stops the ones around it.
-/

namespace FeatherScript.Eval

open Effect

/-! ## Steps that stop -/

/-- The application of a closure stops before the body of the closure is entered. -/
inductive Refuses (cfg : Setting) (c : Closure) (args : List Value) (span : Span) (s : State) :
    Stop → Prop
  | overflow (hDepth : cfg.maxDepth ≤ s.depth) :
      Refuses cfg c args span s (.failed ⟨.stackOverflow cfg.maxDepth, some span⟩)
  | absent (hDepth : s.depth < cfg.maxDepth) (hParams : cfg.table.params? c.params = none) :
      Refuses cfg c args span s (.fault .dangling)
  | arity {params} (hDepth : s.depth < cfg.maxDepth)
      (hParams : cfg.table.params? c.params = some params) (hStrict : cfg.policy = .strict)
      (hFewer : args.length < params.length) :
      Refuses cfg c args span s (.failed ⟨.arityMismatch params.length args.length, some span⟩)
  | repeated {params name t} (hDepth : s.depth < cfg.maxDepth)
      (hParams : cfg.table.params? c.params = some params)
      (hArity : ¬ (cfg.policy = .strict ∧ args.length < params.length))
      (hTwice : List.Duplicate name params)
      (hBind : bindParams s.scopes.all.size (some span) params args
        { s with scopes := (s.scopes.enclose c.scope).2 }
        = .error (.failed ⟨.alreadyDeclared name, some span⟩) t) :
      Refuses cfg c args span s (.failed ⟨.alreadyDeclared name, some span⟩)

/-- The step of a node itself stops, after those of its operands that come first have succeeded. -/
inductive Raises (cfg : Setting) : Moment → Stop → Prop
  | spent {id env s} : Raises cfg ⟨0, id, env, s⟩ (.fault .outOfFuel)
  | absent {fuel id env s} (hNode : cfg.table.node? id = none) :
      Raises cfg ⟨fuel + 1, id, env, s⟩ (.fault .dangling)
  | operator {fuel id env s span op a b v t w u cause}
      (hNode : cfg.table.node? id = some ⟨.binary op a b, span⟩)
      (hLeft : eval cfg fuel a env s = .ok v t) (hRight : eval cfg fuel b env t = .ok w u)
      (hApply : op.apply v w = .error cause) :
      Raises cfg ⟨fuel + 1, id, env, s⟩ (.failed ⟨cause, some span⟩)
  | branch {fuel id env s span c a b v t}
      (hNode : cfg.table.node? id = some ⟨.branch c a b, span⟩)
      (hCondition : eval cfg fuel c env s = .ok v t) (hOther : ∀ truth, v ≠ .bool truth) :
      Raises cfg ⟨fuel + 1, id, env, s⟩
        (.failed ⟨.conditionNotBoolean v.type, some (cfg.table.spanOf c)⟩)
  | loop {fuel id env s span c b t v u} (hNode : cfg.table.node? id = some ⟨.loop c b, span⟩)
      (hTurns : Turns (eval cfg fuel) c b env s t) (hCondition : eval cfg fuel c env t = .ok v u)
      (hOther : ∀ truth, v ≠ .bool truth) :
      Raises cfg ⟨fuel + 1, id, env, s⟩
        (.failed ⟨.conditionNotBoolean v.type, some (cfg.table.spanOf c)⟩)
  | exhausted {fuel id env s span c b t}
      (hNode : cfg.table.node? id = some ⟨.loop c b, span⟩)
      (hTurns : Turns (eval cfg fuel) c b env s t) :
      Raises cfg ⟨fuel + 1, id, env, s⟩ (.fault .outOfFuel)
  | declared {fuel id env s span name a v t}
      (hNode : cfg.table.node? id = some ⟨.declare name a, span⟩)
      (hValue : eval cfg fuel a env s = .ok v t) (hBinds : t.scopes.binds env name = true) :
      Raises cfg ⟨fuel + 1, id, env, s⟩ (.failed ⟨.alreadyDeclared name, some span⟩)
  | callee {fuel id env s span f args v t}
      (hNode : cfg.table.node? id = some ⟨.call f args, span⟩)
      (hCallee : eval cfg fuel f env s = .ok v t) (hOther : ∀ c, v ≠ .closure c) :
      Raises cfg ⟨fuel + 1, id, env, s⟩
        (.failed ⟨.notCallable v.type, some (cfg.table.spanOf f)⟩)
  | arguments {fuel id env s span f args c t}
      (hNode : cfg.table.node? id = some ⟨.call f args, span⟩)
      (hCallee : eval cfg fuel f env s = .ok (.closure c) t)
      (hArgs : cfg.table.args? args = none) :
      Raises cfg ⟨fuel + 1, id, env, s⟩ (.fault .dangling)
  | refused {fuel id env s span f args c t ids values u stop}
      (hNode : cfg.table.node? id = some ⟨.call f args, span⟩)
      (hCallee : eval cfg fuel f env s = .ok (.closure c) t)
      (hArgs : cfg.table.args? args = some ids)
      (hValues : argumentsWith (eval cfg fuel) env ids t = .ok values u)
      (hRefuses : Refuses cfg c values span u stop) :
      Raises cfg ⟨fuel + 1, id, env, s⟩ stop

/-! ## Stops of constructs -/

variable {cfg : Setting} {fuel : Nat} {id : NodeId} {env : ScopeId} {s t u : State} {stop : Stop}
  {ev : Evaluator}

theorem exists_of_bind_error {α β : Type} {x : Effect α} {f : α → Effect β}
    (h : (x >>= f) s = .error stop t) :
    x s = .error stop t ∨ ∃ a u, x s = .ok a u ∧ f a u = .error stop t := by
  change EStateM.bind x f s = .error stop t at h
  unfold EStateM.bind at h
  split at h
  · next a u hFirst => exact .inr ⟨a, u, hFirst, h⟩
  · next stop' u hFirst =>
    cases h
    exact .inl hFirst

theorem found_of_some {α : Type} {target : Option α} {a : α} (h : target = some a) :
    found target s = .ok a s := by
  rw [h]
  rfl

theorem found_eq_error {α : Type} {target : Option α} (h : found target s = .error stop t) :
    target = none ∧ stop = .fault .dangling := by
  cases target with
  | none =>
    cases h
    exact ⟨rfl, rfl⟩
  | some a => cases h

/-- A condition stops if its node does, or if its node has another value than a truth value. -/
theorem conditionWith_error (h : conditionWith cfg ev id env s = .error stop t) :
    ev id env s = .error stop t ∨ ∃ v, ev id env s = .ok v t ∧ (∀ truth, v ≠ .bool truth) ∧
      stop = .failed ⟨.conditionNotBoolean v.type, some (cfg.table.spanOf id)⟩ := by
  rcases exists_of_bind_error h with hStop | ⟨v, u, hValue, h⟩
  · exact .inl hStop
  · cases v with
    | bool truth => cases h
    | _ =>
      cases h
      exact .inr ⟨_, hValue, nofun, rfl⟩

/-- The first arguments succeed, and the next one stops. -/
theorem argumentsWith_error {ids : List NodeId}
    (h : argumentsWith ev env ids s = .error stop t) :
    ∃ before arg after values u, ids = before ++ arg :: after ∧
      argumentsWith ev env before s = .ok values u ∧ ev arg env u = .error stop t := by
  induction ids generalizing s with
  | nil => cases h
  | cons arg ids ih =>
    rcases exists_of_bind_error h with hStop | ⟨value, u, hValue, h⟩
    · exact ⟨[], arg, ids, [], s, rfl, rfl, hStop⟩
    · rcases exists_of_bind_error h with hStop | ⟨values, w, _, h⟩
      · obtain ⟨before, arg', after, values, w, rfl, hBefore, hArg⟩ := ih hStop
        refine ⟨arg :: before, arg', after, value :: values, w, rfl, ?_, hArg⟩
        exact (bind_of_ok hValue).trans (bind_of_ok hBefore)
      · cases h

/-- Binding parameters stops only for one that was bound before, or that stands twice. -/
theorem bindParams_error {span : Option Span} {names : List Name} {args : List Value}
    (hEnv : env < s.scopes.all.size) (h : bindParams env span names args s = .error stop t) :
    ∃ name ∈ names, stop = .failed ⟨.alreadyDeclared name, span⟩ ∧
      (s.scopes.binds env name = true ∨ List.Duplicate name names) := by
  induction names generalizing args s with
  | nil => cases h
  | cons first names ih =>
    rcases exists_of_bind_error h with hStop | ⟨_, u, hFirst, h⟩
    · rw [declare_eq] at hStop
      split at hStop
      · next hBinds =>
        cases hStop
        exact ⟨first, List.mem_cons_self, rfl, .inl hBinds⟩
      · cases hStop
    · rw [declare_eq] at hFirst
      split at hFirst
      · cases hFirst
      · cases hFirst
        obtain ⟨name, hMem, hStop, hTwice⟩ := ih (Scopes.size_write.symm ▸ hEnv) h
        refine ⟨name, List.mem_cons_of_mem _ hMem, hStop, ?_⟩
        rcases hTwice with hBinds | hTwice
        · rcases (Scopes.binds_write_iff hEnv).mp hBinds with hBinds | ⟨-, rfl⟩
          · exact .inl hBinds
          · exact .inr (.cons_mem hMem)
        · exact .inr (.cons_duplicate hTwice)

/-- In a scope of their own, the parameters of a closure stop only for one that stands twice. -/
theorem bindParams_error_of_enclosed {c : Closure} {span : Span} {names : List Name}
    {args : List Value}
    (h : bindParams s.scopes.all.size (some span) names args
      { s with scopes := (s.scopes.enclose c.scope).2 } = .error stop t) :
    ∃ name, stop = .failed ⟨.alreadyDeclared name, some span⟩ ∧ List.Duplicate name names := by
  obtain ⟨name, -, hStop, hTwice⟩ := bindParams_error (Scopes.lt_size_enclose _ _) h
  refine ⟨name, hStop, hTwice.resolve_left fun hBinds => ?_⟩
  exact Nat.lt_irrefl _ (Scopes.lt_size_of_binds (Scopes.binds_enclose ▸ hBinds))

theorem entered_error {α : Type} {x : Effect α} (h : entered x s = .error stop t) :
    ∃ u, x { s with depth := s.depth + 1 } = .error stop u := by
  unfold entered at h
  split at h
  · cases h
  · next stop' u hStop =>
    cases h
    exact ⟨u, hStop⟩

theorem entered_of_error {α : Type} {x : Effect α}
    (h : x { s with depth := s.depth + 1 } = .error stop u) :
    ∃ t, entered x s = .error stop t := by
  unfold entered
  rw [h]
  exact ⟨_, rfl⟩

/-- An application stops before it enters the body, or in the body. -/
theorem applyWith_error {c : Closure} {args : List Value} {span : Span}
    (h : applyWith cfg (eval cfg fuel) c args span s = .error stop t) :
    Refuses cfg c args span s stop ∨
      ∃ m u, Enters cfg fuel c args span s m ∧ m.outcome cfg = .error stop u := by
  rw [applyWith_eq] at h
  by_cases hDepth : cfg.maxDepth ≤ s.depth
  · rw [if_pos hDepth] at h
    cases h
    exact .inl (.overflow hDepth)
  rw [if_neg hDepth] at h
  have hDepth := Nat.lt_of_not_le hDepth
  cases hParams : cfg.table.params? c.params with
  | none =>
    rw [hParams] at h
    cases h
    exact .inl (.absent hDepth hParams)
  | some params =>
    simp only [hParams] at h
    by_cases hArity : cfg.policy = .strict ∧ args.length < params.length
    · rw [if_pos hArity] at h
      cases h
      exact .inl (.arity hDepth hParams hArity.1 hArity.2)
    rw [if_neg hArity] at h
    rcases exists_of_bind_error h with hBind | ⟨_, u, hBind, h⟩
    · obtain ⟨name, rfl, hTwice⟩ := bindParams_error_of_enclosed hBind
      exact .inl (.repeated hDepth hParams hArity hTwice hBind)
    · obtain ⟨w, hBody⟩ := entered_error h
      exact .inr ⟨_, w, .body hDepth hParams hArity hBind, hBody⟩

/-- A loop stops in a test or in a run of its body, or when its fuel is spent. -/
theorem loopWith_error {c b : NodeId} {n : Nat} {last : Value}
    (hTurns : Turns (eval cfg fuel) c b env s t)
    (h : loopWith (conditionWith cfg (eval cfg fuel) c env) (eval cfg fuel b env) n last t
      = .error stop u) :
    (∃ t', Turns (eval cfg fuel) c b env s t' ∧
      conditionWith cfg (eval cfg fuel) c env t' = .error stop u) ∨
    (∃ t' u', Turns (eval cfg fuel) c b env s t' ∧ eval cfg fuel c env t' = .ok (.bool true) u' ∧
      eval cfg fuel b env u' = .error stop u) ∨
    ∃ t', Turns (eval cfg fuel) c b env s t' ∧ stop = .fault .outOfFuel := by
  induction n generalizing t last with
  | zero =>
    cases h
    exact .inr (.inr ⟨_, hTurns, rfl⟩)
  | succ n ih =>
    rcases exists_of_bind_error h with hTest | ⟨more, u', hTest, h⟩
    · exact .inl ⟨t, hTurns, hTest⟩
    · cases more with
      | false => cases h
      | true =>
        have hTrue := eval_of_conditionWith hTest
        rcases exists_of_bind_error h with hBody | ⟨value, w, hBody, h⟩
        · exact .inr (.inl ⟨t, u', hTurns, hTrue, hBody⟩)
        · exact ih (hTurns.next hTrue hBody) h

/-! ## Where an evaluation stops -/

/-- Some evaluation that a moment starts has stopped. -/
def StopsInside (cfg : Setting) (m : Moment) (stop : Stop) : Prop :=
  ∃ m' u, Starts cfg m m' ∧ m'.fuel + 1 = m.fuel ∧ m'.outcome cfg = .error stop u

/-- An evaluation stops by the step of its node, or because one that it started has stopped. -/
theorem stops_cases (h : eval cfg (fuel + 1) id env s = .error stop t) :
    Raises cfg ⟨fuel + 1, id, env, s⟩ stop ∨ StopsInside cfg ⟨fuel + 1, id, env, s⟩ stop := by
  have hInside : ∀ {child t u}, Inside cfg ⟨fuel + 1, id, env, s⟩ ⟨fuel, child, env, t⟩ →
      eval cfg fuel child env t = .error stop u →
      StopsInside cfg ⟨fuel + 1, id, env, s⟩ stop :=
    fun hStarts hStop => ⟨_, _, .inside hStarts, rfl, hStop⟩
  rcases exists_of_bind_error h with hStop | ⟨⟨form, span⟩, s', hFound, h⟩
  · obtain ⟨hNode, rfl⟩ := found_eq_error hStop
    exact .inl (.absent hNode)
  obtain ⟨hNode, rfl⟩ := found_eq_ok hFound
  cases form with
  | int | bool | null | ref | function => cases h
  | print a =>
    rcases exists_of_bind_error h with hStop | ⟨v, u, _, h⟩
    · exact .inr (hInside (.printed hNode) hStop)
    · cases h
  | binary op a b =>
    rcases exists_of_bind_error h with hStop | ⟨v, u, hLeft, h⟩
    · exact .inr (hInside (.left hNode) hStop)
    rcases exists_of_bind_error h with hStop | ⟨w, u', hRight, h⟩
    · exact .inr (hInside (.right hNode hLeft) hStop)
    cases hApply : op.apply v w with
    | ok value =>
      simp only [hApply] at h
      cases h
    | error cause =>
      simp only [hApply] at h
      cases h
      exact .inl (.operator hNode hLeft hRight hApply)
  | branch c a b =>
    rcases exists_of_bind_error h with hStop | ⟨holds, u, hTest, h⟩
    · rcases conditionWith_error hStop with hStop | ⟨v, hCondition, hOther, rfl⟩
      · exact .inr (hInside (.condition hNode) hStop)
      · exact .inl (.branch hNode hCondition hOther)
    have hCondition := eval_of_conditionWith hTest
    cases holds with
    | true => exact .inr (hInside (.consequent hNode hCondition) h)
    | false =>
      cases b with
      | none => cases h
      | some b => exact .inr (hInside (.alternative hNode hCondition) h)
  | loop c b =>
    rcases loopWith_error .start h with
      ⟨t', hTurns, hStop⟩ | ⟨t', u', hTurns, hTrue, hStop⟩ | ⟨t', hTurns, rfl⟩
    · rcases conditionWith_error hStop with hStop | ⟨v, hCondition, hOther, rfl⟩
      · exact .inr (hInside (.test hNode hTurns) hStop)
      · exact .inl (.loop hNode hTurns hCondition hOther)
    · exact .inr (hInside (.body hNode hTurns hTrue) hStop)
    · exact .inl (.exhausted hNode hTurns)
  | sequence a b =>
    rcases exists_of_bind_error h with hStop | ⟨v, u, hFirst, h⟩
    · exact .inr (hInside (.first hNode) hStop)
    · exact .inr (hInside (.second hNode hFirst) h)
  | declare name a =>
    rcases exists_of_bind_error h with hStop | ⟨v, u, hValue, h⟩
    · exact .inr (hInside (.declared hNode) hStop)
    rcases exists_of_bind_error h with hStop | ⟨_, _, _, h⟩
    · rw [declare_eq] at hStop
      split at hStop
      · next hBinds =>
        cases hStop
        exact .inl (.declared hNode hValue hBinds)
      · cases hStop
    · cases h
  | assign name a =>
    rcases exists_of_bind_error h with hStop | ⟨v, u, _, h⟩
    · exact .inr (hInside (.assigned hNode) hStop)
    rcases exists_of_bind_error h with hStop | ⟨_, _, _, h⟩
    · rw [assign_eq] at hStop
      cases hStop
    · cases h
  | call f args =>
    rcases exists_of_bind_error h with hStop | ⟨v, u, hCallee, h⟩
    · exact .inr (hInside (.callee hNode) hStop)
    cases v with
    | closure c =>
      rcases exists_of_bind_error h with hStop | ⟨ids, u', hFoundArgs, h⟩
      · obtain ⟨hArgs, rfl⟩ := found_eq_error hStop
        exact .inl (.arguments hNode hCallee hArgs)
      obtain ⟨hArgs, rfl⟩ := found_eq_ok hFoundArgs
      rcases exists_of_bind_error h with hStop | ⟨values, w, hValues, h⟩
      · obtain ⟨before, arg, after, values, w, rfl, hBefore, hStop⟩ := argumentsWith_error hStop
        exact .inr (hInside (.argument hNode hCallee hArgs hBefore) hStop)
      rcases applyWith_error h with hRefuses | ⟨m, u', hEnters, hStop⟩
      · exact .inl (.refused hNode hCallee hArgs hValues hRefuses)
      · exact .inr ⟨m, u', .applies (.call hNode hCallee hArgs hValues hEnters),
          congrArg (· + 1) hEnters.fuel_eq, hStop⟩
    | _ =>
      cases h
      exact .inl (.callee hNode hCallee nofun)

theorem Visits.trans {m m' m'' : Moment} (h : Visits cfg m m') (h' : Visits cfg m' m'') :
    Visits cfg m m'' := by
  induction h' with
  | start => exact h
  | next _ hStarts ih => exact ih.next hStarts

/-- An evaluation that stops has come to a moment whose own step stopped it. -/
theorem exists_raises {m : Moment} (h : m.outcome cfg = .error stop t) :
    ∃ m' u, Visits cfg m m' ∧ m'.outcome cfg = .error stop u ∧ Raises cfg m' stop := by
  -- What an evaluation starts has less fuel, so one of them is the last that has stopped.
  induction hFuel : m.fuel generalizing m t with
  | zero =>
    obtain ⟨fuel, id, env, s⟩ := m
    obtain rfl : fuel = 0 := hFuel
    have hOutcome := h
    cases h
    exact ⟨_, _, .start, hOutcome, .spent⟩
  | succ n ih =>
    obtain ⟨fuel, id, env, s⟩ := m
    obtain rfl : fuel = n + 1 := hFuel
    rcases stops_cases h with hRaises | ⟨m', u, hStarts, hLess, hStop⟩
    · exact ⟨_, t, .start, h, hRaises⟩
    · obtain ⟨m'', w, hVisits, hOutcome, hRaises⟩ := ih hStop (Nat.succ.inj hLess)
      exact ⟨m'', w, (Visits.start.next hStarts).trans hVisits, hOutcome, hRaises⟩

/-! ## Nothing inside has stopped -/

/-- From one test of its condition, a loop comes to no other one or runs its body first. -/
theorem Turns.head_cases {c b : NodeId} (h : Turns ev c b env s t) :
    t = s ∨ ∃ u value v, ev c env s = .ok (.bool true) u ∧ ev b env u = .ok value v ∧
      Turns ev c b env v t := by
  induction h with
  | start => exact .inl rfl
  | next hTurns hTest hBody ih =>
    rcases ih with rfl | ⟨u, value, v, hFirst, hRun, hRest⟩
    · exact .inr ⟨_, _, _, hTest, hBody, .start⟩
    · exact .inr ⟨u, value, v, hFirst, hRun, hRest.next hTest hBody⟩

/-- Of two tests that a loop comes to, one is on the way to the other. -/
theorem Turns.linear {c b : NodeId} {t' : State} (h : Turns ev c b env s t)
    (h' : Turns ev c b env s t') : Turns ev c b env t t' ∨ Turns ev c b env t' t := by
  induction h' with
  | start => exact .inr h
  | next hTurns hTest hBody ih =>
    rcases ih with hBefore | hAfter
    · exact .inl (hBefore.next hTest hBody)
    · rcases hAfter.head_cases with rfl | ⟨u, value, v, hFirst, hRun, hRest⟩
      · exact .inl (Turns.start.next hTest hBody)
      · cases hTest.symm.trans hFirst
        cases hBody.symm.trans hRun
        exact .inr hRest

/-- When a loop has come to a test that is not true, all earlier tests and runs have succeeded. -/
theorem Turns.succeeds {c b : NodeId} {t' : State} {v : Value} (h : Turns ev c b env s t)
    (hLast : ev c env t = .ok v u) (hOther : v ≠ .bool true) (h' : Turns ev c b env s t') :
    ∃ w u', ev c env t' = .ok w u' ∧ (w = .bool true → ∃ value v', ev b env u' = .ok value v') := by
  have hSame : t' = t → ∃ w u', ev c env t' = .ok w u' ∧
      (w = .bool true → ∃ value v', ev b env u' = .ok value v') := by
    rintro rfl
    exact ⟨v, u, hLast, fun hTrue => absurd hTrue hOther⟩
  rcases h.linear h' with hAfter | hBefore
  · rcases hAfter.head_cases with hEq | ⟨_, _, _, hTest, _, _⟩
    · exact hSame hEq
    · cases hLast.symm.trans hTest
      exact absurd rfl hOther
  · rcases hBefore.head_cases with hEq | ⟨u', value, v', hTest, hBody, _⟩
    · exact hSame hEq.symm
    · exact ⟨_, u', hTest, fun _ => ⟨value, v', hBody⟩⟩

/-- An application that is refused does not enter the body. -/
theorem Refuses.not_enters {c : Closure} {args : List Value} {span : Span} {m : Moment}
    (h : Refuses cfg c args span s stop) : ¬ Enters cfg fuel c args span s m := by
  rintro ⟨hDepth, hParams, hArity, hBind⟩
  cases h with
  | overflow hLimit => exact absurd hDepth (Nat.not_lt.mpr hLimit)
  | absent _ hNone => cases hParams.symm.trans hNone
  | arity _ hSome hStrict hFewer =>
    cases hParams.symm.trans hSome
    exact hArity ⟨hStrict, hFewer⟩
  | repeated _ hSome _ _ hStop =>
    cases hParams.symm.trans hSome
    cases hBind.symm.trans hStop

/-- The arguments before one that is evaluated have succeeded, and so has that one if all have. -/
theorem argument_succeeds {before after : List NodeId} {arg : NodeId} {values all : List Value}
    (hBefore : argumentsWith ev env before s = .ok values t)
    (hAll : argumentsWith ev env (before ++ arg :: after) s = .ok all u) :
    ∃ v w, ev arg env t = .ok v w := by
  rw [argumentsWith_append, bind_of_ok hBefore] at hAll
  obtain ⟨more, w, hMore, -⟩ := exists_of_bind_ok hAll
  obtain ⟨v, w', hArg, -⟩ := exists_of_bind_ok hMore
  exact ⟨v, w', hArg⟩

/-- Only calls apply closures. -/
theorem Starts.inside_of_not_call {m m' : Moment} {n : Node} (hStarts : Starts cfg m m')
    (hNode : cfg.table.node? m.node = some n) (hForm : ∀ f args, n.form ≠ .call f args) :
    Inside cfg m m' := by
  rcases hStarts with hInside | hApplies
  · exact hInside
  · cases hApplies with
    | call hCall =>
      cases hNode.symm.trans hCall
      exact absurd rfl (hForm _ _)

/-- When the step of a node fails, every evaluation that it started has succeeded. -/
theorem Raises.innermost {m m' : Moment} {e : EvalError} (h : Raises cfg m (.failed e))
    (hStarts : Starts cfg m m') : ∃ v u, m'.outcome cfg = .ok v u := by
  generalize hStop : Stop.failed e = stop at h
  cases h with
  | spent | absent | exhausted | arguments => cases hStop
  -- Each construct starts its own operands only; a node of another construct is no match for it.
  | operator hNode hLeft hRight hApply =>
    cases hStarts.inside_of_not_call hNode nofun with
    | left hNode' =>
      cases hNode.symm.trans hNode'
      exact ⟨_, _, hLeft⟩
    | right hNode' hLeft' =>
      cases hNode.symm.trans hNode'
      cases hLeft.symm.trans hLeft'
      exact ⟨_, _, hRight⟩
    | _ => simp_all
  | branch hNode hCondition hOther =>
    cases hStarts.inside_of_not_call hNode nofun with
    | condition hNode' =>
      cases hNode.symm.trans hNode'
      exact ⟨_, _, hCondition⟩
    | consequent hNode' hTest | alternative hNode' hTest =>
      cases hNode.symm.trans hNode'
      cases hCondition.symm.trans hTest
      exact absurd rfl (hOther _)
    | _ => simp_all
  | loop hNode hTurns hCondition hOther =>
    cases hStarts.inside_of_not_call hNode nofun with
    | test hNode' hTurns' =>
      cases hNode.symm.trans hNode'
      obtain ⟨w, u', hTest, -⟩ := hTurns.succeeds hCondition (hOther true) hTurns'
      exact ⟨w, u', hTest⟩
    | body hNode' hTurns' hTrue =>
      cases hNode.symm.trans hNode'
      obtain ⟨w, u', hTest, hBody⟩ := hTurns.succeeds hCondition (hOther true) hTurns'
      cases hTrue.symm.trans hTest
      exact hBody rfl
    | _ => simp_all
  | declared hNode hValue hBinds =>
    cases hStarts.inside_of_not_call hNode nofun with
    | declared hNode' =>
      cases hNode.symm.trans hNode'
      exact ⟨_, _, hValue⟩
    | _ => simp_all
  | callee hNode hCallee hOther =>
    rcases hStarts with hInside | ⟨hNode', hCallee'⟩
    · cases hInside with
      | callee hNode' =>
        cases hNode.symm.trans hNode'
        exact ⟨_, _, hCallee⟩
      | argument hNode' hCallee' =>
        cases hNode.symm.trans hNode'
        cases hCallee.symm.trans hCallee'
        exact absurd rfl (hOther _)
      | _ => simp_all
    · cases hNode.symm.trans hNode'
      cases hCallee.symm.trans hCallee'
      exact absurd rfl (hOther _)
  | refused hNode hCallee hArgs hValues hRefuses =>
    rcases hStarts with hInside | ⟨hNode', hCallee', hArgs', hValues', hEnters⟩
    · cases hInside with
      | callee hNode' =>
        cases hNode.symm.trans hNode'
        exact ⟨_, _, hCallee⟩
      | argument hNode' hCallee' hArgs' hBefore =>
        cases hNode.symm.trans hNode'
        cases hCallee.symm.trans hCallee'
        cases hArgs.symm.trans hArgs'
        exact argument_succeeds hBefore hValues
      | _ => simp_all
    · cases hNode.symm.trans hNode'
      cases hCallee.symm.trans hCallee'
      cases hArgs.symm.trans hArgs'
      cases hValues.symm.trans hValues'
      exact absurd hEnters hRefuses.not_enters

/-! ## What stops an evaluation stops those around it -/

/-- An effect stops for the given reason, or because its fuel is spent. -/
def StopsBy {α : Type} (x : Effect α) (s : State) (stop : Stop) : Prop :=
  ∃ t, x s = .error stop t ∨ x s = .error (.fault .outOfFuel) t

theorem stopsBy_bind {α β : Type} {x : Effect α} (h : StopsBy x s stop) (f : α → Effect β) :
    StopsBy (x >>= f) s stop := by
  obtain ⟨t, hStop | hSpent⟩ := h
  · exact ⟨t, .inl (bind_of_error hStop f)⟩
  · exact ⟨t, .inr (bind_of_error hSpent f)⟩

theorem stopsBy_after {α β : Type} {x : Effect α} {f : α → Effect β} {a : α}
    (hFirst : x s = .ok a t) (h : StopsBy (f a) t stop) : StopsBy (x >>= f) s stop := by
  unfold StopsBy
  rw [bind_of_ok hFirst]
  exact h

theorem conditionWith_of_bool {truth : Bool} (h : ev id env s = .ok (.bool truth) t) :
    conditionWith cfg ev id env s = .ok truth t :=
  bind_of_ok h

theorem argumentsWith_stopsBy {before after : List NodeId} {arg : NodeId} {values : List Value}
    (hBefore : argumentsWith ev env before s = .ok values t) (h : StopsBy (ev arg env) t stop) :
    StopsBy (argumentsWith ev env (before ++ arg :: after)) s stop := by
  rw [argumentsWith_append]
  exact stopsBy_after hBefore (stopsBy_bind (stopsBy_bind h _) _)

theorem applyWith_stopsBy {c : Closure} {args : List Value} {span : Span} {m : Moment}
    (hEnters : Enters cfg fuel c args span s m) (h : m.outcome cfg = .error stop u) :
    StopsBy (applyWith cfg (eval cfg fuel) c args span) s stop := by
  cases hEnters with
  | body hDepth hParams hArity hBind =>
    obtain ⟨t, hStop⟩ := entered_of_error h
    refine ⟨t, .inl ?_⟩
    rw [applyWith_eq, if_neg (Nat.not_le_of_lt hDepth)]
    simp only [hParams, if_neg hArity]
    rw [bind_of_ok hBind]
    exact hStop

/-- A loop comes to each of its tests, if its fuel is not spent before. -/
theorem loopWith_of_turns {c b : NodeId} (hTurns : Turns ev c b env s t) (n : Nat) (last : Value) :
    (∃ k v, loopWith (conditionWith cfg ev c env) (ev b env) n last s
      = loopWith (conditionWith cfg ev c env) (ev b env) (k + 1) v t) ∨
    ∃ u, loopWith (conditionWith cfg ev c env) (ev b env) n last s
      = .error (.fault .outOfFuel) u := by
  induction hTurns with
  | start =>
    cases n with
    | zero => exact .inr ⟨s, rfl⟩
    | succ n => exact .inl ⟨n, last, rfl⟩
  | @next t u v value _ hTest hBody ih =>
    rcases ih with ⟨k, w, hRest⟩ | hSpent
    · have hStep : loopWith (conditionWith cfg ev c env) (ev b env) (k + 1) w t
          = loopWith (conditionWith cfg ev c env) (ev b env) k value v :=
        (bind_of_ok (conditionWith_of_bool hTest)).trans (bind_of_ok hBody)
      cases k with
      | zero => exact .inr ⟨v, hRest.trans hStep⟩
      | succ k => exact .inl ⟨k, value, hRest.trans hStep⟩
    · exact .inr hSpent

/-- A loop whose fuel is not spent stops for what stops it after one of its tests is reached. -/
theorem loopWith_stopsBy {c b : NodeId} (hTurns : Turns ev c b env s t)
    (h : ∀ k v, StopsBy (loopWith (conditionWith cfg ev c env) (ev b env) (k + 1) v) t stop)
    (n : Nat) (last : Value) :
    StopsBy (loopWith (conditionWith cfg ev c env) (ev b env) n last) s stop := by
  rcases loopWith_of_turns hTurns n last with ⟨k, v, hRest⟩ | ⟨u, hSpent⟩
  · unfold StopsBy
    rw [hRest]
    exact h k v
  · exact ⟨u, .inr hSpent⟩

/-- What stops an evaluation stops the one that started it. -/
theorem stops_of_starts {m m' : Moment} (hStarts : Starts cfg m m')
    (h : m'.outcome cfg = .error stop u) : StopsBy (eval cfg m.fuel m.node m.env) m.state stop := by
  have hStop : StopsBy (eval cfg m'.fuel m'.node m'.env) m'.state stop := ⟨u, .inl h⟩
  cases hStarts with
  | inside hInside =>
    cases hInside with
    | printed hNode | left hNode | first hNode | declared hNode | assigned hNode | callee hNode =>
      exact stopsBy_after (found_of_some hNode) (stopsBy_bind hStop _)
    | right hNode hLeft =>
      refine stopsBy_after (found_of_some hNode) (stopsBy_after hLeft ?_)
      exact stopsBy_bind hStop _
    | condition hNode =>
      exact stopsBy_after (found_of_some hNode) (stopsBy_bind (stopsBy_bind hStop _) _)
    | consequent hNode hCondition | alternative hNode hCondition =>
      exact stopsBy_after (found_of_some hNode)
        (stopsBy_after (conditionWith_of_bool hCondition) hStop)
    | test hNode hTurns =>
      refine stopsBy_after (found_of_some hNode) (loopWith_stopsBy hTurns (fun k v => ?_) _ _)
      exact stopsBy_bind (stopsBy_bind hStop _) _
    | body hNode hTurns hTest =>
      refine stopsBy_after (found_of_some hNode) (loopWith_stopsBy hTurns (fun k v => ?_) _ _)
      exact stopsBy_after (conditionWith_of_bool hTest) (stopsBy_bind hStop _)
    | second hNode hFirst =>
      exact stopsBy_after (found_of_some hNode) (stopsBy_after hFirst hStop)
    | argument hNode hCallee hArgs hBefore =>
      refine stopsBy_after (found_of_some hNode) (stopsBy_after hCallee ?_)
      refine stopsBy_after (found_of_some hArgs) ?_
      exact stopsBy_bind (argumentsWith_stopsBy hBefore hStop) _
  | applies hApplies =>
    cases hApplies with
    | call hNode hCallee hArgs hValues hEnters =>
      refine stopsBy_after (found_of_some hNode) (stopsBy_after hCallee ?_)
      refine stopsBy_after (found_of_some hArgs) (stopsBy_after hValues ?_)
      exact applyWith_stopsBy hEnters h

/-- What stops one evaluation of a run stops the run. -/
theorem stops_of_visits {m m' : Moment} (hVisits : Visits cfg m m')
    (h : m'.outcome cfg = .error stop u) : StopsBy (eval cfg m.fuel m.node m.env) m.state stop := by
  induction hVisits generalizing stop u with
  | start => exact ⟨u, .inl h⟩
  | next _ hStarts ih =>
    obtain ⟨t, hStop | hSpent⟩ := stops_of_starts hStarts h
    · exact ih hStop
    -- A loop on the way has no fuel left, which stops all that is around it.
    · obtain ⟨t', hSpent | hSpent⟩ := ih hSpent
      · exact ⟨t', .inr hSpent⟩
      · exact ⟨t', .inr hSpent⟩

end FeatherScript.Eval
