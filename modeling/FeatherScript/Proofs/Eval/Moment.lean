import FeatherScript.Eval.Step

/-!
# Moments of a run

A moment is the start of the evaluation of one node, in a scope and from a state. The evaluation of
a node starts others: those of its operands in the same scope, each after the earlier ones have
succeeded, and that of the body of a closure in a scope of its own. A run visits all moments that
are started, directly or not, by the first.

* `Inside`, `Applies`: what one evaluation starts, one rule for each place.
* `Makes`: the moments at which closures are made.
* `Visits`: what a run comes to.
* `nodeWith_congr`: nothing is missing, since an evaluation depends on no other moments.
-/

namespace FeatherScript.Eval

open Effect

/-- The start of the evaluation of a node. -/
structure Moment where
  fuel : Nat
  node : NodeId
  env : ScopeId
  state : State

/-- The evaluation of a node from its start. -/
abbrev Moment.outcome (cfg : Setting) (m : Moment) : EStateM.Result Stop State Value :=
  eval cfg m.fuel m.node m.env m.state

/-- Runs of a loop, from its start to a test of its condition. -/
inductive Turns (ev : Evaluator) (condition body : NodeId) (env : ScopeId) (s : State) :
    State → Prop
  | start : Turns ev condition body env s s
  | next {t u v value} (hTurns : Turns ev condition body env s t)
      (hTest : ev condition env t = .ok (.bool true) u) (hBody : ev body env u = .ok value v) :
      Turns ev condition body env s v

/-- The evaluation of a node starts that of an operand in the same scope. -/
inductive Inside (cfg : Setting) : Moment → Moment → Prop
  | printed {fuel id env s span a} (hNode : cfg.table.node? id = some ⟨.print a, span⟩) :
      Inside cfg ⟨fuel + 1, id, env, s⟩ ⟨fuel, a, env, s⟩
  | left {fuel id env s span op a b}
      (hNode : cfg.table.node? id = some ⟨.binary op a b, span⟩) :
      Inside cfg ⟨fuel + 1, id, env, s⟩ ⟨fuel, a, env, s⟩
  | right {fuel id env s span op a b value t}
      (hNode : cfg.table.node? id = some ⟨.binary op a b, span⟩)
      (hLeft : eval cfg fuel a env s = .ok value t) :
      Inside cfg ⟨fuel + 1, id, env, s⟩ ⟨fuel, b, env, t⟩
  | condition {fuel id env s span c a b}
      (hNode : cfg.table.node? id = some ⟨.branch c a b, span⟩) :
      Inside cfg ⟨fuel + 1, id, env, s⟩ ⟨fuel, c, env, s⟩
  | consequent {fuel id env s span c a b t}
      (hNode : cfg.table.node? id = some ⟨.branch c a b, span⟩)
      (hCondition : eval cfg fuel c env s = .ok (.bool true) t) :
      Inside cfg ⟨fuel + 1, id, env, s⟩ ⟨fuel, a, env, t⟩
  | alternative {fuel id env s span c a b t}
      (hNode : cfg.table.node? id = some ⟨.branch c a (some b), span⟩)
      (hCondition : eval cfg fuel c env s = .ok (.bool false) t) :
      Inside cfg ⟨fuel + 1, id, env, s⟩ ⟨fuel, b, env, t⟩
  | test {fuel id env s span c b t} (hNode : cfg.table.node? id = some ⟨.loop c b, span⟩)
      (hTurns : Turns (eval cfg fuel) c b env s t) :
      Inside cfg ⟨fuel + 1, id, env, s⟩ ⟨fuel, c, env, t⟩
  | body {fuel id env s span c b t u} (hNode : cfg.table.node? id = some ⟨.loop c b, span⟩)
      (hTurns : Turns (eval cfg fuel) c b env s t)
      (hTest : eval cfg fuel c env t = .ok (.bool true) u) :
      Inside cfg ⟨fuel + 1, id, env, s⟩ ⟨fuel, b, env, u⟩
  | first {fuel id env s span a b} (hNode : cfg.table.node? id = some ⟨.sequence a b, span⟩) :
      Inside cfg ⟨fuel + 1, id, env, s⟩ ⟨fuel, a, env, s⟩
  | second {fuel id env s span a b value t}
      (hNode : cfg.table.node? id = some ⟨.sequence a b, span⟩)
      (hFirst : eval cfg fuel a env s = .ok value t) :
      Inside cfg ⟨fuel + 1, id, env, s⟩ ⟨fuel, b, env, t⟩
  | declared {fuel id env s span name a}
      (hNode : cfg.table.node? id = some ⟨.declare name a, span⟩) :
      Inside cfg ⟨fuel + 1, id, env, s⟩ ⟨fuel, a, env, s⟩
  | assigned {fuel id env s span name a}
      (hNode : cfg.table.node? id = some ⟨.assign name a, span⟩) :
      Inside cfg ⟨fuel + 1, id, env, s⟩ ⟨fuel, a, env, s⟩
  | callee {fuel id env s span f args} (hNode : cfg.table.node? id = some ⟨.call f args, span⟩) :
      Inside cfg ⟨fuel + 1, id, env, s⟩ ⟨fuel, f, env, s⟩
  | argument {fuel id env s span f args c t before arg after values u}
      (hNode : cfg.table.node? id = some ⟨.call f args, span⟩)
      (hCallee : eval cfg fuel f env s = .ok (.closure c) t)
      (hArgs : cfg.table.args? args = some (before ++ arg :: after))
      (hBefore : argumentsWith (eval cfg fuel) env before t = .ok values u) :
      Inside cfg ⟨fuel + 1, id, env, s⟩ ⟨fuel, arg, env, u⟩

/-- The evaluation of a function makes a closure in a state of its own. -/
inductive Makes (cfg : Setting) : Moment → Closure → State → Prop
  | function {fuel id env s params body span}
      (hNode : cfg.table.node? id = some ⟨.function params body, span⟩) :
      Makes cfg ⟨fuel + 1, id, env, s⟩ ⟨s.closures, params, body, env⟩
        { s with closures := s.closures + 1 }

/-- A closure passes the checks of an application and its parameters are bound in a new scope, where
the evaluation of its body starts. -/
inductive Enters (cfg : Setting) (fuel : Nat) (c : Closure) (args : List Value) (span : Span)
    (s : State) : Moment → Prop
  | body {params t} (hDepth : s.depth < cfg.maxDepth)
      (hParams : cfg.table.params? c.params = some params)
      (hArity : ¬ (cfg.policy = .strict ∧ args.length < params.length))
      (hBind : bindParams s.scopes.all.size (some span) params args
        { s with scopes := (s.scopes.enclose c.scope).2 } = .ok () t) :
      Enters cfg fuel c args span s
        ⟨fuel, c.body, s.scopes.all.size, { t with depth := t.depth + 1 }⟩

/-- The evaluation of a call applies a closure in a state, which starts that of its body. -/
inductive Applies (cfg : Setting) : Moment → Closure → State → Moment → Prop
  | call {fuel id env s span f args c t ids values u m}
      (hNode : cfg.table.node? id = some ⟨.call f args, span⟩)
      (hCallee : eval cfg fuel f env s = .ok (.closure c) t)
      (hArgs : cfg.table.args? args = some ids)
      (hValues : argumentsWith (eval cfg fuel) env ids t = .ok values u)
      (hEnters : Enters cfg fuel c values span u m) :
      Applies cfg ⟨fuel + 1, id, env, s⟩ c u m

/-- One evaluation starts another. -/
inductive Starts (cfg : Setting) (m m' : Moment) : Prop
  | inside (h : Inside cfg m m')
  | applies {c s} (h : Applies cfg m c s m')

/-- The evaluation from the first moment comes to the second. -/
inductive Visits (cfg : Setting) (m : Moment) : Moment → Prop
  | start : Visits cfg m m
  | next {m' m''} (h : Visits cfg m m') (hStarts : Starts cfg m' m'') : Visits cfg m m''

theorem Inside.fuel_eq {cfg : Setting} {m m' : Moment} (h : Inside cfg m m') :
    m.fuel = m'.fuel + 1 := by
  cases h <;> rfl

theorem Inside.env_eq {cfg : Setting} {m m' : Moment} (h : Inside cfg m m') : m'.env = m.env := by
  cases h <;> rfl

theorem Enters.fuel_eq {cfg : Setting} {fuel : Nat} {c : Closure} {args : List Value} {span : Span}
    {s : State} {m : Moment} (h : Enters cfg fuel c args span s m) : m.fuel = fuel := by
  cases h
  rfl

theorem Enters.env_eq {cfg : Setting} {fuel : Nat} {c : Closure} {args : List Value} {span : Span}
    {s : State} {m : Moment} (h : Enters cfg fuel c args span s m) : m.env = s.scopes.all.size := by
  cases h
  rfl

theorem Enters.node_eq {cfg : Setting} {fuel : Nat} {c : Closure} {args : List Value} {span : Span}
    {s : State} {m : Moment} (h : Enters cfg fuel c args span s m) : m.node = c.body := by
  cases h
  rfl

theorem Applies.env_eq {cfg : Setting} {c : Closure} {s : State} {m m' : Moment}
    (h : Applies cfg m c s m') : m'.env = s.scopes.all.size := by
  cases h with
  | call _ _ _ _ hEnters => exact hEnters.env_eq

theorem Applies.node_eq {cfg : Setting} {c : Closure} {s : State} {m m' : Moment}
    (h : Applies cfg m c s m') : m'.node = c.body := by
  cases h with
  | call _ _ _ _ hEnters => exact hEnters.node_eq

/-- A closure is made as the value of its function. -/
theorem Makes.outcome_eq {cfg : Setting} {m : Moment} {c : Closure} {t : State}
    (h : Makes cfg m c t) : m.outcome cfg = .ok (.closure c) t := by
  cases h with
  | function hNode =>
    unfold Moment.outcome eval nodeWith
    rw [hNode]
    rfl

/-! ## Runs of constructs -/

variable {cfg : Setting} {fuel : Nat} {id : NodeId} {env : ScopeId} {s t : State} {ev : Evaluator}

theorem bind_of_ok {α β : Type} {x : Effect α} {f : α → Effect β} {a : α} (h : x s = .ok a t) :
    (x >>= f) s = f a t := by
  change EStateM.bind x f s = f a t
  rw [EStateM.bind, h]

theorem bind_of_error {α β : Type} {x : Effect α} {stop : Stop} (h : x s = .error stop t)
    (f : α → Effect β) : (x >>= f) s = .error stop t := by
  change EStateM.bind x f s = .error stop t
  rw [EStateM.bind, h]

theorem exists_of_bind_ok {α β : Type} {x : Effect α} {f : α → Effect β} {b : β}
    (h : (x >>= f) s = .ok b t) : ∃ a u, x s = .ok a u ∧ f a u = .ok b t := by
  change EStateM.bind x f s = .ok b t at h
  unfold EStateM.bind at h
  split at h
  · next a u hFirst => exact ⟨a, u, hFirst, h⟩
  · cases h

theorem found_eq_ok {α : Type} {target : Option α} {a : α} (h : found target s = .ok a t) :
    target = some a ∧ s = t := by
  cases target with
  | none => cases h
  | some b =>
    cases h
    exact ⟨rfl, rfl⟩

/-- A condition succeeds when its node has a truth value. -/
theorem eval_of_conditionWith {b : Bool} (h : conditionWith cfg ev id env s = .ok b t) :
    ev id env s = .ok (.bool b) t := by
  change EStateM.bind (ev id env) _ s = _ at h
  unfold EStateM.bind at h
  split at h
  · next value u hValue =>
    cases value with
    | bool b' =>
      cases h
      exact hValue
    | _ => cases h
  · cases h

theorem argumentsWith_append (before after : List NodeId) :
    argumentsWith ev env (before ++ after) = (do
      let values ← argumentsWith ev env before
      let more ← argumentsWith ev env after
      return values ++ more) := by
  induction before with
  | nil => simp [argumentsWith]
  | cons id before ih => simp [argumentsWith, ih]

theorem argumentsWith_snoc {before : List NodeId} {arg : NodeId} {values : List Value}
    {value : Value} {u : State} (hBefore : argumentsWith ev env before s = .ok values t)
    (hArg : ev arg env t = .ok value u) :
    argumentsWith ev env (before ++ [arg]) s = .ok (values ++ [value]) u := by
  rw [argumentsWith_append, bind_of_ok hBefore]
  simp only [argumentsWith, pure_bind, bind_assoc]
  exact bind_of_ok hArg

/-- The application of a closure as far as its body: the two checks, and the scope. -/
theorem applyWith_eq (c : Closure) (args : List Value) (span : Span) :
    applyWith cfg ev c args span s =
      if cfg.maxDepth ≤ s.depth then
        .error (.failed ⟨.stackOverflow cfg.maxDepth, some span⟩) s
      else
        match cfg.table.params? c.params with
        | none => .error (.fault .dangling) s
        | some params =>
          if cfg.policy = .strict ∧ args.length < params.length then
            .error (.failed ⟨.arityMismatch params.length args.length, some span⟩) s
          else
            (bindParams s.scopes.all.size (some span) params args >>= fun _ =>
              entered (ev c.body s.scopes.all.size))
              { s with scopes := (s.scopes.enclose c.scope).2 } := by
  by_cases hDepth : cfg.maxDepth ≤ s.depth
  · rw [if_pos hDepth]
    change (if cfg.maxDepth ≤ s.depth then _ else _ : Effect Value) s = _
    rw [if_pos hDepth]
    rfl
  · rw [if_neg hDepth]
    change (if cfg.maxDepth ≤ s.depth then _ else _ : Effect Value) s = _
    rw [if_neg hDepth]
    cases cfg.table.params? c.params with
    | none => rfl
    | some params =>
      change (if cfg.policy = .strict ∧ args.length < params.length then _ else _ : Effect Value) s
        = if cfg.policy = .strict ∧ args.length < params.length then _ else _
      split
      · rfl
      · rfl

/-! ## Nothing is missing -/

theorem bind_congr_at {α β : Type} {x y : Effect α} {f g : α → Effect β} (hFirst : x s = y s)
    (hNext : ∀ a t, y s = .ok a t → f a t = g a t) : (x >>= f) s = (y >>= g) s := by
  change EStateM.bind x f s = EStateM.bind y g s
  unfold EStateM.bind
  rw [hFirst]
  split
  · next a t hResult => exact hNext a t hResult
  · rfl

theorem conditionWith_congr (h : ev id env s = eval cfg fuel id env s) :
    conditionWith cfg ev id env s = conditionWith cfg (eval cfg fuel) id env s :=
  bind_congr_at h fun _ _ _ => rfl

theorem argumentsWith_congr {before after : List NodeId} {values : List Value}
    (hBefore : argumentsWith (eval cfg fuel) env before s = .ok values t)
    (h : ∀ first arg rest vs u, after = first ++ arg :: rest →
      argumentsWith (eval cfg fuel) env (before ++ first) s = .ok vs u →
      ev arg env u = eval cfg fuel arg env u) :
    argumentsWith ev env after t = argumentsWith (eval cfg fuel) env after t := by
  induction after generalizing before values t with
  | nil => rfl
  | cons arg after ih =>
    refine bind_congr_at (h [] arg after values t rfl (by simpa using hBefore)) ?_
    intro value u hValue
    refine bind_congr_at (ih (argumentsWith_snoc hBefore hValue) ?_) fun _ _ _ => rfl
    intro first arg' rest vs u' hSplit hFirst
    refine h (arg :: first) arg' rest vs u' (by rw [hSplit, List.cons_append]) ?_
    rw [← hFirst, List.append_assoc, List.singleton_append]

theorem loopWith_congr {c b : NodeId} (hTurns : Turns (eval cfg fuel) c b env s t)
    (hTest : ∀ t, Turns (eval cfg fuel) c b env s t → ev c env t = eval cfg fuel c env t)
    (hBody : ∀ t u, Turns (eval cfg fuel) c b env s t →
      eval cfg fuel c env t = .ok (.bool true) u → ev b env u = eval cfg fuel b env u)
    (n : Nat) (last : Value) :
    loopWith (conditionWith cfg ev c env) (ev b env) n last t =
      loopWith (conditionWith cfg (eval cfg fuel) c env) (eval cfg fuel b env) n last t := by
  induction n generalizing t last with
  | zero => rfl
  | succ n ih =>
    refine bind_congr_at (conditionWith_congr (hTest t hTurns)) ?_
    intro more u hMore
    cases more with
    | false => rfl
    | true =>
      have hTrue := eval_of_conditionWith hMore
      refine bind_congr_at (hBody t u hTurns hTrue) fun value v hValue => ?_
      exact ih (hTurns.next hTrue hValue) value

theorem applyWith_congr {c : Closure} {args : List Value} {span : Span}
    (h : ∀ m, Enters cfg fuel c args span s m → ev m.node m.env m.state = m.outcome cfg) :
    applyWith cfg ev c args span s = applyWith cfg (eval cfg fuel) c args span s := by
  rw [applyWith_eq, applyWith_eq]
  by_cases hDepth : cfg.maxDepth ≤ s.depth
  · rw [if_pos hDepth, if_pos hDepth]
  rw [if_neg hDepth, if_neg hDepth]
  cases hParams : cfg.table.params? c.params with
  | none => rfl
  | some params =>
    by_cases hArity : cfg.policy = .strict ∧ args.length < params.length
    · simp only [if_pos hArity]
    simp only [if_neg hArity]
    refine bind_congr_at rfl fun _ t hBind => ?_
    have hBody := h _ (.body (Nat.lt_of_not_le hDepth) hParams hArity hBind)
    unfold entered
    rw [hBody]

/-- An evaluation depends on no other moments than those it starts. -/
theorem nodeWith_congr
    (h : ∀ m, Starts cfg ⟨fuel + 1, id, env, s⟩ m → ev m.node m.env m.state = m.outcome cfg) :
    nodeWith cfg fuel ev id env s = eval cfg (fuel + 1) id env s := by
  have hInside : ∀ a t, Inside cfg ⟨fuel + 1, id, env, s⟩ ⟨fuel, a, env, t⟩ →
      ev a env t = eval cfg fuel a env t := fun a t hStarts => h _ (.inside hStarts)
  refine bind_congr_at rfl ?_
  rintro ⟨form, span⟩ u hFound
  obtain ⟨hNode, rfl⟩ := found_eq_ok hFound
  cases form with
  | int | bool | null | ref | function => rfl
  | print a => exact bind_congr_at (hInside a s (.printed hNode)) fun _ _ _ => rfl
  | binary op a b =>
    refine bind_congr_at (hInside a s (.left hNode)) fun value t hLeft => ?_
    exact bind_congr_at (hInside b t (.right hNode hLeft)) fun _ _ _ => rfl
  | branch c a b =>
    refine bind_congr_at (conditionWith_congr (hInside c s (.condition hNode))) ?_
    intro holds t hCondition
    have hValue := eval_of_conditionWith hCondition
    cases holds with
    | true => exact hInside a t (.consequent hNode hValue)
    | false =>
      cases b with
      | none => rfl
      | some b => exact hInside b t (.alternative hNode hValue)
  | loop c b =>
    exact loopWith_congr .start (fun t hTurns => hInside c t (.test hNode hTurns))
      (fun t u hTurns hTest => hInside b u (.body hNode hTurns hTest)) fuel .null
  | sequence a b =>
    refine bind_congr_at (hInside a s (.first hNode)) fun value t hFirst => ?_
    exact hInside b t (.second hNode hFirst)
  | declare name a => exact bind_congr_at (hInside a s (.declared hNode)) fun _ _ _ => rfl
  | assign name a => exact bind_congr_at (hInside a s (.assigned hNode)) fun _ _ _ => rfl
  | call f args =>
    refine bind_congr_at (hInside f s (.callee hNode)) fun value t hCallee => ?_
    cases value with
    | closure c =>
      refine bind_congr_at rfl fun ids t' hFoundArgs => ?_
      obtain ⟨hArgs, rfl⟩ := found_eq_ok hFoundArgs
      have hNone : argumentsWith (eval cfg fuel) env [] t = .ok [] t := rfl
      refine bind_congr_at (argumentsWith_congr hNone ?_) fun values u hValues => ?_
      · intro first arg rest vs u hSplit hFirst
        rw [hSplit] at hArgs
        exact hInside arg u (.argument hNode hCallee hArgs hFirst)
      · refine applyWith_congr fun m hEnters => ?_
        exact h m (.applies (.call hNode hCallee hArgs hValues hEnters))
    | _ => rfl

end FeatherScript.Eval
