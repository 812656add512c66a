import FeatherScript.Proofs.Eval.Coupling
import FeatherScript.Proofs.Eval.Simulation

/-!
# Runs in lockstep

Two evaluations that differ only in their fuel or in what they refuse go through the same states up
to the place where one of them breaks off. For such a comparison a coupling needs few laws, because
all other effects are the same in both runs: they print at most, and refuse no application.

* `Plain`: such effects.
* `Lockstep.coupling`: the coupling of two runs in lockstep.
* `Settles`: an evaluation ends, with a value or an error; it ends in one way only, since more fuel
  changes nothing (`eval_approximates`, `Settles.unique`).
-/

namespace FeatherScript.Eval

open Effect

variable {α β α' β' σ ε : Type} {cfg cfg' : Setting} {s t u : State}

/-! ## Plain effects -/

/-- What was printed in one state was printed in the other, which may have more. -/
def State.Prints (s t : State) : Prop := s.printed.toList <+: t.printed.toList

theorem State.Prints.refl (s : State) : s.Prints s := List.prefix_rfl

theorem State.Prints.trans (h : s.Prints t) (h' : t.Prints u) : s.Prints u :=
  List.IsPrefix.trans h h'

/-- The state in which an effect ends. -/
def after : EStateM.Result Stop State α → State
  | .ok _ t | .error _ t => t

/-- An effect that takes back nothing that was printed, and refuses no application. -/
structure Plain (x : Effect α) : Prop where
  prints : ∀ s : State, s.Prints (after (x s))
  error : ∀ {s e t}, x s = .error (.failed e) t → ¬ e.cause.Refusal

namespace Plain

theorem of_ok {x : Effect α} (hOk : ∀ s : State, ∃ a t, x s = .ok a t ∧ s.Prints t) : Plain x := by
  refine ⟨fun s => ?_, fun {s e t} hError => ?_⟩
  · obtain ⟨a, t, hResult, hPrints⟩ := hOk s
    rw [hResult]
    exact hPrints
  · obtain ⟨a, u, hResult, -⟩ := hOk s
    cases hResult.symm.trans hError

theorem onScopes (f : Scopes → α × Scopes) : Plain (Effect.onScopes f) :=
  of_ok fun s => ⟨_, _, rfl, .refl s⟩

theorem resolve (env : ScopeId) (name : Name) : Plain (Effect.resolve env name) :=
  of_ok fun s => ⟨_, _, rfl, .refl s⟩

theorem makeClosure (params : Slice) (body : NodeId) (env : ScopeId) :
    Plain (Effect.makeClosure params body env) :=
  of_ok fun s => ⟨_, _, rfl, .refl s⟩

theorem print (value : Value) : Plain (Effect.print value) := by
  refine of_ok fun s => ⟨_, _, rfl, ?_⟩
  unfold State.Prints
  rw [Array.toList_push]
  exact List.prefix_append _ _

theorem assign (env : ScopeId) (name : Name) (value : Value) (span : Option Span) :
    Plain (Effect.assign env name value span) :=
  of_ok fun s => ⟨_, _, assign_eq, .refl s⟩

theorem fail {cause : EvalCause} (span : Option Span) (h : ¬ cause.Refusal) :
    Plain (Effect.fail cause span : Effect α) := by
  refine ⟨.refl, fun {s e t} hError => ?_⟩
  cases hError
  exact h

theorem fault (fault : Fault) : Plain (throw (.fault fault) : Effect α) :=
  ⟨.refl, nofun⟩

theorem declare (env : ScopeId) (name : Name) (value : Value) (span : Option Span) :
    Plain (Effect.declare env name value span) := by
  have hFree : ∀ s, Effect.declare env name value span s
      = .error (.failed ⟨.alreadyDeclared name, span⟩) s ∨
      ∃ g, Effect.declare env name value span s = .ok () { s with scopes := g } := by
    intro s
    rw [declare_eq]
    split
    · exact .inl rfl
    · exact .inr ⟨_, rfl⟩
  refine ⟨fun s => ?_, fun {s e t} hError => ?_⟩
  · rcases hFree s with hBound | ⟨g, hWritten⟩
    · rw [hBound]
      exact .refl s
    · rw [hWritten]
      exact .refl s
  · rcases hFree s with hBound | ⟨g, hWritten⟩
    · cases hBound.symm.trans hError
      exact id
    · cases hWritten.symm.trans hError

end Plain

/-! ## Lockstep -/

/-- A relation between the effects of two runs that are in the same state, while they are. -/
structure Lockstep (cfg cfg' : Setting) where
  /-- The effects that are related, by what their results are. -/
  Rel : {α β : Type} → (α → β → Prop) → Effect α → Effect β → Prop
  /-- The fuels with which loops are run. -/
  Fuel : Nat → Nat → Prop
  sameTable : cfg.SameTable cfg'
  pure : ∀ {α β} {P : α → β → Prop} {a b}, P a b → Rel P (Pure.pure a) (Pure.pure b)
  bind : ∀ {α β α' β'} {P : α → β → Prop} {Q : α' → β' → Prop} {x : Effect α} {y : Effect β}
    {f : α → Effect α'} {g : β → Effect β'}, Rel P x y → (∀ a b, P a b → Rel Q (f a) (g b)) →
    Rel Q (x >>= f) (y >>= g)
  plain : ∀ {α} {x : Effect α}, Plain x → Rel (· = ·) x x
  spent : ∀ {α β n} {P : α → β → Prop} {y : Effect β}, Fuel 0 n →
    (n = 0 → y = throw (.fault .outOfFuel)) → Rel P (throw (.fault .outOfFuel)) y
  burn : ∀ {n n'}, Fuel (n + 1) n' → ∃ k, n' = k + 1 ∧ Fuel n k
  permit : ∀ c supplied span, Rel (· = ·) (permit cfg c supplied span) (permit cfg' c supplied span)
  entered : ∀ {α β} {P : α → β → Prop} {x y}, Rel P x y →
    Rel P (Effect.entered x) (Effect.entered y)

namespace Lockstep

variable (L : Lockstep cfg cfg')

theorem imp {P Q : α → β → Prop} {x : Effect α} {y : Effect β} (h : L.Rel P x y)
    (hImp : ∀ a b, P a b → Q a b) : L.Rel Q x y := by
  have hBind : L.Rel Q (x >>= Pure.pure) (y >>= Pure.pure) :=
    L.bind h fun a b hSame => L.pure (hImp a b hSame)
  rwa [bind_pure, bind_pure] at hBind

theorem of_plain {P : α → α → Prop} {x : Effect α} (hPlain : Plain x) (hSame : ∀ a, P a a) :
    L.Rel P x x := by
  refine L.imp (L.plain hPlain) ?_
  rintro a _ rfl
  exact hSame a

/-- Runs that stop for the same cause, whatever results they would have had. -/
theorem stop {P : α → β → Prop} {stop : Stop} (hPlain : Plain (throw stop : Effect Empty)) :
    L.Rel P (throw stop) (throw stop) :=
  L.bind (f := fun a => a.elim) (g := fun a => a.elim) (L.plain hPlain) fun a _ _ => a.elim

/-- The coupling of two runs in lockstep, with the same scopes and the same closures. -/
def coupling : Coupling cfg cfg' where
  Rel _ := L.Rel
  SameScope := Eq
  SameClosure := Eq
  Node _ := True
  Fuel := L.Fuel
  Deeper _ := True
  sameTable := L.sameTable
  operand _ _ _ := trivial
  body := by
    rintro c _ rfl
    exact ⟨rfl, trivial⟩
  pure := L.pure
  bind := L.bind
  fail h := L.stop (.fail _ h)
  dangling _ _ := L.stop (.fault .dangling)
  spent := L.spent
  burn := L.burn
  resolve := by
    rintro d e _ name rfl
    exact L.of_plain (.resolve e name) (.of_eq fun _ => rfl)
  print := by
    rintro d v v' hSame
    obtain rfl := hSame.eq
    exact L.of_plain (.print v) fun _ => trivial
  declare := by
    rintro d e _ v v' name span rfl hSame
    obtain rfl := hSame.eq
    exact L.of_plain (.declare e name v span) fun _ => trivial
  assign := by
    rintro d e _ v v' name span rfl hSame
    obtain rfl := hSame.eq
    exact L.of_plain (.assign e name v span) fun _ => trivial
  makeClosure := by
    rintro d id params body span e _ - - rfl
    exact L.of_plain (.makeClosure params body e) (.of_eq fun _ => rfl)
  permit := by
    rintro d c _ supplied span rfl
    exact L.imp (L.permit c supplied span) fun _ _ hSame => ⟨hSame, trivial⟩
  enclose := by
    rintro d c _ rfl
    exact L.of_plain (.onScopes _) fun _ => rfl
  entered := L.entered

theorem eval_rel {fuel fuel' : Nat} (hFuel : L.Fuel fuel fuel') (id : NodeId) (env : ScopeId) :
    L.Rel (· = ·) (eval cfg fuel id env) (eval cfg' fuel' id env) :=
  L.imp (L.coupling.eval_rel (d := 0) hFuel trivial rfl) fun _ _ => Value.Like.eq

end Lockstep

/-! ## The same states -/

theorem agree_refl {S : σ → σ → Prop} {E : ε → ε → Prop} {P : α → α → Prop} (hState : ∀ s, S s s)
    (hCause : ∀ e, E e e) (hValue : ∀ a, P a a) (r : EStateM.Result ε σ α) : Agree S E P r r := by
  cases r with
  | ok a t => exact .ok (hValue a) (hState t)
  | error e t => exact .error (hCause e) (hState t)

theorem Agree.eq {E : ε → ε → Prop} {r r' : EStateM.Result ε σ α}
    (h : Agree (· = ·) E (· = ·) r r') (hCause : ∀ e f, E e f → e = f) : r = r' := by
  cases h with
  | ok hValue hState => rw [hValue, hState]
  | error hStop hState => rw [hCause _ _ hStop, hState]

section Agree

variable {E : Stop → Stop → Prop} {P : α → β → Prop} {x : Effect α} {y : Effect β}
  {f : α → Effect α'} {g : β → Effect β'}

/-- After a step that both runs make, either the next ones are compared or both have stopped. -/
theorem agree_bind {R : EStateM.Result Stop State α' → EStateM.Result Stop State β' → Prop}
    (h : Agree (· = ·) E P (x s) (y s)) (hNext : ∀ a b t, P a b → R (f a t) (g b t))
    (hStop : ∀ stop stop' t, E stop stop' → R (.error stop t) (.error stop' t)) :
    R ((x >>= f) s) ((y >>= g) s) := by
  change R (EStateM.bind x f s) (EStateM.bind y g s)
  unfold EStateM.bind
  generalize x s = r at h
  generalize y s = r' at h
  cases h with
  | ok hValue hState =>
    cases hState
    exact hNext _ _ _ hValue
  | error hCause hState =>
    cases hState
    exact hStop _ _ _ hCause

theorem agree_entered
    (h : Agree (· = ·) E P (x { s with depth := s.depth + 1 })
      (y { s with depth := s.depth + 1 })) :
    Agree (· = ·) E P (entered x s) (entered y s) := by
  unfold entered
  generalize x { s with depth := s.depth + 1 } = r at h
  generalize y { s with depth := s.depth + 1 } = r' at h
  cases h with
  | ok hValue hState =>
    cases hState
    exact .ok hValue rfl
  | error hCause hState =>
    cases hState
    exact .error hCause rfl

end Agree

/-! ## Fuel -/

/-- An effect does what another one does, unless it runs out of fuel. -/
def Approximates (P : α → β → Prop) (x : Effect α) (y : Effect β) : Prop :=
  ∀ s, (∃ t, x s = .error (.fault .outOfFuel) t) ∨ Agree (· = ·) (· = ·) P (x s) (y s)

theorem approximates_bind {P : α → β → Prop} {Q : α' → β' → Prop} {x : Effect α} {y : Effect β}
    {f : α → Effect α'} {g : β → Effect β'} (h : Approximates P x y)
    (hNext : ∀ a b, P a b → Approximates Q (f a) (g b)) :
    Approximates Q (x >>= f) (y >>= g) := by
  intro s
  rcases h s with ⟨t, hOut⟩ | hAgree
  -- Out of fuel in the first step, whatever the other effect does next.
  · exact .inl ⟨t, bind_of_error hOut f⟩
  · exact agree_bind (R := fun r r' => (∃ t, r = .error (.fault .outOfFuel) t) ∨ Agree _ _ Q r r')
      hAgree (fun a b t hSame => hNext a b hSame t) fun _ _ _ hCause => .inr (.error hCause rfl)

theorem approximates_entered {P : α → β → Prop} {x : Effect α} {y : Effect β}
    (h : Approximates P x y) : Approximates P (entered x) (entered y) := by
  intro s
  rcases h { s with depth := s.depth + 1 } with ⟨t, hOut⟩ | hAgree
  · left
    rw [entered, hOut]
    exact ⟨_, rfl⟩
  · exact .inr (agree_entered hAgree)

/-- A run with less fuel beside one with more. -/
def moreFuel (cfg : Setting) : Lockstep cfg cfg where
  Rel := Approximates
  Fuel := (· ≤ ·)
  sameTable := .refl cfg
  pure hSame _ := .inr (.ok hSame rfl)
  bind := approximates_bind
  plain _ _ := .inr (agree_refl (fun _ => rfl) (fun _ => rfl) (fun _ => rfl) _)
  spent _ _ s := .inl ⟨s, rfl⟩
  burn {n n'} h := ⟨n' - 1, by omega, by omega⟩
  permit _ _ _ _ := .inr (agree_refl (fun _ => rfl) (fun _ => rfl) (fun _ => rfl) _)
  entered := approximates_entered

/-- More fuel changes nothing but that the fuel may suffice. -/
theorem eval_approximates (cfg : Setting) {fuel fuel' : Nat} (hFuel : fuel ≤ fuel') (id : NodeId)
    (env : ScopeId) : Approximates (· = ·) (eval cfg fuel id env) (eval cfg fuel' id env) :=
  (moreFuel cfg).eval_rel hFuel id env

/-! ## Ends of evaluations -/

/-- The evaluation of a node in a scope, started in a state, ends with a value or an error of the
program, and in a state. -/
def Settles (cfg : Setting) (id : NodeId) (env : ScopeId) (s : State)
    (result : Except EvalError Value) (t : State) : Prop :=
  ∃ fuel, (eval cfg fuel id env).settle s = .ok (result, t)

/-- An effect that ends with a value or an error does the one or the other. -/
theorem settle_eq_ok {x : Effect α} {result : Except EvalError α} :
    x.settle s = .ok (result, t) ↔
      x s = match result with | .ok a => .ok a t | .error e => .error (.failed e) t := by
  unfold settle
  constructor
  · intro h
    split at h
    · next hResult => cases h; exact hResult
    · next hResult => cases h; exact hResult
    · cases h
  · intro h
    rw [h]
    cases result <;> rfl

theorem Settles.of_le {id : NodeId} {env : ScopeId} {fuel fuel' : Nat}
    {result : Except EvalError Value} (hFuel : fuel ≤ fuel')
    (h : (eval cfg fuel id env).settle s = .ok (result, t)) :
    (eval cfg fuel' id env).settle s = .ok (result, t) := by
  have hApproximates := eval_approximates cfg hFuel id env s
  rw [settle_eq_ok] at h ⊢
  rw [h] at hApproximates
  rcases hApproximates with ⟨u, hOut⟩ | hAgree
  · cases result <;> cases hOut
  · exact (hAgree.eq fun _ _ hStop => hStop).symm

/-- An evaluation ends in one way only. -/
theorem Settles.unique {id : NodeId} {env : ScopeId} {result result' : Except EvalError Value}
    (h : Settles cfg id env s result t) (h' : Settles cfg id env s result' u) :
    result = result' ∧ t = u := by
  obtain ⟨fuel, hFirst⟩ := h
  obtain ⟨fuel', hSecond⟩ := h'
  have hFirst := Settles.of_le (Nat.le_max_left fuel fuel') hFirst
  have hSecond := Settles.of_le (Nat.le_max_right fuel fuel') hSecond
  cases hFirst.symm.trans hSecond
  exact ⟨rfl, rfl⟩

end FeatherScript.Eval
