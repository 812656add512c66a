import FeatherScript.Eval.Step

/-!
# Simulations between effects

Two effects on states of different kinds simulate each other if from related states they end in
related states, either both with related values or both stopped for related causes. Simulations
compose along the steps of an effect, so two evaluations are compared construct by construct.

* `Agree`: two results with related values or causes and related states.
* `Simulates.bind`: one step after another.
-/

namespace FeatherScript.Eval

variable {α β α' β' σ τ ε δ : Type} {S : σ → τ → Prop} {E : ε → δ → Prop} {P : α → β → Prop}
  {Q : α' → β' → Prop}

/-- Two results are related, with their states. -/
inductive Agree (S : σ → τ → Prop) (E : ε → δ → Prop) (P : α → β → Prop) :
    EStateM.Result ε σ α → EStateM.Result δ τ β → Prop
  | ok {a b s t} (hValue : P a b) (hState : S s t) : Agree S E P (.ok a s) (.ok b t)
  | error {e f s t} (hCause : E e f) (hState : S s t) : Agree S E P (.error e s) (.error f t)

/-- Two effects lead from related states to related results. -/
def Simulates (S : σ → τ → Prop) (E : ε → δ → Prop) (P : α → β → Prop) (x : EStateM ε σ α)
    (y : EStateM δ τ β) : Prop :=
  ∀ s t, S s t → Agree S E P (x s) (y t)

namespace Simulates

theorem pure {a : α} {b : β} (h : P a b) :
    Simulates S E P (Pure.pure a) (Pure.pure b) :=
  fun _ _ hState => .ok h hState

theorem throw {e : ε} {f : δ} (h : E e f) :
    Simulates S E P (MonadExcept.throw e) (MonadExcept.throw f) :=
  fun _ _ hState => .error h hState

theorem bind {x : EStateM ε σ α} {y : EStateM δ τ β} {f : α → EStateM ε σ α'}
    {g : β → EStateM δ τ β'} (h : Simulates S E P x y)
    (hNext : ∀ a b, P a b → Simulates S E Q (f a) (g b)) :
    Simulates S E Q (x >>= f) (y >>= g) := by
  intro s t hState
  have hFirst := h s t hState
  change Agree S E Q (EStateM.bind x f s) (EStateM.bind y g t)
  unfold EStateM.bind
  generalize x s = r at hFirst
  generalize y t = r' at hFirst
  cases hFirst with
  | ok hValue hState => exact hNext _ _ hValue _ _ hState
  | error hCause hState => exact .error hCause hState

end Simulates

end FeatherScript.Eval
