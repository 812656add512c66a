import FeatherScript.Proofs.Eval.Correspondence
import FeatherScript.Proofs.Eval.Invariant

/-!
# The depth of a run

The depth counts the bodies of closures that are under evaluation. It is raised before a body and
lowered after it, also where the body has failed, and whatever an evaluation does besides leaves it
alone. So every evaluation ends at the depth at which it starts, and at every moment of a run the
depth is that of the start and one for each body that the run is inside of.

* `eval_depth`, `call_depth`: evaluations and applications end where they start.
* `Inside.depth_eq`, `Applies.depth_eq`: the depth at which one evaluation starts another.
* `Under`: the moments that a run comes to, with the number of bodies that it is inside of.
* `Under.depth_eq`, `Under.depth_le`: the depth at such a moment, and its limit.
-/

namespace FeatherScript.Eval

open Effect

variable {cfg : Setting} {fuel : Nat} {id : NodeId} {env : ScopeId} {s t : State} {m m' : Moment}
  {c : Closure} {args : List Value} {span : Span} {k : Nat} {α β : Type}

/-! ## The depth in the end

Corresponding states have one depth, and every state corresponds to itself. So the depth is kept by
whatever keeps the correspondence. -/

theorem depth_of_agree {C : Correspondence} {old old' : List Value} {d : Nat}
    {E : Stop → Stop → Prop} {P : α → β → Prop} {r : EStateM.Result Stop State α}
    {r' : EStateM.Result Stop State β} (h : Agree (C.Between old old' d) E P r r') :
    (after r).depth = d := by
  cases h with
  | ok _ hBetween => exact hBetween.depth.1
  | error _ hBetween => exact hBetween.depth.1

/-- However an evaluation ends, the depth is as it was. -/
theorem eval_depth (cfg : Setting) (fuel : Nat) (id : NodeId) (env : ScopeId) (s : State) :
    (after (eval cfg fuel id env s)).depth = s.depth :=
  depth_of_agree ((Correspondence.Between.self s).eval_alike trivial cfg fuel id)

/-- However an application by the host ends, the depth is as it was. -/
theorem call_depth (cfg : Setting) (fuel : Nat) (callee : Value) (args : List Value) (s : State) :
    (after (call cfg fuel callee args s)).depth = s.depth := by
  have hSelf := Correspondence.Between.self s
  have hHolds : ∀ v, (Correspondence.ofClosures s.scopes.all.size s.closures s.closures).Holds v :=
    fun _ _ _ hOld => hOld
  exact depth_of_agree (hSelf.call_alike (hHolds callee) (fun v _ => hHolds v) cfg fuel)

theorem depth_of_eval {v : Value} (h : eval cfg fuel id env s = .ok v t) : t.depth = s.depth := by
  rw [← eval_depth cfg fuel id env s, h]
  rfl

theorem depth_of_argumentsWith {ids : List NodeId} {values : List Value}
    (h : argumentsWith (eval cfg fuel) env ids s = .ok values t) : t.depth = s.depth := by
  induction ids generalizing s values with
  | nil =>
    cases h
    rfl
  | cons id ids ih =>
    obtain ⟨v, u, hValue, h⟩ := exists_of_bind_ok h
    obtain ⟨vs, w, hValues, h⟩ := exists_of_bind_ok h
    cases h
    exact (ih hValues).trans (depth_of_eval hValue)

theorem depth_of_bindParams {names : List Name} {site : Option Span}
    (h : bindParams env site names args s = .ok () t) : t.depth = s.depth := by
  have hKeeps : Ensures (bindParams env site names args) s (fun t => t.depth = s.depth)
      fun _ _ => True := bindParams_ensures rfl fun _ _ _ hDepth _ _ => hDepth
  exact (hKeeps.of_ok h).1

/-! ## The depth at a moment -/

theorem Turns.depth_eq {condition body : NodeId}
    (h : Turns (eval cfg fuel) condition body env s t) : t.depth = s.depth := by
  induction h with
  | start => rfl
  | next _ hTest hBody ih => rw [depth_of_eval hBody, depth_of_eval hTest, ih]

/-- Operands are evaluated at the depth of their node. -/
theorem Inside.depth_eq (h : Inside cfg m m') : m'.state.depth = m.state.depth := by
  cases h with
  | right _ hFirst | consequent _ hFirst | alternative _ hFirst | second _ hFirst =>
    exact depth_of_eval hFirst
  | test _ hTurns => exact hTurns.depth_eq
  | body _ hTurns hTest => exact (depth_of_eval hTest).trans hTurns.depth_eq
  | argument _ hCallee _ hBefore =>
    exact (depth_of_argumentsWith hBefore).trans (depth_of_eval hCallee)
  | _ => rfl

/-- A body is evaluated one level deeper, and not below the limit. -/
theorem Enters.depth_eq (h : Enters cfg fuel c args span s m) :
    m.state.depth = s.depth + 1 ∧ m.state.depth ≤ cfg.maxDepth := by
  cases h with
  | body hDepth _ _ hBind =>
    have hBound := depth_of_bindParams hBind
    dsimp only at hBound ⊢
    omega

theorem Applies.depth_eq (h : Applies cfg m c s m') :
    m'.state.depth = m.state.depth + 1 ∧ m'.state.depth ≤ cfg.maxDepth := by
  cases h with
  | call _ hCallee _ hValues hEnters =>
    rw [← depth_of_eval hCallee, ← depth_of_argumentsWith hValues]
    exact hEnters.depth_eq

/-- The evaluation from the first moment comes to the second inside of a number of bodies: those
that it has entered on the way and is still evaluating. -/
inductive Under (cfg : Setting) (m : Moment) : Nat → Moment → Prop
  | start : Under cfg m 0 m
  | inside {k m' m''} (h : Under cfg m k m') (hInside : Inside cfg m' m'') : Under cfg m k m''
  | body {k m' m'' c s} (h : Under cfg m k m') (hApplies : Applies cfg m' c s m'') :
      Under cfg m (k + 1) m''

/-- The depth is higher than at the start by the number of bodies. -/
theorem Under.depth_eq (h : Under cfg m k m') : m'.state.depth = m.state.depth + k := by
  induction h with
  | start => rfl
  | inside _ hInside ih => rw [hInside.depth_eq, ih]
  | body _ hApplies ih => rw [hApplies.depth_eq.1, ih, Nat.add_assoc]

theorem Under.depth_le (h : Under cfg m k m') (hStart : m.state.depth ≤ cfg.maxDepth) :
    m'.state.depth ≤ cfg.maxDepth := by
  induction h with
  | start => exact hStart
  | inside _ hInside ih => rwa [hInside.depth_eq]
  | body _ hApplies => exact hApplies.depth_eq.2

/-- All moments that a run visits are counted in this way. -/
theorem visits_iff_under : Visits cfg m m' ↔ ∃ k, Under cfg m k m' := by
  constructor
  · intro hVisits
    induction hVisits with
    | start => exact ⟨0, .start⟩
    | next _ hStarts ih =>
      obtain ⟨k, hUnder⟩ := ih
      cases hStarts with
      | inside hInside => exact ⟨k, hUnder.inside hInside⟩
      | applies hApplies => exact ⟨k + 1, hUnder.body hApplies⟩
  · rintro ⟨k, hUnder⟩
    induction hUnder with
    | start => exact .start
    | inside _ hInside ih => exact ih.next (.inside hInside)
    | body _ hApplies ih => exact ih.next (.applies hApplies)

end FeatherScript.Eval
