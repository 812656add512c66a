import FeatherScript.Eval.Step
import FeatherScript.Proofs.Scope.Chain
import Mathlib.Data.List.Forall2

/-!
# What effects do to the scopes

A declaration writes the scope at hand or fails. An assignment never fails: it writes the scope that
the name belongs to, or the scope at hand if the name reads as null. So the root is written only
where it is one of these, and never because a name has no binding.

* `Scopes.assignee`: the scope that an assignment writes to.
* `assign_eq`, `declare_eq`: assignment and declaration as one write.
* `Operator.apply_plain`, `Operator.apply_error`: operators make no closures, and fail for few
  causes.
* `forall₂_head_tail`: parameters take arguments one by one.
-/

namespace FeatherScript

/-- The scope that an assignment to a name writes to, seen from a scope. -/
def Scopes.assignee (g : Scopes) (env : ScopeId) (name : Name) : ScopeId :=
  if g.resolve env name = .null then env else (g.owner? env name).getD env

namespace Eval.Effect

variable {env : ScopeId} {name : Name} {value : Value} {span : Option Span} {s : State}

/-- Where an assignment updates a binding, there is one, and it is that of the assignee. -/
theorem owner?_eq_assignee
    (h : s.scopes.resolve env name ≠ .null ∨ s.scopes.binds env name = true) :
    s.scopes.owner? env name = some (s.scopes.assignee env name) := by
  unfold Scopes.assignee
  by_cases hNull : s.scopes.resolve env name = .null
  · rw [if_pos hNull]
    exact Scopes.owner?_of_binds (h.resolve_left (· hNull))
  · obtain ⟨owner, hOwner, -⟩ := Scopes.owner?_of_resolve hNull
    rw [if_neg hNull, hOwner, Option.getD_some]

/-- An assignment writes to the scope that the name belongs to, or to the scope at hand. -/
theorem assignee_cases (g : Scopes) (env : ScopeId) (name : Name) :
    g.owner? env name = some (g.assignee env name) ∨ g.assignee env name = env := by
  unfold Scopes.assignee
  by_cases hNull : g.resolve env name = .null
  · exact .inr (if_pos hNull)
  · obtain ⟨owner, hOwner, -⟩ := Scopes.owner?_of_resolve hNull
    rw [if_neg hNull, hOwner, Option.getD_some]
    exact .inl rfl

theorem declare_eq : declare env name value span s =
    if s.scopes.binds env name then .error (.failed ⟨.alreadyDeclared name, span⟩) s
    else .ok () { s with scopes := s.scopes.write env name value } := by
  unfold declare
  split <;> rfl

theorem state_of_declare {t : State} (h : declare env name value span s = .ok () t) :
    t = { s with scopes := s.scopes.write env name value } := by
  rw [declare_eq] at h
  split at h
  · cases h
  · cases h
    rfl

theorem assign_eq : assign env name value span s =
    .ok () { s with scopes := s.scopes.write (s.scopes.assignee env name) name value } := by
  unfold assign
  split
  · next h =>
    have hUpdate : s.scopes.update env name value
        = s.scopes.write (s.scopes.assignee env name) name value := by
      rw [Scopes.update, owner?_eq_assignee h, Option.getD_some]
    rw [← hUpdate]
    rfl
  · next h =>
    obtain ⟨hNull, hFree⟩ := not_or.mp h
    rw [declare_eq, if_neg hFree, Scopes.assignee, if_pos (Decidable.not_not.mp hNull)]

end Eval.Effect

/-! ## Arguments -/

/-- Where arguments of two applications are related, so are the first ones, read as null if there
are none, and the others. -/
theorem forall₂_head_tail {α β : Type} {r : α → β → Prop} {as : List α} {bs : List β} {a : α}
    {b : β} (h : List.Forall₂ r as bs) (hMissing : r a b) :
    r (as.head?.getD a) (bs.head?.getD b) ∧ List.Forall₂ r as.tail bs.tail := by
  cases h with
  | nil => exact ⟨hMissing, .nil⟩
  | cons hHead hTail => exact ⟨hHead, hTail⟩

/-! ## Operators -/

theorem inRange_plain {operation : Operation} {n : Int} {v : Value}
    (hValue : inRange operation n = .ok v) (c : Closure) : v ≠ .closure c := by
  unfold inRange at hValue
  split at hValue
  · cases hValue
    nofun
  · cases hValue

/-- The result of an operator on integers is no closure. -/
theorem Operator.applyInt_plain {op : Operator} {a b : Int64} {v : Value}
    (hValue : op.applyInt a b = .ok v) (c : Closure) : v ≠ .closure c := by
  cases op with
  | add | sub | mul => exact inRange_plain hValue c
  | div =>
    simp only [applyInt] at hValue
    split at hValue
    · cases hValue
    · exact inRange_plain hValue c
  | mod =>
    simp only [applyInt] at hValue
    split at hValue
    · cases hValue
    · cases hValue
      nofun
  | _ =>
    cases hValue
    nofun

/-- The causes for which an operation on two values fails. -/
theorem Operator.apply_error {op : Operator} {a b : Value} {cause : EvalCause}
    (h : op.apply a b = .error cause) :
    cause = .operandNotInteger op a.type b.type ∨ cause = .divisionByZero ∨ cause = .moduloByZero ∨
      ∃ operation, cause = .integerOverflow operation := by
  have hRange : ∀ operation n, inRange operation n = .error cause →
      cause = .integerOverflow operation := by
    intro operation n hResult
    unfold inRange at hResult
    split at hResult
    · cases hResult
    · cases hResult
      rfl
  unfold apply at h
  split at h
  · cases op with
    | add | sub | mul => exact .inr (.inr (.inr ⟨_, hRange _ _ h⟩))
    | div =>
      simp only [applyInt] at h
      split at h
      · cases h
        exact .inr (.inl rfl)
      · exact .inr (.inr (.inr ⟨_, hRange _ _ h⟩))
    | mod =>
      simp only [applyInt] at h
      split at h
      · cases h
        exact .inr (.inr (.inl rfl))
      · cases h
    | _ => cases h
  · cases h
    exact .inl rfl

theorem Operator.apply_plain {op : Operator} {a b v : Value} (hValue : op.apply a b = .ok v)
    (c : Closure) : v ≠ .closure c := by
  unfold apply at hValue
  split at hValue
  · exact applyInt_plain hValue c
  · cases hValue

end FeatherScript
