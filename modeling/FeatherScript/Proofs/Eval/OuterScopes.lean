import FeatherScript.Proofs.Eval.Invariant

/-!
# Calls declare nothing outside

Whatever a call does, and however deep the calls inside it are, it declares names only in scopes
that were made during the call. A scope that was there before keeps its names, and what was null in
it remains null: an assignment to a name that reads as null declares it in the scope at hand. So a
call can only replace values that are not null.

* `Scopes.Keeps`: what a call leaves as it was.
* `outerScopes`: the invariant of everything that is evaluated in scopes made since a given state.
* `applyWith_keeps`: the theorem.
-/

namespace FeatherScript

namespace Scopes

variable {g₀ g : Scopes} {outer target : ScopeId} {name : Name} {value : Value}

/-- Every binding of an older scope is as it was, or its value was not null and was replaced. -/
structure Replaces (g₀ g : Scopes) : Prop where
  size : g₀.all.size ≤ g.all.size
  bindings : ∀ id < g₀.all.size, ∀ name, g.lookup? id name = g₀.lookup? id name ∨
    ∃ v w, v ≠ .null ∧ g₀.lookup? id name = some v ∧ g.lookup? id name = some w

namespace Replaces

theorem refl (g : Scopes) : g.Replaces g := ⟨Nat.le_refl _, fun _ _ _ => .inl rfl⟩

/-- A new scope is no older one. -/
theorem enclose (h : g₀.Replaces g) : g₀.Replaces (g.enclose outer).2 := by
  have hSize := h.size
  refine ⟨?_, fun id hOld name => ?_⟩
  · rw [size_enclose]
    omega
  · have hStill : id < g.all.size := by omega
    rw [lookup?_enclose_of_lt hStill]
    exact h.bindings id hOld name

/-- Writes to newer scopes, and to bindings that are not null. -/
theorem write (h : g₀.Replaces g)
    (hTarget : target < g₀.all.size → ∃ v, v ≠ .null ∧ g.lookup? target name = some v) :
    g₀.Replaces (g.write target name value) := by
  refine ⟨?_, fun id hOld n => ?_⟩
  · rw [size_write]
    exact h.size
  · by_cases hSame : target = id ∧ n = name
    · obtain ⟨rfl, rfl⟩ := hSame
      obtain ⟨v, hNull, hLookup⟩ := hTarget hOld
      rw [lookup?_write_self (lt_size_of_lookup? hLookup)]
      rcases h.bindings target hOld n with hSame | ⟨v₀, w, hOldNull, hOldLookup, -⟩
      · exact .inr ⟨v, value, hNull, hSame ▸ hLookup, rfl⟩
      · exact .inr ⟨v₀, value, hOldNull, hOldLookup, rfl⟩
    · rw [lookup?_write_of_ne (Decidable.not_and_iff_not_or_not.mp hSame)]
      exact h.bindings id hOld n

end Replaces

/-- A scope that was there before keeps its names and its nulls, and all other values that changed
were not null. -/
structure Keeps (g₀ g : Scopes) : Prop where
  names : ∀ id < g₀.all.size, ∀ name, g.binds id name = g₀.binds id name
  nulls : ∀ id < g₀.all.size, ∀ name, g₀.lookup? id name = some .null →
    g.lookup? id name = some .null
  replaced : ∀ id < g₀.all.size, ∀ name, g.lookup? id name ≠ g₀.lookup? id name →
    ∃ v w, v ≠ .null ∧ g₀.lookup? id name = some v ∧ g.lookup? id name = some w

theorem Replaces.keeps (h : g₀.Replaces g) : g₀.Keeps g := by
  refine ⟨fun id hOld name => ?_, fun id hOld name hNull => ?_, fun id hOld name hChanged => ?_⟩
  · rw [binds_eq_isSome, binds_eq_isSome]
    rcases h.bindings id hOld name with hSame | ⟨v, w, -, hBefore, hAfter⟩
    · rw [hSame]
    · rw [hBefore, hAfter, Option.isSome_some, Option.isSome_some]
  · rcases h.bindings id hOld name with hSame | ⟨v, w, hValue, hBefore, -⟩
    · rw [hSame, hNull]
    · cases hNull.symm.trans hBefore
      exact absurd rfl hValue
  · exact (h.bindings id hOld name).resolve_left hChanged

end Scopes

namespace Eval

open Effect

variable {cfg : Setting} {g₀ : Scopes} {env : ScopeId} {name : Name} {value : Value} {s : State}

/-- An assignment in a newer scope writes that scope, or a binding that is not null. -/
theorem replaces_assign (hEnv : g₀.all.size ≤ env) (h : g₀.Replaces s.scopes) :
    g₀.Replaces (s.scopes.write (s.scopes.assignee env name) name value) := by
  refine h.write fun hOld => ?_
  by_cases hNull : s.scopes.resolve env name = .null
  · rw [Scopes.assignee, if_pos hNull] at hOld
    exact absurd hOld (Nat.not_lt_of_le hEnv)
  · obtain ⟨owner, hOwner, hLookup⟩ := Scopes.owner?_of_resolve hNull
    rw [Scopes.assignee, if_neg hNull, hOwner]
    exact ⟨_, hNull, hLookup⟩

/-- A declaration in a newer scope writes that scope. -/
theorem replaces_declare (hEnv : g₀.all.size ≤ env) (h : g₀.Replaces s.scopes) :
    g₀.Replaces (s.scopes.write env name value) :=
  h.write fun hOld => absurd hOld (Nat.not_lt_of_le hEnv)

/-- A closure is applied in a newer scope. -/
theorem replaces_bindParams {c : Closure} {span : Option Span} {params : List Name}
    {args : List Value} (h : g₀.Replaces s.scopes) :
    Ensures (bindParams s.scopes.all.size span params args)
      { s with scopes := (s.scopes.enclose c.scope).2 } (fun t => g₀.Replaces t.scopes)
      fun _ _ => True :=
  bindParams_ensures h.enclose fun _ _ _ hBound _ _ => replaces_declare h.size hBound

/-- What is evaluated in scopes made since a given state replaces only values that are not null. -/
def outerScopes (cfg : Setting) (g₀ : Scopes) : Invariant cfg where
  Holds s := g₀.Replaces s.scopes
  Later _ _ := True
  Valid _ _ := True
  Here m := g₀.all.size ≤ m.env
  refl _ := trivial
  trans _ _ := trivial
  valid_later _ _ := trivial
  valid_plain _ := trivial
  inside hHere hInside _ := by
    rw [hInside.env_eq]
    exact hHere
  applies _ hApplies hHolds _ _ _ := by
    rw [hApplies.env_eq]
    exact hHolds.size
  resolved _ _ := trivial
  printed hHolds := ⟨hHolds, trivial⟩
  deeper hHolds := ⟨hHolds, trivial⟩
  declared hHere _ hHolds _ _ := ⟨replaces_declare hHere hHolds, trivial⟩
  assigned hHere _ hHolds _ := ⟨replaces_assign hHere hHolds, trivial⟩
  made _ hMakes hHolds := ⟨by cases hMakes; exact hHolds, trivial, trivial⟩
  bound hHolds _ _ _ :=
    Ensures.imp (replaces_bindParams hHolds) (fun _ h => ⟨h, trivial⟩) fun _ _ _ h => h

/-- From the start of a call to its end, with a value or an error or for lack of fuel, the scopes
that were there before keep their names and their nulls. An assignment updates a binding only where
its name has one, and writes nowhere but there or in the scope at hand. -/
theorem applyWith_keeps (cfg : Setting) (fuel : Nat) (c : Closure) (args : List Value) (span : Span)
    (s : State) :
    Ensures (applyWith cfg (eval cfg fuel) c args span) s (fun t => s.scopes.Keeps t.scopes)
      (fun _ _ => True) ∧
    (∀ m m', Enters cfg fuel c args span s m → Visits cfg m m' →
      s.scopes.Keeps m'.state.scopes) ∧
    ∀ (t : State) (env : ScopeId) (name : Name) (value : Value) (place : Option Span),
      (t.scopes.resolve env name ≠ .null ∨ t.scopes.binds env name = true →
        ∃ owner, t.scopes.owner? env name = some owner ∧
          t.scopes.update env name value = t.scopes.write owner name value) ∧
      ∃ target, (t.scopes.owner? env name = some target ∨ target = env) ∧
        assign env name value place t
          = .ok () { t with scopes := t.scopes.write target name value } := by
  let inv := outerScopes cfg s.scopes
  have hStart : inv.Holds s := .refl s.scopes
  have hInner : ∀ m, Enters cfg fuel c args span s m → inv.Here m := by
    intro m hEnters
    exact Nat.le_of_eq hEnters.env_eq.symm
  refine ⟨?_, fun m m' hEnters hVisits => ?_, fun t env name value place => ⟨fun hUpdate => ?_, ?_⟩⟩
  · have hCall : inv.Sound s s (applyWith cfg (eval cfg fuel) c args span) :=
      Invariant.applyWith_sound (.start hStart) trivial (fun _ _ => trivial)
        fun m hEnters hReached => Invariant.eval_ensures (hInner m hEnters) hReached.1
    exact Ensures.imp hCall (fun _ hReached => hReached.1.keeps) fun _ _ _ _ => trivial
  · have hBody := Invariant.reached_of_enters hStart trivial (fun _ _ => trivial) hEnters
    exact (Invariant.holds_of_visits (hInner m hEnters) hBody.1 hVisits).2.1.keeps
  · have hOwner := owner?_eq_assignee hUpdate
    exact ⟨_, hOwner, by rw [Scopes.update, hOwner, Option.getD_some]⟩
  · exact ⟨_, assignee_cases t.scopes env name, assign_eq⟩

/-- A program in which node 1 is `x = 1`. -/
def assignOne : Setting :=
  ⟨⟨#[⟨.int 1, ⟨4, 5⟩⟩, ⟨.assign ⟨1⟩ 0, ⟨0, 5⟩⟩], #[], #[]⟩, .strict, 1⟩

/-- The function `function () x = 1`, made in the root. -/
def assigner : Closure := ⟨0, ⟨0, 0⟩, 1, Scopes.global⟩

/-- A state in which `x` is null in the root. -/
def nullBinding : State := ⟨⟨#[⟨[(⟨1⟩, .null)], none⟩]⟩, #[], 1, 0⟩

/-- When the function is called, `x` is still null in the root when its new value is evaluated. -/
theorem applyWith_keeps_nullBinding :
    (∃ m m', Enters assignOne 2 assigner [] ⟨8, 11⟩ nullBinding m ∧ Visits assignOne m m' ∧
      m'.node = 0 ∧ nullBinding.scopes.Keeps m'.state.scopes) ∧
    ∃ owner, nullBinding.scopes.owner? Scopes.global ⟨1⟩ = some owner := by
  obtain ⟨-, hVisited, hOwned⟩ := applyWith_keeps assignOne 2 assigner [] ⟨8, 11⟩ nullBinding
  have hEnters : Enters assignOne 2 assigner [] ⟨8, 11⟩ nullBinding _ :=
    .body (by decide) rfl (by decide) rfl
  have hNode : assignOne.table.node? assigner.body = some ⟨.assign ⟨1⟩ 0, ⟨0, 5⟩⟩ := rfl
  refine ⟨⟨_, _, hEnters, .next .start (.inside (.assigned hNode)), rfl, ?_⟩, ?_⟩
  · exact hVisited _ _ hEnters (.next .start (.inside (.assigned hNode)))
  · obtain ⟨hOwner, -⟩ := hOwned nullBinding Scopes.global ⟨1⟩ .null none
    obtain ⟨owner, hOwner, -⟩ := hOwner (.inr rfl)
    exact ⟨owner, hOwner⟩

end Eval

end FeatherScript
