import FeatherScript.Proofs.Eval.Effects
import FeatherScript.Proofs.Scope.Extension
import FeatherScript.Proofs.Scope.Renumbering

/-!
# Scopes that lead to roots

In scopes that refer to older and existing scopes only, every chain comes to a root: each scope on
it is followed by its parent, and the last one has none. Binding a value that refers to existing
scopes keeps this, and so does making a scope inside an existing one.

* `Scopes.LeadsToRoot`: the scopes of a list, from a scope over its parents to a root.
* `Scopes.Knows`: a value refers to existing scopes only.
* `Scopes.Closed`: parents are older, and the closures that are bound refer to existing scopes.
* `Closed.leadsToRoot`: the chain of a scope leads to a root.
-/

namespace FeatherScript.Scopes

variable {g g' : Scopes} {id outer target : ScopeId} {name : Name} {value : Value}
  {path : List ScopeId}

/-- From a scope one comes over its parents, which are listed, to a root, the last of them. -/
inductive LeadsToRoot (g : Scopes) : ScopeId → List ScopeId → Prop
  | root {id : ScopeId} {scope : Scope} (hScope : g.scope? id = some scope)
      (hRoot : scope.parent = none) : LeadsToRoot g id [id]
  | inner {id outer : ScopeId} {path : List ScopeId} (hParent : g.parent? id = some outer)
      (h : LeadsToRoot g outer path) : LeadsToRoot g id (id :: path)

/-- A value refers to existing scopes only. -/
def Knows (g : Scopes) (value : Value) : Prop := ∀ c, value = .closure c → c.scope < g.all.size

/-- Scopes that refer to existing scopes only, the parent of each being older. -/
structure Closed (g : Scopes) : Prop where
  parents : ∀ id outer, g.parent? id = some outer → outer < id
  stored : ∀ id c, g.Stores id c → c.scope < g.all.size

theorem Knows.extend (h : g.Knows value) (hExtends : g.Extends g') : g'.Knows value :=
  fun c hClosure => Nat.lt_of_lt_of_le (h c hClosure) hExtends.size

theorem knows_plain (h : ∀ c, value ≠ .closure c) : g.Knows value :=
  fun c hClosure => absurd hClosure (h c)

theorem LeadsToRoot.lt_size (h : g.LeadsToRoot id path) : ∀ scope ∈ path, scope < g.all.size := by
  induction h with
  | root hScope =>
    intro scope hMem
    rw [List.mem_singleton.mp hMem]
    exact lt_size_of_scope? hScope
  | inner hParent h ih =>
    intro scope hMem
    rcases List.mem_cons.mp hMem with rfl | hMem
    · obtain ⟨own, hScope, -⟩ := Option.bind_eq_some_iff.mp hParent
      exact lt_size_of_scope? hScope
    · exact ih scope hMem

namespace Closed

/-- The chain of a scope leads to a root. -/
theorem leadsToRoot (h : g.Closed) (hOld : id < g.all.size) : g.LeadsToRoot id (g.chain id) := by
  induction id using Nat.strongRecOn with
  | ind id ih =>
    rw [chain_of_lt hOld]
    cases hParent : g.parent? id with
    | none =>
      have hScope := scope?_of_lt hOld
      rw [parent?, hScope, Option.bind_some] at hParent
      exact .root hScope hParent
    | some outer =>
      have hLess := h.parents id outer hParent
      rw [Option.filter_some, if_pos (decide_eq_true hLess), Option.elim_some]
      exact .inner hParent (ih outer hLess (Nat.lt_trans hLess hOld))

/-- The value of a name refers to existing scopes only. -/
theorem knows_resolve (h : g.Closed) : g.Knows (g.resolve id name) :=
  stored_resolve h.stored

theorem write (h : g.Closed) (hValue : g.Knows value) : (g.write target name value).Closed := by
  refine ⟨fun id outer hParent => ?_, fun id c hStores => ?_⟩
  · rw [parent?_write] at hParent
    exact h.parents id outer hParent
  · rw [size_write]
    exact stored_write h.stored hValue id c hStores

theorem add {around : Option ScopeId} (h : g.Closed)
    (hAround : ∀ outer, around = some outer → outer < g.all.size) : (g.add around).2.Closed := by
  refine ⟨fun id parent hParent => ?_, fun id c hStores => ?_⟩
  · rw [parent?, scope?_add] at hParent
    split at hParent
    · next hNew =>
      rw [hNew]
      exact hAround parent hParent
    · exact h.parents id parent hParent
  · have hKnown := h.stored id c (stores_add hStores)
    rw [size_add]
    exact Nat.lt_succ_of_lt hKnown

theorem enclose (h : g.Closed) (hOuter : outer < g.all.size) : (g.enclose outer).2.Closed := by
  refine h.add fun other hOther => ?_
  cases hOther
  exact hOuter

theorem addRoot (h : g.Closed) : g.addRoot.2.Closed := h.add nofun

end Closed

theorem closed_initial : initial.Closed := by
  refine ⟨fun id outer hParent => ?_, fun id c hStores => absurd hStores not_stores_initial⟩
  obtain ⟨scope, hScope, hOuter⟩ := Option.bind_eq_some_iff.mp hParent
  obtain ⟨hId, hScope⟩ := Array.getElem?_eq_some_iff.mp hScope
  have hZero : id = 0 := Nat.lt_one_iff.mp hId
  subst hZero
  cases hScope
  cases hOuter

/-! ## Names -/

theorem lt_size_of_binds (hBinds : g.binds id name = true) : id < g.all.size := by
  rw [binds_eq_isSome] at hBinds
  obtain ⟨v, hLookup⟩ := Option.isSome_iff_exists.mp hBinds
  exact lt_size_of_lookup? hLookup

/-- A new scope binds nothing, and the others what they did. -/
theorem binds_add {around : Option ScopeId} :
    (g.add around).2.binds id name = g.binds id name := by
  refine Bool.eq_iff_iff.mpr ⟨fun hBinds => ?_, extends_add.names id name⟩
  rw [binds_eq_isSome] at hBinds ⊢
  obtain ⟨v, hLookup⟩ := Option.isSome_iff_exists.mp hBinds
  exact Option.isSome_iff_exists.mpr ⟨v, lookup?_add_cases hLookup⟩

theorem binds_enclose : (g.enclose outer).2.binds id name = g.binds id name := binds_add

/-- A write binds a name in a scope, and no other. -/
theorem binds_write_iff {n : Name} (hTarget : target < g.all.size) :
    (g.write target name value).binds id n = true ↔
      g.binds id n = true ∨ (target = id ∧ name = n) := by
  by_cases hSame : target = id ∧ name = n
  · obtain ⟨rfl, rfl⟩ := hSame
    simp [binds_write_self hTarget]
  · have hOther : target ≠ id ∨ n ≠ name := by
      rcases Decidable.not_and_iff_not_or_not.mp hSame with hScope | hName
      · exact .inl hScope
      · exact .inr (Ne.symm hName)
    rw [binds_eq_isSome, lookup?_write_of_ne hOther, ← binds_eq_isSome]
    simp [hSame]

/-! ## Where writes go -/

theorem assignee_lt_size (hEnv : id < g.all.size) (name : Name) :
    g.assignee id name < g.all.size := by
  rcases Eval.Effect.assignee_cases g id name with hOwner | hSame
  · obtain ⟨v, hLookup⟩ := lookup?_of_owner? hOwner
    exact lt_size_of_lookup? hLookup
  · rwa [hSame]

/-- The scope that an update writes to, seen from a scope. -/
def updated (g : Scopes) (id : ScopeId) (name : Name) : ScopeId :=
  (g.owner? id name).getD (g.root id)

theorem updated_lt_size (h : g.Closed) (hOld : id < g.all.size) (name : Name) :
    g.updated id name < g.all.size := by
  unfold updated
  cases hOwner : g.owner? id name with
  | some owner =>
    obtain ⟨v, hLookup⟩ := lookup?_of_owner? hOwner
    exact lt_size_of_lookup? hLookup
  | none =>
    have hChain := chain_of_lt hOld
    have hLast : g.root id ∈ g.chain id := by
      rw [root, hChain, List.getLastD_cons]
      exact List.getLastD_mem_cons
    exact (h.leadsToRoot hOld).lt_size _ hLast

end FeatherScript.Scopes
