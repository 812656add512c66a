import FeatherScript.Proofs.Scope.Chain

/-!
# Scopes that grow

While a program runs, scopes are added and names are bound, and nothing is taken back: a scope keeps
its parent and its names. So the chain of a scope never changes.

* `Extends`: some scopes after others.
* `extends_write`, `extends_add`: writing a binding and making a scope.
* `Extends.chain_eq`: chains do not change.
-/

namespace FeatherScript.Scopes

variable {g g' g'' : Scopes} {id outer target : ScopeId} {around : Option ScopeId} {name n : Name}
  {v value : Value}

/-- Scopes keep their parents and their names, and others may be added. -/
structure Extends (g g' : Scopes) : Prop where
  size : g.all.size ≤ g'.all.size
  parents : ∀ id < g.all.size, g'.parent? id = g.parent? id
  names : ∀ id name, g.binds id name = true → g'.binds id name = true

namespace Extends

theorem refl (g : Scopes) : g.Extends g := ⟨Nat.le_refl _, fun _ _ => rfl, fun _ _ h => h⟩

theorem trans (h : g.Extends g') (h' : g'.Extends g'') : g.Extends g'' := by
  have hSize := h.size
  have hSize' := h'.size
  refine ⟨by omega, fun id hOld => ?_, fun id name hBinds => ?_⟩
  · have hStill : id < g'.all.size := by omega
    rw [h'.parents id hStill, h.parents id hOld]
  · exact h'.names id name (h.names id name hBinds)

end Extends

/-! ## Chains -/

theorem scope?_of_lt (hOld : id < g.all.size) : g.scope? id = some g.all[id] :=
  Array.getElem?_eq_getElem hOld

theorem chain_of_lt (hOld : id < g.all.size) :
    g.chain id = id :: ((g.parent? id).filter (· < id)).elim [] g.chain := by
  rw [chain_of_scope? (scope?_of_lt hOld), parent?, scope?_of_lt hOld]
  rfl

/-- The chain of a scope does not change. -/
theorem Extends.chain_eq (h : g.Extends g') (hOld : id < g.all.size) :
    g'.chain id = g.chain id := by
  induction id using Nat.strongRecOn with
  | ind id ih =>
    have hStill : id < g'.all.size := Nat.lt_of_lt_of_le hOld h.size
    rw [chain_of_lt hOld, chain_of_lt hStill, h.parents id hOld]
    cases hOuter : (g.parent? id).filter (· < id) with
    | none => rfl
    | some outer =>
      have hLess : outer < id := by
        simpa using (Option.filter_eq_some_iff.mp hOuter).2
      have hOuterOld : outer < g.all.size := Nat.lt_trans hLess hOld
      rw [Option.elim_some, Option.elim_some, ih outer hLess hOuterOld]

/-! ## Writing and adding -/

theorem lookup?_write_cases (hLookup : (g.write target name value).lookup? id n = some v) :
    v = value ∨ g.lookup? id n = some v := by
  by_cases hSame : target = id ∧ n = name
  · obtain ⟨rfl, rfl⟩ := hSame
    have hTarget := lt_size_of_lookup? hLookup
    rw [size_write] at hTarget
    rw [lookup?_write_self hTarget] at hLookup
    exact .inl (Option.some.inj hLookup).symm
  · rw [lookup?_write_of_ne (Decidable.not_and_iff_not_or_not.mp hSame)] at hLookup
    exact .inr hLookup

theorem binds_write_self (hTarget : target < g.all.size) :
    (g.write target name value).binds target name = true := by
  rw [binds_eq_isSome, lookup?_write_self hTarget, Option.isSome_some]

theorem extends_write : g.Extends (g.write target name value) := by
  refine ⟨Nat.le_of_eq size_write.symm, fun _ _ => parent?_write, fun id n hBinds => ?_⟩
  by_cases hSame : target = id ∧ n = name
  · obtain ⟨rfl, rfl⟩ := hSame
    rw [binds_eq_isSome] at hBinds
    obtain ⟨v, hLookup⟩ := Option.isSome_iff_exists.mp hBinds
    exact binds_write_self (lt_size_of_lookup? hLookup)
  · rw [binds_eq_isSome, lookup?_write_of_ne (Decidable.not_and_iff_not_or_not.mp hSame),
      ← binds_eq_isSome]
    exact hBinds

theorem lt_size_enclose (g : Scopes) (outer : ScopeId) :
    g.all.size < (g.enclose outer).2.all.size := by
  rw [size_enclose]
  omega

theorem extends_add : g.Extends (g.add around).2 := by
  refine ⟨?_, fun id hOld => ?_, fun id name hBinds => ?_⟩
  · rw [size_add]
    omega
  · rw [parent?, parent?, scope?_add_of_lt hOld]
  · rw [binds_eq_isSome] at hBinds ⊢
    obtain ⟨v, hLookup⟩ := Option.isSome_iff_exists.mp hBinds
    rw [lookup?_add_of_lt (lt_size_of_lookup? hLookup)]
    exact Option.isSome_iff_exists.mpr ⟨v, hLookup⟩

theorem extends_enclose : g.Extends (g.enclose outer).2 := extends_add

/-- The chain of a new scope goes on with that of the scope around it. -/
theorem chain_enclose (hOuter : outer < g.all.size) :
    (g.enclose outer).2.chain g.all.size = g.all.size :: g.chain outer := by
  have hNew := lt_size_enclose g outer
  have hParent : (g.enclose outer).2.parent? g.all.size = some outer := by
    rw [parent?, scope?_enclose, if_pos rfl]
    rfl
  rw [chain_of_lt hNew, hParent, Option.filter_some, if_pos (decide_eq_true hOuter),
    Option.elim_some, extends_enclose.chain_eq hOuter]

/-- What is bound after a scope was made was bound before, for a new scope binds nothing. -/
theorem lookup?_add_cases (hLookup : (g.add around).2.lookup? id n = some v) :
    g.lookup? id n = some v := by
  unfold lookup? at hLookup ⊢
  rw [scope?_add] at hLookup
  split at hLookup
  · cases hLookup
  · exact hLookup

theorem lookup?_enclose_cases (hLookup : (g.enclose outer).2.lookup? id n = some v) :
    g.lookup? id n = some v :=
  lookup?_add_cases hLookup

end FeatherScript.Scopes
