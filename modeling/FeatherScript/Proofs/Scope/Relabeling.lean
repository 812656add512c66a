import FeatherScript.Proofs.Scope.Extension
import FeatherScript.Proofs.Scope.Renumbering
import FeatherScript.Proofs.Scope.Rooted

/-!
# Closures under other serial numbers

The serial number of a closure tells it apart from others and does nothing else. So scopes in which
the closures have other serial numbers bind the same names in the same places, and names resolve to
the same values up to these numbers.

* `Closure.relabel`, `Value.relabel`, `Scopes.relabel`: other serial numbers.
* `relabel_write`, `relabel_enclose`: the scopes may be changed before or after.
* `resolve_relabel`, `assignee_relabel`, `updated_relabel`: what is read and where is written.
* `relabel_eq_self`: where no closure that is bound changes its number, nothing changes.
-/

namespace FeatherScript

variable (f : Nat → Nat)

/-- A closure with another serial number. -/
def Closure.relabel (c : Closure) : Closure := { c with serial := f c.serial }

def Value.relabel : Value → Value
  | .closure c => .closure (c.relabel f)
  | v => v

/-- A scope with other serial numbers for the closures it binds. -/
def Scope.relabel (s : Scope) : Scope :=
  { s with bindings := s.bindings.map fun b => (b.1, b.2.relabel f) }

/-- Scopes with other serial numbers for all closures. -/
def Scopes.relabel (g : Scopes) : Scopes := ⟨g.all.map (·.relabel f)⟩

theorem Value.relabel_eq_null {v : Value} : v.relabel f = .null ↔ v = .null := by
  cases v <;> simp [relabel]

theorem Value.relabel_eq_self {v : Value} (h : ∀ c, v = .closure c → f c.serial = c.serial) :
    v.relabel f = v := by
  cases v with
  | closure c => rw [relabel, Closure.relabel, h c rfl]
  | _ => rfl

theorem Scope.lookup?_relabel (s : Scope) (name : Name) :
    (s.relabel f).lookup? name = (s.lookup? name).map (·.relabel f) :=
  lookup_mapValues (·.relabel f) s.bindings name

theorem Scope.set_relabel (s : Scope) (name : Name) (v : Value) :
    (s.set name v).relabel f = (s.relabel f).set name (v.relabel f) := by
  simp only [set, relabel, setIn_mapValues]

namespace Scopes

variable (g : Scopes) (id outer target : ScopeId) (name : Name) (v : Value)

theorem scope?_relabel : (g.relabel f).scope? id = (g.scope? id).map (·.relabel f) :=
  Array.getElem?_map

theorem size_relabel : (g.relabel f).all.size = g.all.size :=
  Array.size_map

theorem parent?_relabel : (g.relabel f).parent? id = g.parent? id := by
  rw [parent?, parent?, scope?_relabel]
  cases g.scope? id <;> rfl

theorem lookup?_relabel :
    (g.relabel f).lookup? id name = (g.lookup? id name).map (·.relabel f) := by
  unfold lookup?
  rw [scope?_relabel]
  cases g.scope? id with
  | none => rfl
  | some scope => exact scope.lookup?_relabel f name

theorem binds_relabel : (g.relabel f).binds id name = g.binds id name := by
  rw [binds_eq_isSome, binds_eq_isSome, lookup?_relabel, Option.isSome_map]

theorem chain_relabel : (g.relabel f).chain id = g.chain id := by
  by_cases hOld : id < g.all.size
  · have hExtends : g.Extends (g.relabel f) := by
      refine ⟨Nat.le_of_eq (g.size_relabel f).symm, fun id _ => g.parent?_relabel f id, ?_⟩
      intro id name hBinds
      rwa [binds_relabel]
    exact hExtends.chain_eq hOld
  · have hNone : g.scope? id = none := Array.getElem?_eq_none (Nat.le_of_not_lt hOld)
    have hNone' : (g.relabel f).scope? id = none := by rw [scope?_relabel, hNone, Option.map_none]
    rw [chain_of_none hNone, chain_of_none hNone']

/-! ## Names -/

theorem owner?_relabel : (g.relabel f).owner? id name = g.owner? id name := by
  unfold owner?
  rw [chain_relabel]
  simp only [binds_relabel]

theorem resolve_relabel : (g.relabel f).resolve id name = (g.resolve id name).relabel f := by
  rw [resolve_eq, resolve_eq, owner?_relabel]
  cases g.owner? id name with
  | none => rfl
  | some owner =>
    rw [Option.bind_some, Option.bind_some, lookup?_relabel]
    cases g.lookup? owner name <;> rfl

theorem assignee_relabel : (g.relabel f).assignee id name = g.assignee id name := by
  unfold assignee
  simp only [resolve_relabel, owner?_relabel, Value.relabel_eq_null]

theorem updated_relabel : (g.relabel f).updated id name = g.updated id name := by
  unfold updated root
  rw [owner?_relabel, chain_relabel]

/-! ## Changes -/

theorem ext_scope? {g g' : Scopes} (h : ∀ id, g.scope? id = g'.scope? id) : g = g' := by
  obtain ⟨all⟩ := g
  obtain ⟨all'⟩ := g'
  exact congrArg Scopes.mk (Array.ext_getElem? h)

theorem relabel_write :
    (g.write target name v).relabel f = (g.relabel f).write target name (v.relabel f) := by
  refine ext_scope? fun id => ?_
  rw [scope?_relabel, scope?_write, scope?_write, scope?_relabel]
  by_cases hTarget : target = id
  · rw [if_pos hTarget, if_pos hTarget]
    cases g.scope? id with
    | none => rfl
    | some scope => exact congrArg some (scope.set_relabel f name v)
  · rw [if_neg hTarget, if_neg hTarget]

theorem relabel_enclose : (g.enclose outer).2.relabel f = ((g.relabel f).enclose outer).2 :=
  congrArg Scopes.mk Array.map_push

theorem relabel_addRoot : g.addRoot.2.relabel f = (g.relabel f).addRoot.2 :=
  congrArg Scopes.mk Array.map_push

variable {g f}

/-- Where all closures that are bound keep their numbers, nothing changes. -/
theorem relabel_eq_self (h : ∀ id c, g.Stores id c → f c.serial = c.serial) : g.relabel f = g := by
  refine ext_scope? fun id => ?_
  rw [scope?_relabel]
  cases hScope : g.scope? id with
  | none => rfl
  | some scope =>
    have hBindings : scope.bindings.map (fun b => (b.1, b.2.relabel f)) = scope.bindings := by
      refine (List.map_congr_left ?_).trans (List.map_id _)
      rintro ⟨name, v⟩ hMem
      refine congrArg (Prod.mk name) (Value.relabel_eq_self f ?_)
      rintro c rfl
      exact h id c ⟨scope, name, hScope, hMem⟩
    rw [Option.map_some, Scope.relabel, hBindings]

end Scopes

end FeatherScript
