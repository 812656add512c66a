import FeatherScript.Scope

/-!
# Chains and owners

A chain goes from a scope to its parent, which is older, and so on to a root. It depends on the
parents of the scopes on it alone: binding a name changes no chain, and a new scope is on no chain
but its own. The owner of a name is the first scope on a chain that binds it.

* `chain_of_scope?`, `owner?_of_scope?`: one step along the chain.
* `owner?_of_binds`, `lookup?_of_owner?`: an owner binds its name, and a scope that binds a name
  owns it for itself.
* `lookup?_write_of_ne`, `scope?_add_of_lt`: what a write and a new scope leave as it was.
-/

namespace FeatherScript

namespace Scopes

variable {g g' : Scopes} {id outer target : ScopeId} {around : Option ScopeId} {name n : Name}
  {value : Value}

def lookup? (g : Scopes) (id : ScopeId) (name : Name) : Option Value :=
  (g.scope? id).bind (·.lookup? name)

theorem binds_eq_isSome : g.binds id name = (g.lookup? id name).isSome := by
  unfold binds lookup?
  cases g.scope? id <;> rfl

theorem resolve_eq : g.resolve id name =
    ((g.owner? id name).bind (g.lookup? · name)).getD .null := by
  unfold resolve lookup?
  cases g.owner? id name <;> rfl

/-! ## One step along a chain -/

theorem chain_of_scope? {scope : Scope} (hScope : g.scope? id = some scope) :
    g.chain id = id :: (scope.parent.filter (· < id)).elim [] g.chain := by
  rw [chain, hScope]
  cases hParent : scope.parent with
  | none => simp [hParent]
  | some parent =>
    by_cases hLess : parent < id
    · simp [hParent, hLess, Option.filter]
    · simp [hParent, hLess, Option.filter]

theorem chain_of_none (hScope : g.scope? id = none) : g.chain id = [] := by
  rw [chain, hScope]

theorem owner?_of_scope? {scope : Scope} (hScope : g.scope? id = some scope) :
    g.owner? id name = if scope.binds name then some id
      else (scope.parent.filter (· < id)).bind (g.owner? · name) := by
  have hBinds : g.binds id name = scope.binds name := by simp [binds, hScope]
  unfold owner?
  rw [chain_of_scope? hScope, List.find?_cons, hBinds]
  cases scope.binds name with
  | true => rfl
  | false =>
    cases scope.parent.filter (· < id) <;> rfl

theorem owner?_of_none (hScope : g.scope? id = none) : g.owner? id name = none := by
  rw [owner?, chain_of_none hScope]
  rfl

/-! ## Owners -/

/-- A scope that binds a name is its owner for itself. -/
theorem owner?_of_binds (hBinds : g.binds id name = true) : g.owner? id name = some id := by
  cases hScope : g.scope? id with
  | none => simp [binds, hScope] at hBinds
  | some scope =>
    have hOwn : scope.binds name = true := by simpa [binds, hScope] using hBinds
    rw [owner?_of_scope? hScope, if_pos hOwn]

/-- An owner binds its name. -/
theorem lookup?_of_owner? {owner : ScopeId} (hOwner : g.owner? id name = some owner) :
    ∃ v, g.lookup? owner name = some v := by
  have hBinds : g.binds owner name = true := by simpa using List.find?_some hOwner
  rw [binds_eq_isSome] at hBinds
  exact Option.isSome_iff_exists.mp hBinds

theorem resolve_of_owner? {owner : ScopeId} {v : Value} (hOwner : g.owner? id name = some owner)
    (hValue : g.lookup? owner name = some v) : g.resolve id name = v := by
  rw [resolve_eq, hOwner, Option.bind_some, hValue, Option.getD_some]

theorem resolve_of_no_owner (hOwner : g.owner? id name = none) : g.resolve id name = .null := by
  rw [resolve_eq, hOwner]
  rfl

theorem owner?_of_resolve (hValue : g.resolve id name ≠ .null) :
    ∃ owner, g.owner? id name = some owner ∧ g.lookup? owner name = some (g.resolve id name) := by
  cases hOwner : g.owner? id name with
  | none => exact absurd (resolve_of_no_owner hOwner) hValue
  | some owner =>
    obtain ⟨v, hLookup⟩ := lookup?_of_owner? hOwner
    exact ⟨owner, rfl, resolve_of_owner? hOwner hLookup ▸ hLookup⟩

/-! ## Writing and adding -/

theorem scope?_write : (g.write target name value).scope? id =
    if target = id then (g.scope? id).map (·.set name value) else g.scope? id :=
  Array.getElem?_modify

theorem scope?_add : (g.add around).2.scope? id =
    if id = g.all.size then some ⟨[], around⟩ else g.scope? id :=
  Array.getElem?_push

theorem scope?_enclose : (g.enclose outer).2.scope? id =
    if id = g.all.size then some ⟨[], some outer⟩ else g.scope? id :=
  scope?_add

theorem size_write : (g.write target name value).all.size = g.all.size :=
  Array.size_modify

theorem size_add : (g.add around).2.all.size = g.all.size + 1 :=
  Array.size_push _

theorem size_enclose : (g.enclose outer).2.all.size = g.all.size + 1 :=
  size_add

/-- A write changes one binding of one scope. -/
theorem lookup?_write_of_ne (hOther : target ≠ id ∨ n ≠ name) :
    (g.write target name value).lookup? id n = g.lookup? id n := by
  unfold lookup?
  rw [scope?_write]
  by_cases hTarget : target = id
  · have hName : n ≠ name := hOther.resolve_left (· hTarget)
    rw [if_pos hTarget]
    cases g.scope? id with
    | none => rfl
    | some scope => exact (Scope.lookup?_set scope name n value).trans (if_neg hName)
  · rw [if_neg hTarget]

theorem lookup?_write_self (hTarget : target < g.all.size) :
    (g.write target name value).lookup? target name = some value := by
  have hScope : g.scope? target = some g.all[target] := Array.getElem?_eq_getElem hTarget
  unfold lookup?
  rw [scope?_write, if_pos rfl, hScope]
  exact (Scope.lookup?_set _ name name value).trans (if_pos rfl)

theorem lt_size_of_lookup? {v : Value} (hLookup : g.lookup? id name = some v) :
    id < g.all.size := by
  obtain ⟨scope, hScope, -⟩ := Option.bind_eq_some_iff.mp hLookup
  exact (Array.getElem?_eq_some_iff.mp hScope).1

/-- A new scope changes no older one. -/
theorem scope?_add_of_lt (hOld : id < g.all.size) : (g.add around).2.scope? id = g.scope? id := by
  rw [scope?_add, if_neg (Nat.ne_of_lt hOld)]

theorem scope?_enclose_of_lt (hOld : id < g.all.size) :
    (g.enclose outer).2.scope? id = g.scope? id :=
  scope?_add_of_lt hOld

theorem lookup?_add_of_lt (hOld : id < g.all.size) :
    (g.add around).2.lookup? id name = g.lookup? id name := by
  unfold lookup?
  rw [scope?_add_of_lt hOld]

theorem lookup?_enclose_of_lt (hOld : id < g.all.size) :
    (g.enclose outer).2.lookup? id name = g.lookup? id name :=
  lookup?_add_of_lt hOld

theorem parent?_write : (g.write target name value).parent? id = g.parent? id := by
  unfold parent?
  rw [scope?_write]
  split
  · cases g.scope? id <;> rfl
  · rfl

end Scopes

end FeatherScript
