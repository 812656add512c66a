import FeatherScript.Proofs.Scope.Chain

/-!
# Parts of the scopes, under other numbers

From a scope one comes to others, through parents and through the closures that are bound. What is
not reached in this way plays no part in looking a name up. So the reached part of some scopes can
stand beside other scopes, and new scopes may have other numbers there; names are resolved alike.

* `Scopes.Reachable`: the scopes that one comes to from a scope.
* `Renumbering`: some scopes with other numbers for them, in the same order.
* `Renumbering.Maps`: the known part of some scopes stands in others, under those numbers; it is
  closed, and it may be changed alike in both (`Maps.write`, `Maps.add`).
* `Scopes.accessible`: what is reached from a scope, together with all that is made afterwards.
-/

namespace FeatherScript

/-! ## Other numbers -/

section Renumber

variable (f : ScopeId → ScopeId)

def Closure.renumber (c : Closure) : Closure := { c with scope := f c.scope }

/-- A value with another number for the scope of a closure. -/
def Value.renumber : Value → Value
  | .closure c => .closure (c.renumber f)
  | v => v

/-- A scope with other numbers for its parent and for the scopes of the closures it binds. -/
def Scope.renumber (s : Scope) : Scope :=
  ⟨s.bindings.map fun b => (b.1, b.2.renumber f), s.parent.map f⟩

theorem Value.renumber_eq_null {v : Value} : v.renumber f = .null ↔ v = .null := by
  cases v <;> simp [renumber]

theorem Value.text_renumber (v : Value) : (v.renumber f).text = v.text := by
  cases v <;> rfl

theorem Scope.lookup_mapValues (φ : Value → Value) (bindings : List (Name × Value)) (name : Name) :
    (bindings.map fun b => (b.1, φ b.2)).lookup name = (bindings.lookup name).map φ := by
  induction bindings with
  | nil => rfl
  | cons b rest ih =>
    obtain ⟨m, v⟩ := b
    rw [List.map_cons, lookup_cons, lookup_cons, ih]
    split <;> rfl

theorem Scope.lookup?_renumber (s : Scope) (name : Name) :
    (s.renumber f).lookup? name = (s.lookup? name).map (·.renumber f) :=
  lookup_mapValues (·.renumber f) s.bindings name

theorem Scope.binds_renumber (s : Scope) (name : Name) :
    (s.renumber f).binds name = s.binds name := by
  rw [binds, lookup?_renumber, Option.isSome_map, binds]

theorem Scope.setIn_mapValues (φ : Value → Value) (bindings : List (Name × Value)) (name : Name)
    (v : Value) :
    (setIn name v bindings).map (fun b => (b.1, φ b.2))
      = setIn name (φ v) (bindings.map fun b => (b.1, φ b.2)) := by
  induction bindings with
  | nil => rfl
  | cons b rest ih =>
    obtain ⟨m, w⟩ := b
    rw [List.map_cons, setIn, setIn]
    split
    · rfl
    · rw [List.map_cons, ih]

theorem Scope.mem_setIn {bindings : List (Name × Value)} {name : Name} {v : Value}
    {b : Name × Value} (h : b ∈ setIn name v bindings) : b ∈ bindings ∨ b = (name, v) := by
  induction bindings with
  | nil => exact .inr (List.mem_singleton.mp h)
  | cons head rest ih =>
    obtain ⟨m, w⟩ := head
    rw [setIn] at h
    split at h
    · next hName =>
      rcases List.mem_cons.mp h with hHead | hRest
      · exact .inr (hName ▸ hHead)
      · exact .inl (List.mem_cons_of_mem _ hRest)
    · rcases List.mem_cons.mp h with hHead | hRest
      · exact .inl (hHead ▸ List.mem_cons_self)
      · exact (ih hRest).imp_left (List.mem_cons_of_mem _)

theorem Scope.set_renumber (s : Scope) (name : Name) (v : Value) :
    (s.set name v).renumber f = (s.renumber f).set name (v.renumber f) := by
  simp only [set, renumber, setIn_mapValues]

/-- Where the scopes that a scope refers to keep their numbers, it stays as it is. -/
theorem Scope.renumber_eq {s : Scope} (hParent : ∀ outer, s.parent = some outer → f outer = outer)
    (hClosures : ∀ name c, (name, .closure c) ∈ s.bindings → f c.scope = c.scope) :
    s.renumber f = s := by
  obtain ⟨bindings, parent⟩ := s
  have hBindings : bindings.map (fun b => (b.1, b.2.renumber f)) = bindings := by
    refine (List.map_congr_left ?_).trans (List.map_id bindings)
    rintro ⟨name, v⟩ hMem
    cases v with
    | closure c =>
      have hSame : c.renumber f = c := by rw [Closure.renumber, hClosures name c hMem]
      exact congrArg (fun c => (name, Value.closure c)) hSame
    | _ => rfl
  have hOuter : parent.map f = parent := by
    cases parent with
    | none => rfl
    | some outer => exact congrArg some (hParent outer rfl)
  rw [renumber, hBindings, hOuter]

end Renumber

/-! ## Reaching scopes -/

namespace Scopes

variable {g : Scopes} {id outer target : ScopeId} {around : Option ScopeId} {name : Name}
  {v : Value} {c : Closure}

/-- A closure is bound in a scope. -/
def Stores (g : Scopes) (id : ScopeId) (c : Closure) : Prop :=
  ∃ scope name, g.scope? id = some scope ∧ (name, .closure c) ∈ scope.bindings

/-- From a scope one comes to another: through parents, and through the closures that are bound in
the scopes on the way. -/
inductive Reachable (g : Scopes) (env : ScopeId) : ScopeId → Prop
  | self : Reachable g env env
  | parent {id outer : ScopeId} (h : Reachable g env id) (hParent : g.parent? id = some outer) :
      Reachable g env outer
  | captured {id : ScopeId} {c : Closure} (h : Reachable g env id) (hStores : g.Stores id c) :
      Reachable g env c.scope

theorem lt_size_of_scope? {scope : Scope} (hScope : g.scope? id = some scope) : id < g.all.size :=
  (Array.getElem?_eq_some_iff.mp hScope).1

theorem stores_of_lookup? (hLookup : g.lookup? id name = some (.closure c)) : g.Stores id c := by
  obtain ⟨scope, hScope, hValue⟩ := Option.bind_eq_some_iff.mp hLookup
  refine ⟨scope, name, hScope, ?_⟩
  obtain ⟨before, after, hSplit, -⟩ := List.lookup_eq_some_iff.mp hValue
  rw [hSplit]
  exact List.mem_append_right before List.mem_cons_self

/-- After a write a scope stores what it stored before, and what was written. -/
theorem stores_write (h : (g.write target name v).Stores id c) :
    g.Stores id c ∨ v = .closure c := by
  obtain ⟨scope, n, hScope, hMem⟩ := h
  rw [scope?_write] at hScope
  split at hScope
  · obtain ⟨old, hOld, rfl⟩ := Option.map_eq_some_iff.mp hScope
    rcases Scope.mem_setIn hMem with hBefore | hWritten
    · exact .inl ⟨old, n, hOld, hBefore⟩
    · cases hWritten
      exact .inr rfl
  · exact .inl ⟨scope, n, hScope, hMem⟩

/-- A new scope stores nothing. -/
theorem stores_add (h : (g.add around).2.Stores id c) : g.Stores id c := by
  obtain ⟨scope, n, hScope, hMem⟩ := h
  rw [scope?_add] at hScope
  split at hScope
  · cases hScope
    cases hMem
  · exact ⟨scope, n, hScope, hMem⟩

theorem stores_enclose (h : (g.enclose outer).2.Stores id c) : g.Stores id c := stores_add h

/-- What holds of the closures that are stored holds after a write, if it holds of what is
written. -/
theorem stored_write {P : Closure → Prop} (h : ∀ id c, g.Stores id c → P c)
    (hValue : ∀ c, v = .closure c → P c) (id : ScopeId) (c : Closure)
    (hStores : (g.write target name v).Stores id c) : P c := by
  rcases stores_write hStores with hBefore | hWritten
  · exact h id c hBefore
  · exact hValue c hWritten

theorem stored_resolve {P : Closure → Prop} (h : ∀ id c, g.Stores id c → P c) (c : Closure)
    (hValue : g.resolve id name = .closure c) : P c := by
  have hBound : g.resolve id name ≠ .null := by
    rw [hValue]
    exact nofun
  obtain ⟨owner, -, hLookup⟩ := owner?_of_resolve hBound
  exact h owner c (stores_of_lookup? (hValue ▸ hLookup))

theorem not_stores_initial : ¬ initial.Stores id c := by
  rintro ⟨scope, name, hScope, hMem⟩
  have hOnly : scope = ⟨[], none⟩ :=
    List.mem_singleton.mp (Array.mem_toList_iff.mpr (Array.mem_of_getElem? hScope))
  rw [hOnly] at hMem
  cases hMem

end Scopes

/-! ## Renumberings -/

/-- Some scopes, with the numbers that they have elsewhere. What is made from now on is among them,
and is made in step; the scopes have the same order elsewhere. -/
structure Renumbering where
  /-- The scopes that are known. -/
  Known : ScopeId → Prop
  /-- The closures that may be bound in them. -/
  Valid : Closure → Prop
  number : ScopeId → ScopeId
  /-- How many scopes there are, here and elsewhere. -/
  here : Nat
  there : Nat
  known_of_valid : ∀ {c}, Valid c → Known c.scope
  known_fresh : ∀ i, Known (here + i)
  number_fresh : ∀ i, number (here + i) = there + i
  lt_iff : ∀ {a b}, Known a → Known b → (number a < number b ↔ a < b)

namespace Renumbering

variable {r : Renumbering} {g g' : Scopes} {id target outer : ScopeId} {name : Name} {v : Value}

theorem number_inj (ha : r.Known id) (hb : r.Known target) (h : r.number id = r.number target) :
    id = target := by
  have hNotLess : ¬ id < target := fun hLess =>
    Nat.lt_irrefl (r.number target) (h ▸ (r.lt_iff ha hb).mpr hLess)
  have hNotMore : ¬ target < id := fun hMore =>
    Nat.lt_irrefl (r.number target) (h ▸ (r.lt_iff hb ha).mpr hMore)
  exact Nat.le_antisymm (Nat.le_of_not_lt hNotMore) (Nat.le_of_not_lt hNotLess)

/-- Some scopes hold the known part of others, under other numbers. The known part is closed under
parents and under the closures that are bound in it. -/
structure Maps (r : Renumbering) (g g' : Scopes) : Prop where
  size : ∃ made, g.all.size = r.here + made ∧ g'.all.size = r.there + made
  scope : ∀ id, r.Known id → g'.scope? (r.number id) = (g.scope? id).map (·.renumber r.number)
  parents : ∀ id outer, r.Known id → g.parent? id = some outer → r.Known outer
  closures : ∀ id c, r.Known id → g.Stores id c → r.Valid c

/-- A value that may be bound in a known scope. -/
def Holds (r : Renumbering) (v : Value) : Prop := ∀ c, v = .closure c → r.Valid c

namespace Maps

variable (h : r.Maps g g') (hKnown : r.Known id)

include h hKnown

theorem lookup?_eq (name : Name) :
    g'.lookup? (r.number id) name = (g.lookup? id name).map (·.renumber r.number) := by
  unfold Scopes.lookup?
  rw [h.scope id hKnown]
  cases g.scope? id with
  | none => rfl
  | some scope => exact Scope.lookup?_renumber r.number scope name

theorem binds_eq (name : Name) : g'.binds (r.number id) name = g.binds id name := by
  rw [Scopes.binds_eq_isSome, Scopes.binds_eq_isSome, h.lookup?_eq hKnown, Option.isSome_map]

/-- A name belongs to the same scope on both sides, and that scope is known. -/
theorem owner?_eq (name : Name) :
    g'.owner? (r.number id) name = (g.owner? id name).map r.number ∧
      ∀ owner, g.owner? id name = some owner → r.Known owner := by
  -- A chain goes on to older scopes only, so this is by induction on the number of the scope.
  induction id using Nat.strongRecOn with
  | ind id ih =>
    have hScope := h.scope id hKnown
    cases hOurs : g.scope? id with
    | none =>
      rw [hOurs] at hScope
      rw [Scopes.owner?_of_none hOurs, Scopes.owner?_of_none hScope]
      exact ⟨rfl, nofun⟩
    | some scope =>
      rw [hOurs] at hScope
      rw [Scopes.owner?_of_scope? hOurs, Scopes.owner?_of_scope? hScope,
        Scope.binds_renumber]
      cases hBinds : scope.binds name with
      | true =>
        refine ⟨rfl, fun owner hOwner => ?_⟩
        cases hOwner
        exact hKnown
      | false =>
        simp only [Scope.renumber, Bool.false_eq_true, if_false]
        cases hParent : scope.parent with
        | none => exact ⟨rfl, nofun⟩
        | some outer =>
          have hOuter : r.Known outer := by
            refine h.parents id outer hKnown ?_
            rw [Scopes.parent?, hOurs]
            exact hParent
          -- The chain breaks off at a parent that is not older, and it does so on both sides.
          by_cases hLess : outer < id
          · have hLess' := (r.lt_iff hOuter hKnown).mpr hLess
            simpa [Option.filter, hLess, hLess'] using ih outer hLess hOuter
          · have hLess' := mt (r.lt_iff hOuter hKnown).mp hLess
            simp [Option.filter, hLess, hLess']

/-- A name has the same value on both sides, up to numbers. -/
theorem resolve_eq (name : Name) :
    g'.resolve (r.number id) name = (g.resolve id name).renumber r.number ∧
      r.Holds (g.resolve id name) := by
  obtain ⟨hOwners, hOwnerKnown⟩ := h.owner?_eq hKnown name
  cases hOwner : g.owner? id name with
  | none =>
    rw [hOwner] at hOwners
    rw [Scopes.resolve_of_no_owner hOwner, Scopes.resolve_of_no_owner hOwners]
    exact ⟨rfl, nofun⟩
  | some owner =>
    rw [hOwner] at hOwners
    have hOwnerKnown := hOwnerKnown owner hOwner
    obtain ⟨v, hValue⟩ := Scopes.lookup?_of_owner? hOwner
    have hValue' := h.lookup?_eq hOwnerKnown name
    rw [hValue] at hValue'
    rw [Scopes.resolve_of_owner? hOwner hValue, Scopes.resolve_of_owner? hOwners hValue']
    refine ⟨rfl, ?_⟩
    rintro c rfl
    exact h.closures owner c hOwnerKnown (Scopes.stores_of_lookup? hValue)

omit hKnown

/-- The same name is bound in the same scope, to the same value up to numbers. -/
theorem write (hTarget : r.Known target) (hValue : r.Holds v) (name : Name) :
    r.Maps (g.write target name v) (g'.write (r.number target) name (v.renumber r.number)) := by
  refine ⟨?_, fun id hId => ?_, fun id outer hId hParent => ?_, fun id c hId hStores => ?_⟩
  · rw [Scopes.size_write, Scopes.size_write]
    exact h.size
  · rw [Scopes.scope?_write, Scopes.scope?_write, h.scope id hId]
    by_cases hSame : target = id
    · subst hSame
      rw [if_pos rfl, if_pos rfl]
      cases g.scope? target with
      | none => rfl
      | some scope => exact congrArg some (Scope.set_renumber r.number scope name v).symm
    · rw [if_neg hSame, if_neg fun hNumber => hSame (number_inj hTarget hId hNumber)]
  · rw [Scopes.parent?_write] at hParent
    exact h.parents id outer hId hParent
  · rcases Scopes.stores_write hStores with hBefore | rfl
    · exact h.closures id c hId hBefore
    · exact hValue c rfl

theorem fresh : r.Known g.all.size ∧ r.number g.all.size = g'.all.size := by
  obtain ⟨made, hHere, hThere⟩ := h.size
  rw [hHere, hThere]
  exact ⟨r.known_fresh made, r.number_fresh made⟩

/-- A scope is made in the same place on both sides. -/
theorem add {around : Option ScopeId} (hAround : ∀ outer, around = some outer → r.Known outer) :
    r.Maps (g.add around).2 (g'.add (around.map r.number)).2 := by
  obtain ⟨hNew, hNumber⟩ := h.fresh
  refine ⟨?_, fun id hId => ?_, fun id parent hId hParent => ?_, fun id c hId hStores => ?_⟩
  · obtain ⟨made, hHere, hThere⟩ := h.size
    rw [Scopes.size_add, Scopes.size_add, hHere, hThere]
    exact ⟨made + 1, rfl, rfl⟩
  · rw [Scopes.scope?_add, Scopes.scope?_add, ← hNumber]
    by_cases hSame : id = g.all.size
    · rw [if_pos hSame, if_pos (congrArg r.number hSame)]
      rfl
    · rw [if_neg hSame, if_neg fun h => hSame (number_inj hId hNew h)]
      exact h.scope id hId
  · rw [Scopes.parent?, Scopes.scope?_add] at hParent
    split at hParent
    · exact hAround parent hParent
    · exact h.parents id parent hId hParent
  · exact h.closures id c hId (Scopes.stores_add hStores)

theorem enclose (hOuter : r.Known outer) :
    r.Maps (g.enclose outer).2 (g'.enclose (r.number outer)).2 := by
  refine h.add fun other hOther => ?_
  cases hOther
  exact hOuter

theorem addRoot : r.Maps g.addRoot.2 g'.addRoot.2 := h.add nofun

end Maps

end Renumbering

/-! ## What is accessible from a scope -/

namespace Scopes

variable {g g' : Scopes} {env id outer : ScopeId} {c : Closure}

/-- A scope can be reached, or it was made later than the given ones. -/
def Accessible (g : Scopes) (env id : ScopeId) : Prop := g.Reachable env id ∨ g.all.size ≤ id

theorem Accessible.reachable (h : g.Accessible env id) (hOld : id < g.all.size) :
    g.Reachable env id :=
  h.resolve_right (Nat.not_le_of_lt hOld)

/-- What is accessible from a scope, with other numbers and with closures of some kind. -/
def accessible (g : Scopes) (env : ScopeId) (Good : Closure → Prop) (number : ScopeId → ScopeId)
    (there : Nat) (hFresh : ∀ i, number (g.all.size + i) = there + i)
    (hOrder : ∀ a b, g.Accessible env a → g.Accessible env b → (number a < number b ↔ a < b)) :
    Renumbering where
  Known := g.Accessible env
  Valid c := g.Accessible env c.scope ∧ Good c
  number := number
  here := g.all.size
  there := there
  known_of_valid := And.left
  known_fresh i := .inr (Nat.le_add_right _ i)
  number_fresh := hFresh
  lt_iff := hOrder _ _

theorem accessible_maps {Good : Closure → Prop} {number : ScopeId → ScopeId}
    {hFresh : ∀ i, number (g.all.size + i) = g'.all.size + i}
    {hOrder : ∀ a b, g.Accessible env a → g.Accessible env b → (number a < number b ↔ a < b)}
    (hScope : ∀ id, g.Accessible env id →
      g'.scope? (number id) = (g.scope? id).map (·.renumber number))
    (hGood : ∀ id c, g.Reachable env id → g.Stores id c → Good c) :
    (g.accessible env Good number g'.all.size hFresh hOrder).Maps g g' := by
  refine ⟨⟨0, rfl, rfl⟩, hScope, fun id outer hId hParent => ?_, fun id c hId hStores => ?_⟩
  · obtain ⟨scope, hSome, -⟩ := Option.bind_eq_some_iff.mp hParent
    exact .inl ((hId.reachable (lt_size_of_scope? hSome)).parent hParent)
  · obtain ⟨scope, name, hSome, hMem⟩ := hStores
    have hReached := hId.reachable (lt_size_of_scope? hSome)
    have hStores : g.Stores id c := ⟨scope, name, hSome, hMem⟩
    exact ⟨.inl (hReached.captured hStores), hGood id c hReached hStores⟩

end Scopes

end FeatherScript
