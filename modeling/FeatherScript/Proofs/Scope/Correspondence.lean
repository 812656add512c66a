import FeatherScript.Proofs.Eval.Reachability
import FeatherScript.Proofs.Scope.Relabeling

/-!
# Scopes that correspond to each other

Scopes and closures are numbered in the order in which they are made. What was made and is referred
to no more has left gaps in these numbers, but nothing else. So two states are compared by what they
refer to: their scopes are the same if those of one, with other numbers for scopes and closures, are
among those of the other. Whatever can be done to the one can then be done to the other.

* `Correspondence`: the scopes and closures that are referred to, and their numbers elsewhere.
* `Correspondence.Same`: scopes that are the same, up to these numbers.
* `Same.resolve_eq`, `Same.updated_eq`, `Same.parent?_eq`: the same is read, and written to.
* `Same.write`, `Same.enclose`: what is changed alike remains the same.
* `Correspondence.value_inj`: values are told apart on both sides.
-/

namespace FeatherScript

/-! ## Chains under other numbers -/

namespace Renumbering.Maps

variable {r : Renumbering} {g g' : Scopes} {id : ScopeId}

theorem parent?_eq (h : r.Maps g g') (hKnown : r.Known id) :
    g'.parent? (r.number id) = (g.parent? id).map r.number := by
  rw [Scopes.parent?, Scopes.parent?, h.scope id hKnown]
  cases g.scope? id <;> rfl

/-- A chain goes over the same scopes on both sides, and they are known. -/
theorem chain_eq (h : r.Maps g g') (hKnown : r.Known id) :
    g'.chain (r.number id) = (g.chain id).map r.number ∧ ∀ scope ∈ g.chain id, r.Known scope := by
  induction id using Nat.strongRecOn with
  | ind id ih =>
    have hScope := h.scope id hKnown
    cases hOurs : g.scope? id with
    | none =>
      rw [hOurs] at hScope
      rw [Scopes.chain_of_none hOurs, Scopes.chain_of_none hScope]
      exact ⟨rfl, nofun⟩
    | some scope =>
      rw [hOurs] at hScope
      rw [Scopes.chain_of_scope? hOurs, Scopes.chain_of_scope? hScope]
      simp only [Scope.renumber]
      cases hParent : scope.parent with
      | none => exact ⟨rfl, List.forall_mem_singleton.mpr hKnown⟩
      | some outer =>
        have hOuter : r.Known outer := by
          refine h.parents id outer hKnown ?_
          rw [Scopes.parent?, hOurs]
          exact hParent
        -- The chain breaks off at a parent that is not older, and it does so on both sides.
        by_cases hLess : outer < id
        · obtain ⟨hRest, hRestKnown⟩ := ih outer hLess hOuter
          have hLess' := (r.lt_iff hOuter hKnown).mpr hLess
          simp only [Option.map_some, Option.filter_some, decide_eq_true hLess,
            decide_eq_true hLess', if_true, Option.elim_some, hRest, List.map_cons]
          exact ⟨trivial, List.forall_mem_cons.mpr ⟨hKnown, hRestKnown⟩⟩
        · have hLess' := mt (r.lt_iff hOuter hKnown).mp hLess
          simp only [Option.map_some, Option.filter_some, decide_eq_false hLess,
            decide_eq_false hLess', Bool.false_eq_true, if_false, Option.elim_none, List.map_cons,
            List.map_nil]
          exact ⟨trivial, List.forall_mem_singleton.mpr hKnown⟩

/-- An update writes to the same scope on both sides, and that scope is known. -/
theorem updated_eq (h : r.Maps g g') (hKnown : r.Known id) (name : Name) :
    g'.updated (r.number id) name = r.number (g.updated id name) ∧
      r.Known (g.updated id name) := by
  obtain ⟨hOwners, hOwnerKnown⟩ := h.owner?_eq hKnown name
  obtain ⟨hChains, hChainKnown⟩ := h.chain_eq hKnown
  unfold Scopes.updated
  rw [hOwners]
  cases hOwner : g.owner? id name with
  | some owner => exact ⟨rfl, hOwnerKnown owner hOwner⟩
  | none =>
    simp only [Option.map_none, Option.getD_none, Scopes.root, hChains]
    refine ⟨?_, ?_⟩
    · rw [List.getLastD_eq_getLast?, List.getLastD_eq_getLast?, List.getLast?_map]
      cases (g.chain id).getLast? <;> rfl
    · rcases List.mem_cons.mp (List.getLastD_mem_cons (a := id) (l := g.chain id)) with hSelf | hMem
      · rwa [hSelf]
      · exact hChainKnown _ hMem

end Renumbering.Maps

/-! ## Correspondences -/

/-- The scopes and closures that some scopes refer to, with the numbers that they have elsewhere.
Both go on being made in step, and closures that differ have different serial numbers. -/
structure Correspondence where
  scopes : Renumbering
  serial : Nat → Nat
  /-- How many closures had been made, here and elsewhere. -/
  here : Nat
  there : Nat
  serial_fresh : ∀ i, serial (here + i) = there + i
  valid_fresh : ∀ i params body {env}, scopes.Known env → scopes.Valid ⟨here + i, params, body, env⟩
  serial_inj : ∀ {c c'}, scopes.Valid c → scopes.Valid c' → serial c.serial = serial c'.serial →
    c.serial = c'.serial

namespace Correspondence

/-- What a closure is elsewhere. -/
def closure (C : Correspondence) (c : Closure) : Closure :=
  (c.renumber C.scopes.number).relabel C.serial

/-- What a value is elsewhere. -/
def value (C : Correspondence) (v : Value) : Value :=
  (v.renumber C.scopes.number).relabel C.serial

/-- A value that is no closure, or one that is referred to. -/
abbrev Holds (C : Correspondence) (v : Value) : Prop := C.scopes.Holds v

/-- Some scopes stand in others, up to the numbers of scopes and closures. -/
def Same (C : Correspondence) (g g' : Scopes) : Prop :=
  ∃ between, C.scopes.Maps g between ∧ g' = between.relabel C.serial

variable {C : Correspondence} {g g' : Scopes} {id outer target : ScopeId} {name : Name}
  {v w : Value}

/-! ## Values -/

theorem closure_inj {c c' : Closure} (h : C.scopes.Valid c) (h' : C.scopes.Valid c') :
    C.closure c = C.closure c' ↔ c = c' := by
  constructor
  · intro hSame
    obtain ⟨serial, params, body, scope⟩ := c
    obtain ⟨serial', params', body', scope'⟩ := c'
    simp only [closure, Closure.relabel, Closure.renumber, Closure.mk.injEq] at hSame ⊢
    obtain ⟨hSerial, hParams, hBody, hScope⟩ := hSame
    exact ⟨C.serial_inj h h' hSerial, hParams, hBody, C.scopes.number_inj
      (C.scopes.known_of_valid h) (C.scopes.known_of_valid h') hScope⟩
  · rintro rfl
    rfl

/-- Two values are the same here exactly if they are the same elsewhere. -/
theorem value_inj (h : C.Holds v) (h' : C.Holds w) : C.value v = C.value w ↔ v = w := by
  cases v with
  | closure c =>
    cases w with
    | closure c' =>
      have hClosures := closure_inj (h c rfl) (h' c' rfl)
      exact ⟨fun hSame => congrArg Value.closure (hClosures.mp (Value.closure.inj hSame)),
        congrArg C.value⟩
    | _ => simp [value, Value.renumber, Value.relabel]
  | _ => cases w <;> simp [value, Value.renumber, Value.relabel]

namespace Same

variable (h : C.Same g g') (hKnown : C.scopes.Known id)

include h hKnown

theorem binds_eq (name : Name) : g'.binds (C.scopes.number id) name = g.binds id name := by
  obtain ⟨between, hMaps, rfl⟩ := h
  rw [Scopes.binds_relabel, hMaps.binds_eq hKnown]

/-- The scope around a scope is the same, and is referred to. -/
theorem parent?_eq : g'.parent? (C.scopes.number id) = (g.parent? id).map C.scopes.number ∧
    ∀ outer, g.parent? id = some outer → C.scopes.Known outer := by
  obtain ⟨between, hMaps, rfl⟩ := h
  rw [Scopes.parent?_relabel, hMaps.parent?_eq hKnown]
  exact ⟨rfl, fun outer hParent => hMaps.parents id outer hKnown hParent⟩

theorem isRoot_eq : g'.isRoot (C.scopes.number id) = g.isRoot id := by
  rw [Scopes.isRoot, (h.parent?_eq hKnown).1, Option.isNone_map, Scopes.isRoot]

/-- A name has the same value on both sides. -/
theorem resolve_eq (name : Name) :
    g'.resolve (C.scopes.number id) name = C.value (g.resolve id name) ∧
      C.Holds (g.resolve id name) := by
  obtain ⟨between, hMaps, rfl⟩ := h
  obtain ⟨hValue, hHolds⟩ := hMaps.resolve_eq hKnown name
  rw [Scopes.resolve_relabel, hValue]
  exact ⟨rfl, hHolds⟩

theorem assignee_eq (name : Name) :
    g'.assignee (C.scopes.number id) name = C.scopes.number (g.assignee id name) ∧
      C.scopes.Known (g.assignee id name) := by
  obtain ⟨between, hMaps, rfl⟩ := h
  rw [Scopes.assignee_relabel]
  exact hMaps.assignee_eq hKnown name

theorem updated_eq (name : Name) :
    g'.updated (C.scopes.number id) name = C.scopes.number (g.updated id name) ∧
      C.scopes.Known (g.updated id name) := by
  obtain ⟨between, hMaps, rfl⟩ := h
  rw [Scopes.updated_relabel]
  exact hMaps.updated_eq hKnown name

theorem count_eq : g'.count (C.scopes.number id) = g.count id := by
  obtain ⟨between, hMaps, rfl⟩ := h
  unfold Scopes.count
  rw [Scopes.scope?_relabel, hMaps.scope id hKnown]
  cases g.scope? id with
  | none => rfl
  | some scope => simp [Scope.relabel, Scope.renumber]

omit hKnown

/-- The same name is bound in the same scope, to the same value. -/
theorem write (hTarget : C.scopes.Known target) (hValue : C.Holds v) (name : Name) :
    C.Same (g.write target name v) (g'.write (C.scopes.number target) name (C.value v)) := by
  obtain ⟨between, hMaps, rfl⟩ := h
  exact ⟨_, hMaps.write hTarget hValue name, (Scopes.relabel_write ..).symm⟩

include hKnown in
theorem update (hValue : C.Holds v) (name : Name) :
    C.Same (g.update id name v) (g'.update (C.scopes.number id) name (C.value v)) := by
  obtain ⟨hTarget, hWritten⟩ := h.updated_eq hKnown name
  have hWrite := h.write hWritten hValue name
  rwa [← hTarget] at hWrite

theorem fresh : C.scopes.Known g.all.size ∧ C.scopes.number g.all.size = g'.all.size := by
  obtain ⟨between, hMaps, rfl⟩ := h
  rw [Scopes.size_relabel]
  exact hMaps.fresh

/-- A scope is made in the same place on both sides. -/
theorem enclose (hOuter : C.scopes.Known outer) :
    C.Same (g.enclose outer).2 (g'.enclose (C.scopes.number outer)).2 := by
  obtain ⟨between, hMaps, rfl⟩ := h
  exact ⟨_, hMaps.enclose hOuter, (Scopes.relabel_enclose ..).symm⟩

theorem addRoot : C.Same g.addRoot.2 g'.addRoot.2 := by
  obtain ⟨between, hMaps, rfl⟩ := h
  exact ⟨_, hMaps.addRoot, (Scopes.relabel_addRoot ..).symm⟩

end Same

end Correspondence

end FeatherScript
