import FeatherScript.Proofs.Tree.Forest
import FeatherScript.Proofs.Tree.WellFormed
import Mathlib.Logic.Relation

/-!
# The layout of a table

A table that was built has every child before its parent. The arguments of its calls lie one after
the other in their list, in the order of the calls and with nothing between them, and so do the
parameters of its functions. If nothing was given up, all nodes are part of the tree of the root,
which was stored last.

* `Slice.Tile`: slices that follow each other.
* `NodeTable.Arranged`, `Built.arranged`: the layout, and that what was built has it.
* `Forest.reaches_root`, `Forest.root_last`: tables without orphans.
-/

namespace FeatherScript

/-! ## Slices one after the other -/

/-- Slices that follow each other from one index up to another, without a gap or an overlap. -/
def Slice.Tile : Nat → List Slice → Nat → Prop
  | start, [], stop => start = stop
  | start, s :: rest, stop => s.start = start ∧ Tile s.stop rest stop

theorem Slice.tile_concat {start stop : Nat} {slices : List Slice} {s : Slice}
    (h : Tile start slices s.start) (hStop : s.stop = stop) : Tile start (slices ++ [s]) stop := by
  induction slices generalizing start with
  | nil => exact ⟨h.symm, hStop⟩
  | cons first rest ih => exact ⟨h.1, ih h.2⟩

namespace Form

/-- The slice of arguments that a construct refers to. -/
def argSlice? : Form → Option Slice
  | .call _ args => some args
  | _ => none

/-- The slice of parameters that a construct refers to. -/
def paramSlice? : Form → Option Slice
  | .function params _ => some params
  | _ => none

variable {t u : NodeTable} {form : Form} {id : NodeId}

theorem slices_of_plain (hPlain : form.Plain) :
    form.argSlice? = none ∧ form.paramSlice? = none := by
  cases form with
  | function | call => exact hPlain.elim
  | _ => exact ⟨rfl, rfl⟩

/-- What it takes to fit, for all constructs at once. -/
theorem fitsBelow_iff : form.FitsBelow t id ↔ (∀ child ∈ form.children t, child < id) ∧
    (∀ s ∈ form.argSlice?, s.stop ≤ t.args.size) ∧
    ∀ s ∈ form.paramSlice?, s.stop ≤ t.params.size := by
  cases form with
  | call =>
    simp [FitsBelow, children, parts, arguments, argSlice?, paramSlice?, and_comm,
      and_left_comm]
  | function => simp [FitsBelow, children, parts, arguments, argSlice?, paramSlice?, and_comm]
  | _ => simp [FitsBelow, children, parts, arguments, argSlice?, paramSlice?]

/-- What fits in a table fits in a larger one. -/
theorem fitsBelow_of_grows (h : t.Grows u) (hFits : form.FitsBelow t id) :
    form.FitsBelow u id := by
  cases form with
  | function params body =>
    obtain ⟨hStop, hBody⟩ := hFits
    exact ⟨Nat.le_trans hStop h.params.length_le, hBody⟩
  | call callee args =>
    obtain ⟨hCallee, hStop, hArgs⟩ := hFits
    have hRead : t.args? args = some _ := if_pos hStop
    refine ⟨hCallee, Nat.le_trans hStop h.args.length_le, ?_⟩
    rw [NodeTable.args?_of_grows h hRead]
    rwa [hRead] at hArgs
  | _ => exact hFits

end Form

namespace NodeTable

variable {t u : NodeTable} {pending orphans rest : List NodeId} {root : NodeId}

/-- The slices of all calls, in the order of the nodes. -/
def argSlices (t : NodeTable) : List Slice := t.nodes.toList.filterMap (·.form.argSlice?)

/-- The slices of all functions, in the order of the nodes. -/
def paramSlices (t : NodeTable) : List Slice := t.nodes.toList.filterMap (·.form.paramSlice?)

/-- Children stand before their parents, and the lists of arguments and of parameters are made of
the slices of the calls and of the functions, one after the other. -/
structure Arranged (t : NodeTable) : Prop where
  formed : t.WellFormed
  args : Slice.Tile 0 t.argSlices t.args.size
  params : Slice.Tile 0 t.paramSlices t.params.size

/-! ## Additions -/

theorem WellFormed.of_grows (h : t.WellFormed) (hGrows : t.Grows u)
    (hNodes : u.nodes = t.nodes) : u.WellFormed := by
  unfold WellFormed
  rw [hNodes]
  exact fun id hId => Form.fitsBelow_of_grows hGrows (h id hId)

theorem WellFormed.addNode {form : Form} (span : Span) (h : t.WellFormed)
    (hFits : form.FitsBelow t t.size) : (t.addNode form span).2.WellFormed := by
  intro id hId
  refine Form.fitsBelow_of_grows (t.grows_addNode form span) ?_
  simp only [NodeTable.addNode, Array.getElem_push]
  split
  · next hOld => exact h id hOld
  · next hNew =>
    have hSize : id < t.nodes.size + 1 := by simpa [NodeTable.addNode] using hId
    rwa [show id = t.size from by unfold size; omega]

theorem argSlices_addNode (form : Form) (span : Span) :
    (t.addNode form span).2.argSlices = t.argSlices ++ form.argSlice?.toList := by
  unfold argSlices
  rw [toList_addNode, List.filterMap_append]
  cases form <;> rfl

theorem paramSlices_addNode (form : Form) (span : Span) :
    (t.addNode form span).2.paramSlices = t.paramSlices ++ form.paramSlice?.toList := by
  unfold paramSlices
  rw [toList_addNode, List.filterMap_append]
  cases form <;> rfl

theorem Arranged.addPlain {form : Form} (span : Span) (h : t.Arranged) (hPlain : form.Plain)
    (hParts : ∀ a ∈ form.parts, a < t.size) : (t.addNode form span).2.Arranged := by
  obtain ⟨hArgs, hParams⟩ := Form.slices_of_plain hPlain
  refine ⟨h.formed.addNode span ?_, ?_, ?_⟩
  · rw [Form.fitsBelow_iff, hArgs, hParams, Form.children_of_plain hPlain]
    exact ⟨hParts, nofun, nofun⟩
  · rw [argSlices_addNode, hArgs, Option.toList_none, List.append_nil]
    exact h.args
  · rw [paramSlices_addNode, hParams, Option.toList_none, List.append_nil]
    exact h.params

theorem Arranged.addCall {callee : NodeId} {ids : List NodeId} (close : Span) (h : t.Arranged)
    (hParts : ∀ a ∈ callee :: ids, a < t.size) : (t.addCall callee ids close).2.Arranged := by
  have hStop : (t.addArgs ids).1.stop = (t.addArgs ids).2.args.size := by
    simp [addArgs, Slice.stop]
  refine ⟨?_, ?_, ?_⟩
  · have hFormed : (t.addArgs ids).2.WellFormed :=
      h.formed.of_grows (t.grows_addArgs ids) rfl
    obtain ⟨hCallee, hIds⟩ := List.forall_mem_cons.mp hParts
    have hArgs : ∀ a ∈ ((t.addArgs ids).2.args? (t.addArgs ids).1).getD [], a < t.size := by
      rw [t.args?_addArgs ids]
      exact hIds
    exact hFormed.addNode _ ⟨hCallee, Nat.le_of_eq hStop, hArgs⟩
  · rw [NodeTable.addCall, argSlices_addNode]
    exact Slice.tile_concat h.args hStop
  · rw [NodeTable.addCall, paramSlices_addNode]
    exact (List.append_nil t.paramSlices).symm ▸ h.params

theorem Arranged.addFunction {names : List Name} {body : NodeId} (span : Span) (h : t.Arranged)
    (hBody : body < t.size) : (t.addFunction none names body span).2.Arranged := by
  have hStop : (t.addParams names).1.stop = (t.addParams names).2.params.size := by
    simp [addParams, Slice.stop]
  refine ⟨?_, ?_, ?_⟩
  · have hFormed : (t.addParams names).2.WellFormed :=
      h.formed.of_grows (t.grows_addParams names) rfl
    exact hFormed.addNode _ ⟨Nat.le_of_eq hStop, hBody⟩
  · rw [NodeTable.addFunction, argSlices_addNode]
    exact (List.append_nil t.argSlices).symm ▸ h.args
  · rw [NodeTable.addFunction, paramSlices_addNode]
    exact Slice.tile_concat h.params hStop

/-! ## Tables that were built -/

theorem Forest.pending_lt (h : t.Forest pending orphans) : ∀ id ∈ pending, id < t.size := by
  intro id hMem
  have hOnce := h.once id
  have hCount := List.count_pos_iff.mpr hMem
  by_contra hLarge
  rw [if_neg hLarge] at hOnce
  omega

/-- What was built lies in its lists in the order in which it was stored. -/
theorem Built.arranged (h : t.Built pending orphans) : t.Arranged := by
  induction h with
  | empty => exact ⟨nofun, rfl, rfl⟩
  | plain hPlain h ih =>
    exact ih.addPlain _ hPlain fun a hMem => h.forest.pending_lt a (List.mem_append_left _ hMem)
  | call h ih =>
    exact ih.addCall _ fun a hMem => h.forest.pending_lt a (List.mem_append_left _ hMem)
  | function h ih => exact ih.addFunction _ (h.forest.pending_lt _ List.mem_cons_self)
  | reorder _ _ ih => exact ih
  | drop _ ih => exact ih

/-! ## Trees -/

theorem Arranged.child_lt {child parent : NodeId} (h : t.Arranged) (hChild : t.Child child parent) :
    child < parent := by
  obtain ⟨n, hNode, hMem⟩ := hChild
  obtain ⟨hSize, rfl⟩ := Array.getElem?_eq_some_iff.mp hNode
  exact (Form.fitsBelow_iff.mp (h.formed parent hSize)).1 child hMem

theorem exists_parent {id : NodeId} (h : id ∈ t.references) :
    ∃ parent < t.size, t.Child id parent := by
  obtain ⟨n, hNode, hMem⟩ := List.mem_flatMap.mp h
  obtain ⟨parent, hSize, hAt⟩ := List.getElem_of_mem hNode
  exact ⟨parent, hSize, n, Array.getElem?_eq_some_iff.mpr ⟨hSize, hAt⟩, hMem⟩

/-- Without orphans every node is part of the tree of the root. -/
theorem Forest.reaches_root (h : t.Forest [root] []) (hArranged : t.Arranged) {id : NodeId}
    (hId : id < t.size) : Relation.ReflTransGen t.Child id root := by
  induction hLeft : t.size - id using Nat.strongRecOn generalizing id with
  | ind n ih =>
    have hOnce := h.once id
    rw [if_pos hId, List.count_nil, Nat.add_zero] at hOnce
    by_cases hRoot : id = root
    · exact hRoot ▸ .refl
    · have hPending : [root].count id = 0 :=
        List.count_eq_zero.mpr (mt List.mem_singleton.mp hRoot)
      obtain ⟨parent, hParent, hChild⟩ :=
        exists_parent (List.count_pos_iff.mp (by omega : 0 < t.references.count id))
      have hLess := hArranged.child_lt hChild
      have hFewer : t.size - parent < n := hLeft ▸ Nat.sub_lt_sub_left hId hLess
      exact .head hChild (ih (t.size - parent) hFewer hParent rfl)

/-- Without orphans the root was stored last. -/
theorem Forest.root_last (h : t.Forest [root] []) (hArranged : t.Arranged) :
    root + 1 = t.size := by
  have hRoot : root < t.size := h.pending_lt root (List.mem_singleton_self root)
  have hUp : ∀ {id : NodeId}, Relation.ReflTransGen t.Child id root → id ≤ root := by
    intro id hPath
    induction hPath using Relation.ReflTransGen.head_induction_on with
    | refl => exact Nat.le_refl root
    | head hChild _ ih => exact Nat.le_trans (Nat.le_of_lt (hArranged.child_lt hChild)) ih
  have hLast : t.size - 1 < t.size := Nat.sub_one_lt_of_lt hRoot
  exact Nat.le_antisymm hRoot (Nat.le_add_of_sub_le (hUp (h.reaches_root hArranged hLast)))

end NodeTable

end FeatherScript
