import FeatherScript.Proofs.Tree.Unfolding

/-!
# Well-formed tables

A table is well-formed if the children of every node stand before it and every slice lies inside its
list. Nodes may be shared, and some may be the child of no other. Every node of such a table has a
tree.
-/

namespace FeatherScript

/-- The children of a construct have smaller numbers than given, and its slices lie in the table. -/
def Form.FitsBelow (t : NodeTable) (id : NodeId) : Form → Prop
  | .int _ | .bool _ | .null | .ref _ => True
  | .print a | .declare _ a | .assign _ a => a < id
  | .binary _ a b | .loop a b | .sequence a b => a < id ∧ b < id
  | .branch c a b => c < id ∧ a < id ∧ ∀ other ∈ b, other < id
  | .function params body => params.stop ≤ t.params.size ∧ body < id
  | .call callee args =>
    callee < id ∧ args.stop ≤ t.args.size ∧ ∀ arg ∈ (t.args? args).getD [], arg < id

instance (t : NodeTable) (id : NodeId) : (form : Form) → Decidable (form.FitsBelow t id)
  | .int _ | .bool _ | .null | .ref _ => inferInstanceAs (Decidable True)
  | .print a | .declare _ a | .assign _ a => inferInstanceAs (Decidable (a < id))
  | .binary _ a b | .loop a b | .sequence a b => inferInstanceAs (Decidable (a < id ∧ b < id))
  | .branch c a b => inferInstanceAs (Decidable (c < id ∧ a < id ∧ ∀ other ∈ b, other < id))
  | .function params body => inferInstanceAs (Decidable (params.stop ≤ t.params.size ∧ body < id))
  | .call callee args => inferInstanceAs
    (Decidable (callee < id ∧ args.stop ≤ t.args.size ∧ ∀ arg ∈ (t.args? args).getD [], arg < id))

namespace NodeTable

/-- Every node of the table fits below its number. -/
def WellFormed (t : NodeTable) : Prop :=
  ∀ id, ∀ hId : id < t.nodes.size, t.nodes[id].form.FitsBelow t id

instance (t : NodeTable) : Decidable t.WellFormed :=
  inferInstanceAs (Decidable (∀ id, ∀ hId : id < t.nodes.size, t.nodes[id].form.FitsBelow t id))

variable {t : NodeTable}

theorem exists_forall₂ {α β : Type} {R : α → β → Prop} {as : List α}
    (h : ∀ a ∈ as, ∃ b, R a b) : ∃ bs, List.Forall₂ R as bs := by
  induction as with
  | nil => exact ⟨[], .nil⟩
  | cons a as ih =>
    obtain ⟨b, hHead⟩ := h a List.mem_cons_self
    obtain ⟨bs, hTail⟩ := ih fun a' hMem => h a' (List.mem_cons_of_mem a hMem)
    exact ⟨b :: bs, .cons hHead hTail⟩

/-- A construct whose children have trees has one. -/
theorem exists_unfolds {id : NodeId} {form : Form} (span : Span) {child : NodeId → Tree → Prop}
    (hFits : form.FitsBelow t id) (hChild : ∀ a < id, ∃ tree, child a tree) :
    ∃ tree, Unfolds t child span form tree := by
  cases form with
  | int value => exact ⟨_, .int value⟩
  | bool value => exact ⟨_, .bool value⟩
  | null => exact ⟨_, .null⟩
  | ref name => exact ⟨_, .ref name⟩
  | print a =>
    obtain ⟨x, hX⟩ := hChild a hFits
    exact ⟨_, .print hX⟩
  | declare name a =>
    obtain ⟨x, hX⟩ := hChild a hFits
    exact ⟨_, .declare hX⟩
  | assign name a =>
    obtain ⟨x, hX⟩ := hChild a hFits
    exact ⟨_, .assign hX⟩
  | binary op a b =>
    obtain ⟨x, hX⟩ := hChild a hFits.1
    obtain ⟨y, hY⟩ := hChild b hFits.2
    exact ⟨_, .binary hX hY⟩
  | loop a b =>
    obtain ⟨x, hX⟩ := hChild a hFits.1
    obtain ⟨y, hY⟩ := hChild b hFits.2
    exact ⟨_, .loop hX hY⟩
  | sequence a b =>
    obtain ⟨x, hX⟩ := hChild a hFits.1
    obtain ⟨y, hY⟩ := hChild b hFits.2
    exact ⟨_, .sequence hX hY⟩
  | branch c a b =>
    obtain ⟨z, hZ⟩ := hChild c hFits.1
    obtain ⟨x, hX⟩ := hChild a hFits.2.1
    cases b with
    | none => exact ⟨_, .branch hZ hX⟩
    | some b =>
      obtain ⟨y, hY⟩ := hChild b (hFits.2.2 b rfl)
      exact ⟨_, .branchElse hZ hX hY⟩
  | function params body =>
    obtain ⟨y, hY⟩ := hChild body hFits.2
    exact ⟨_, .function (if_pos hFits.1) hY⟩
  | call callee args =>
    obtain ⟨hCallee, hStop, hArgs⟩ := hFits
    obtain ⟨x, hX⟩ := hChild callee hCallee
    have hRead : t.args? args = some _ := if_pos hStop
    rw [hRead] at hArgs
    obtain ⟨trees, hTrees⟩ := exists_forall₂ fun arg hMem => hChild arg (hArgs arg hMem)
    exact ⟨_, .call hX hRead hTrees⟩

/-- Every node of a well-formed table has a tree. -/
theorem WellFormed.exists_tree (hFormed : t.WellFormed) {id : NodeId} (hId : id < t.size) :
    ∃ tree, t.tree? id = some tree := by
  induction id using Nat.strongRecOn with
  | ind id ih =>
    have hNode : t.node? id = some _ := Array.getElem?_eq_getElem hId
    obtain ⟨tree, hTree⟩ := exists_unfolds _ (hFormed id hId) fun a hLess =>
      (ih a hLess (Nat.lt_trans hLess hId)).imp fun _ h => And.intro hLess h
    exact ⟨tree, tree?_eq_some_iff.mpr ⟨_, hNode, hTree⟩⟩

end NodeTable

end FeatherScript
