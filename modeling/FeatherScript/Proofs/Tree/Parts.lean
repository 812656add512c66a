import FeatherScript.Proofs.Tree.Forest
import Mathlib.Logic.Relation

/-!
# The parts of a tree

A node that leads to the root of a table, from parent to parent, has a part of the tree of the root
for its own tree. So what holds of the spans of all parts of that tree holds of the span of the
node.

* `Tree.Each`: a property of the spans of all parts of a tree.
* `exists_part`: one step from a node to its child.
* `each_of_reaches`: all steps from the root to a node.
-/

namespace FeatherScript

namespace Tree

/-- The trees that a tree is made of, one level down. -/
def children : Tree → List Tree
  | int .. | bool .. | null _ | ref .. => []
  | print _ a | declare _ _ a | assign _ _ a | function _ _ a => [a]
  | binary _ _ a b | loop _ a b | sequence _ a b => [a, b]
  | branch _ c a b => c :: a :: b.toList
  | call _ f args => f :: args

/-- A property holds of the span of a tree and of those of all its parts. -/
inductive Each (P : Span → Prop) : Tree → Prop
  | intro {tree : Tree} (hSpan : P tree.span) (hChildren : ∀ part ∈ tree.children, Each P part) :
      Each P tree

variable {P : Span → Prop} {tree part : Tree}

theorem Each.span (h : tree.Each P) : P tree.span := by
  cases h with
  | intro hSpan => exact hSpan

theorem Each.child (h : tree.Each P) (hPart : part ∈ tree.children) : part.Each P := by
  cases h with
  | intro _ hChildren => exact hChildren part hPart

end Tree

theorem exists_of_mem_forall₂ {α β : Type} {r : α → β → Prop} {as : List α} {bs : List β} {a : α}
    (h : List.Forall₂ r as bs) (hMem : a ∈ as) : ∃ b ∈ bs, r a b := by
  induction h with
  | nil => cases hMem
  | cons hHead _ ih =>
    rcases List.mem_cons.mp hMem with rfl | hMem
    · exact ⟨_, List.mem_cons_self, hHead⟩
    · obtain ⟨b, hTail, hRelated⟩ := ih hMem
      exact ⟨b, List.mem_cons_of_mem _ hTail, hRelated⟩

namespace NodeTable

variable {t : NodeTable} {id child root : NodeId} {tree : Tree} {P : Span → Prop}

/-- The children of a tree are those of the children of its form, one for one. -/
theorem Unfolds.forall₂_children {below : NodeId → Tree → Prop} {span : Span} {form : Form}
    (h : Unfolds t below span form tree) :
    List.Forall₂ below (form.children t) tree.children := by
  cases h with
  | int | bool | null | ref => exact .nil
  | print hOnly | declare hOnly | assign hOnly | function _ hOnly => exact .cons hOnly .nil
  | binary hFirst hSecond | loop hFirst hSecond | sequence hFirst hSecond
  | branch hFirst hSecond => exact .cons hFirst (.cons hSecond .nil)
  | branchElse hCondition hConsequent hAlternative =>
    exact .cons hCondition (.cons hConsequent (.cons hAlternative .nil))
  | call hCallee hArgs hTrees =>
    rw [Form.children, Form.arguments, hArgs]
    exact .cons hCallee hTrees

/-- The tree of a child is one of the children of the tree. -/
theorem exists_part (hTree : t.tree? id = some tree) (hChild : t.Child child id) :
    ∃ part ∈ tree.children, t.tree? child = some part := by
  obtain ⟨n, hNode, hShape⟩ := tree?_eq_some_iff.mp hTree
  obtain ⟨n', hNode', hMem⟩ := hChild
  cases hNode.symm.trans hNode'
  obtain ⟨part, hPart, -, hBelow⟩ := exists_of_mem_forall₂ hShape.forall₂_children hMem
  exact ⟨part, hPart, hBelow⟩

/-- What holds of the spans of all parts of a tree holds for a node that leads to its root. -/
theorem each_of_reaches (hRoot : t.tree? root = some tree) (hEach : tree.Each P)
    (hPath : Relation.ReflTransGen t.Child id root) :
    ∃ part, t.tree? id = some part ∧ part.Each P := by
  induction hPath using Relation.ReflTransGen.head_induction_on with
  | refl => exact ⟨tree, hRoot, hEach⟩
  | head hChild _ ih =>
    obtain ⟨whole, hTree, hWhole⟩ := ih
    obtain ⟨part, hPart, hBelow⟩ := exists_part hTree hChild
    exact ⟨part, hBelow, hWhole.child hPart⟩

end NodeTable

end FeatherScript
