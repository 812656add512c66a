import FeatherScript.Proofs.Tree.Unfolding
import FeatherScript.Tree.SExpr
import Mathlib.Data.List.Forall2

/-!
# Tables that agree up to names and spans

Two tables are alike if they hold the same constructs under the same numbers, with names that are
related and spans of any kind. Tables stay alike when the same things are added to both, and alike
nodes unfold to trees that are written alike.

* `Form.Alike`, `NodeTable.Alike`: constructs and tables that are alike.
* `NodeTable.AddAlike`: two additions to tables, with a law for nodes and for each kind of slice.
* `Alike.exists_tree`: the trees of alike tables.
-/

namespace FeatherScript

/-! ## Constructs and tables -/

/-- The name in a construct, if it has one. -/
def Form.name? : Form → Option Name
  | .ref name | .declare name _ | .assign name _ => some name
  | _ => none

/-- Constructs that differ at most in their names, which are related. -/
inductive Form.Alike (R : Name → Name → Prop) : Form → Form → Prop
  | ref {n n'} (h : R n n') : Form.Alike R (.ref n) (.ref n')
  | declare {n n' value} (h : R n n') : Form.Alike R (.declare n value) (.declare n' value)
  | assign {n n' value} (h : R n n') : Form.Alike R (.assign n value) (.assign n' value)
  | other {form} (hName : form.name? = none) : Form.Alike R form form

namespace NodeTable

variable {R : Name → Name → Prop} {t t' : NodeTable}

/-- Tables with the same constructs under the same numbers, up to names and spans. -/
structure Alike (R : Name → Name → Prop) (t t' : NodeTable) : Prop where
  nodes : List.Forall₂ (fun n n' => n.form.Alike R n'.form) t.nodes.toList t'.nodes.toList
  args : t'.args = t.args
  params : List.Forall₂ R t.params.toList t'.params.toList

theorem alike_empty : empty.Alike R empty := ⟨.nil, rfl, .nil⟩

namespace Alike

theorem size (h : t.Alike R t') : t'.nodes.size = t.nodes.size := by
  have hLength := h.nodes.length_eq
  rw [Array.length_toList, Array.length_toList] at hLength
  exact hLength.symm

theorem node? (h : t.Alike R t') {id : NodeId} {n : Node} (hNode : t.node? id = some n) :
    ∃ n', t'.node? id = some n' ∧ n.form.Alike R n'.form := by
  obtain ⟨hId, rfl⟩ := Array.getElem?_eq_some_iff.mp hNode
  have hId' : id < t'.nodes.size := h.size ▸ hId
  refine ⟨_, Array.getElem?_eq_getElem hId', ?_⟩
  have hForm := List.Forall₂.get h.nodes hId hId'
  exact hForm

theorem node?_none (h : t.Alike R t') {id : NodeId} (hNode : t.node? id = none) :
    t'.node? id = none := by
  rw [NodeTable.node?, Array.getElem?_eq_none_iff] at hNode ⊢
  rwa [h.size]

theorem args? (h : t.Alike R t') (s : Slice) : t'.args? s = t.args? s := by
  rw [NodeTable.args?, NodeTable.args?, h.args]

theorem params? (h : t.Alike R t') {s : Slice} {names : List Name}
    (hParams : t.params? s = some names) :
    ∃ names', t'.params? s = some names' ∧ List.Forall₂ R names names' := by
  have hSize := h.params.length_eq
  rw [Array.length_toList, Array.length_toList] at hSize
  unfold NodeTable.params? Slice.read? at hParams ⊢
  rw [Option.ite_none_right_eq_some] at hParams
  obtain ⟨hStop, hNames⟩ := hParams
  cases hNames
  refine ⟨_, if_pos (hSize ▸ hStop), ?_⟩
  rw [Array.toList_extract, Array.toList_extract]
  exact List.forall₂_take _ (List.forall₂_drop _ h.params)

theorem params?_none (h : t.Alike R t') {s : Slice} (hParams : t.params? s = none) :
    t'.params? s = none := by
  have hSize := h.params.length_eq
  rw [Array.length_toList, Array.length_toList] at hSize
  unfold NodeTable.params? Slice.read? at hParams ⊢
  rw [ite_eq_right_iff] at hParams ⊢
  exact fun hStop => nomatch hParams (hSize ▸ hStop)

end Alike

/-! ## Additions -/

/-- Two additions to tables have the same number for what was added, and leave alike tables. -/
def AddAlike {α : Type} (R : Name → Name → Prop) (x y : α × NodeTable) : Prop :=
  y.1 = x.1 ∧ x.2.Alike R y.2

section

variable {names names' : List Name} {form form' : Form}

theorem addNode_alike (h : t.Alike R t') (hForm : form.Alike R form') (span span' : Span) :
    AddAlike R (t.addNode form span) (t'.addNode form' span') := by
  refine ⟨h.size, ?_, h.args, h.params⟩
  have hLast : List.Forall₂ (fun n n' : Node => n.form.Alike R n'.form) [⟨form, span⟩]
      [⟨form', span'⟩] := .cons hForm .nil
  simpa [addNode] using List.rel_append h.nodes hLast

theorem addArgs_alike (h : t.Alike R t') (ids : List NodeId) :
    AddAlike R (t.addArgs ids) (t'.addArgs ids) := by
  unfold addArgs AddAlike
  rw [h.args]
  exact ⟨rfl, h.nodes, rfl, h.params⟩

theorem addParams_alike (h : t.Alike R t') (hNames : List.Forall₂ R names names') :
    AddAlike R (t.addParams names) (t'.addParams names') := by
  have hSize := h.params.length_eq
  rw [Array.length_toList, Array.length_toList] at hSize
  refine ⟨?_, h.nodes, h.args, ?_⟩
  · simp only [addParams, hSize, hNames.length_eq]
  · simpa [addParams] using List.rel_append h.params hNames

end

/-! ## Trees -/

/-- Trees that are written alike where related names are. -/
def WrittenAlike (R : Name → Name → Prop) (tree tree' : Tree) : Prop :=
  ∀ show₁ show₂ : Name → String, (∀ n n', R n n' → show₁ n = show₂ n') →
    tree.sexpr show₁ = tree'.sexpr show₂

theorem map_show_eq {names names' : List Name} (h : List.Forall₂ R names names')
    {show₁ show₂ : Name → String} (hNames : ∀ n n', R n n' → show₁ n = show₂ n') :
    (names.map fun n => SExpr.atom (show₁ n)) = names'.map fun n => .atom (show₂ n) := by
  induction h with
  | nil => rfl
  | cons hName _ ih => rw [List.map_cons, List.map_cons, hNames _ _ hName, ih]

theorem exists_trees {child child' : NodeId → Tree → Prop} {ids : List NodeId} {trees : List Tree}
    (h : List.Forall₂ child ids trees)
    (hChild : ∀ id subtree, child id subtree →
      ∃ subtree', child' id subtree' ∧ WrittenAlike R subtree subtree') :
    ∃ trees', List.Forall₂ child' ids trees' ∧ List.Forall₂ (WrittenAlike R) trees trees' := by
  induction h with
  | nil => exact ⟨[], .nil, .nil⟩
  | cons hTree _ ih =>
    obtain ⟨subtree', hTree', hWritten⟩ := hChild _ _ hTree
    obtain ⟨trees', hTrees', hWrittens⟩ := ih
    exact ⟨subtree' :: trees', .cons hTree' hTrees', .cons hWritten hWrittens⟩

theorem sexprList_alike {trees trees' : List Tree}
    (h : List.Forall₂ (WrittenAlike R) trees trees') {show₁ show₂ : Name → String}
    (hNames : ∀ n n', R n n' → show₁ n = show₂ n') :
    Tree.sexprList show₁ trees = Tree.sexprList show₂ trees' := by
  induction h with
  | nil => rfl
  | cons hTree _ ih => rw [Tree.sexprList, Tree.sexprList, hTree _ _ hNames, ih]

/-- One level of unfolding, where the children of a construct have trees that are written alike. -/
theorem Alike.exists_unfolds (h : t.Alike R t') {form form' : Form} {span span' : Span}
    {tree : Tree} {child child' : NodeId → Tree → Prop} (hForm : form.Alike R form')
    (hTree : Unfolds t child span form tree)
    (hChild : ∀ id subtree, child id subtree →
      ∃ subtree', child' id subtree' ∧ WrittenAlike R subtree subtree') :
    ∃ tree', Unfolds t' child' span' form' tree' ∧ WrittenAlike R tree tree' := by
  -- Three constructs have a name themselves, and a function has those of its parameters.
  cases hForm with
  | ref hName =>
    cases hTree
    refine ⟨_, .ref _, fun show₁ show₂ hNames => ?_⟩
    rw [Tree.sexpr, Tree.sexpr, hNames _ _ hName]
  | declare hName =>
    cases hTree with
    | declare hValue =>
      obtain ⟨v, hValue', hWritten⟩ := hChild _ _ hValue
      refine ⟨_, .declare hValue', fun show₁ show₂ hNames => ?_⟩
      rw [Tree.sexpr, Tree.sexpr, hNames _ _ hName, hWritten _ _ hNames]
  | assign hName =>
    cases hTree with
    | assign hValue =>
      obtain ⟨v, hValue', hWritten⟩ := hChild _ _ hValue
      refine ⟨_, .assign hValue', fun show₁ show₂ hNames => ?_⟩
      rw [Tree.sexpr, Tree.sexpr, hNames _ _ hName, hWritten _ _ hNames]
  | other hName =>
    cases hTree with
    | ref | declare | assign => cases hName
    | int value => exact ⟨_, .int value, fun _ _ _ => rfl⟩
    | bool value => exact ⟨_, .bool value, fun _ _ _ => rfl⟩
    | null => exact ⟨_, .null, fun _ _ _ => rfl⟩
    | print hArgument =>
      obtain ⟨a, hArgument', hWritten⟩ := hChild _ _ hArgument
      refine ⟨_, .print hArgument', fun show₁ show₂ hNames => ?_⟩
      rw [Tree.sexpr, Tree.sexpr, hWritten _ _ hNames]
    | binary hLeft hRight =>
      obtain ⟨a, hLeft', hWritten⟩ := hChild _ _ hLeft
      obtain ⟨b, hRight', hWritten'⟩ := hChild _ _ hRight
      refine ⟨_, .binary hLeft' hRight', fun show₁ show₂ hNames => ?_⟩
      rw [Tree.sexpr, Tree.sexpr, hWritten _ _ hNames, hWritten' _ _ hNames]
    | branch hCondition hConsequent =>
      obtain ⟨c, hCondition', hWritten⟩ := hChild _ _ hCondition
      obtain ⟨a, hConsequent', hWritten'⟩ := hChild _ _ hConsequent
      refine ⟨_, .branch hCondition' hConsequent', fun show₁ show₂ hNames => ?_⟩
      rw [Tree.sexpr, Tree.sexpr, hWritten _ _ hNames, hWritten' _ _ hNames, Tree.sexprOption,
        Tree.sexprOption]
    | branchElse hCondition hConsequent hAlternative =>
      obtain ⟨c, hCondition', hWritten⟩ := hChild _ _ hCondition
      obtain ⟨a, hConsequent', hWritten'⟩ := hChild _ _ hConsequent
      obtain ⟨b, hAlternative', hWritten''⟩ := hChild _ _ hAlternative
      refine ⟨_, .branchElse hCondition' hConsequent' hAlternative', fun show₁ show₂ hNames => ?_⟩
      rw [Tree.sexpr, Tree.sexpr, hWritten _ _ hNames, hWritten' _ _ hNames, Tree.sexprOption,
        Tree.sexprOption, hWritten'' _ _ hNames]
    | loop hCondition hBody =>
      obtain ⟨c, hCondition', hWritten⟩ := hChild _ _ hCondition
      obtain ⟨b, hBody', hWritten'⟩ := hChild _ _ hBody
      refine ⟨_, .loop hCondition' hBody', fun show₁ show₂ hNames => ?_⟩
      rw [Tree.sexpr, Tree.sexpr, hWritten _ _ hNames, hWritten' _ _ hNames]
    | sequence hFirst hSecond =>
      obtain ⟨a, hFirst', hWritten⟩ := hChild _ _ hFirst
      obtain ⟨b, hSecond', hWritten'⟩ := hChild _ _ hSecond
      refine ⟨_, .sequence hFirst' hSecond', fun show₁ show₂ hNames => ?_⟩
      rw [Tree.sexpr, Tree.sexpr, hWritten _ _ hNames, hWritten' _ _ hNames]
    | function hParams hBody =>
      obtain ⟨names', hParams', hRelated⟩ := h.params? hParams
      obtain ⟨b, hBody', hWritten⟩ := hChild _ _ hBody
      refine ⟨_, .function hParams' hBody', fun show₁ show₂ hNames => ?_⟩
      have hShown := map_show_eq hRelated hNames
      rw [Tree.sexpr, Tree.sexpr, hWritten _ _ hNames, hShown]
    | call hCallee hArgs hTrees =>
      obtain ⟨f, hCallee', hWritten⟩ := hChild _ _ hCallee
      obtain ⟨trees', hTrees', hWrittens⟩ := exists_trees hTrees hChild
      refine ⟨_, .call hCallee' ((h.args? _).trans hArgs) hTrees', fun show₁ show₂ hNames => ?_⟩
      rw [Tree.sexpr, Tree.sexpr, hWritten _ _ hNames, sexprList_alike hWrittens hNames]

/-- A node of a table unfolds to a tree that is written like that of the same node of a table which
is alike. -/
theorem Alike.exists_tree (h : t.Alike R t') {id : NodeId} {tree : Tree}
    (hTree : t.tree? id = some tree) :
    ∃ tree', t'.tree? id = some tree' ∧ WrittenAlike R tree tree' := by
  induction id using Nat.strongRecOn generalizing tree with
  | ind id ih =>
    obtain ⟨n, hNode, hUnfolds⟩ := tree?_eq_some_iff.mp hTree
    obtain ⟨n', hNode', hForm⟩ := h.node? hNode
    have hChild : ∀ child subtree, child < id ∧ t.tree? child = some subtree →
        ∃ subtree', (child < id ∧ t'.tree? child = some subtree') ∧
          WrittenAlike R subtree subtree' := by
      rintro child subtree ⟨hLess, hSubtree⟩
      obtain ⟨subtree', hSubtree', hWritten⟩ := ih child hLess hSubtree
      exact ⟨subtree', ⟨hLess, hSubtree'⟩, hWritten⟩
    obtain ⟨tree', hUnfolds', hWritten⟩ := h.exists_unfolds hForm hUnfolds hChild
    exact ⟨tree', tree?_eq_some_iff.mpr ⟨n', hNode', hUnfolds'⟩, hWritten⟩

end NodeTable

end FeatherScript
