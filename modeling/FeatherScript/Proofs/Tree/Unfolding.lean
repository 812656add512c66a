import FeatherScript.Proofs.Grammar.Derivation
import FeatherScript.Node.Build
import Mathlib.Data.List.Forall2

/-!
# Unfolding and growth

A node keeps its tree while its table grows, because its children stand before it. A node that is
added to a table has the tree made of the trees of its children; so have the constructs of several
nodes.

* `tree?_of_grows`: what unfolds in a table unfolds to the same tree in a larger one.
* `tree?_addNode`, `tree?_addRun`, `tree?_addBinary`, `tree?_addCall`, `tree?_addFunction`: the
  trees of what is added.
-/

namespace FeatherScript

theorem mapM_eq_some_iff_forall₂ {α β : Type} {f : α → Option β} {as : List α} {bs : List β} :
    as.mapM f = some bs ↔ List.Forall₂ (fun a b => f a = some b) as bs := by
  induction as generalizing bs with
  | nil =>
    rw [List.mapM_nil, List.forall₂_nil_left_iff]
    exact ⟨fun h => (Option.some.inj h).symm, fun h => h ▸ rfl⟩
  | cons a as ih =>
    rw [List.mapM_cons]
    constructor
    · intro h
      obtain ⟨b, hHead, h⟩ := Option.bind_eq_some_iff.mp h
      obtain ⟨rest, hTail, h⟩ := Option.bind_eq_some_iff.mp h
      cases h
      exact .cons hHead (ih.mp hTail)
    · intro h
      cases h with
      | cons hHead hTail => simp [hHead, ih.mpr hTail]

/-- What reads as some elements of an array reads as those of an array that starts with it. -/
theorem Slice.read?_of_prefix {α : Type} {xs ys : Array α} {s : Slice} {as : List α}
    (hPrefix : xs.toList <+: ys.toList) (hRead : s.read? xs = some as) : s.read? ys = some as := by
  obtain ⟨more, hMore⟩ := hPrefix
  obtain ⟨hStop, hSome⟩ := Option.ite_none_right_eq_some.mp hRead
  have hSize : ys.size = xs.size + more.length := by
    rw [← Array.length_toList, ← hMore, List.length_append, Array.length_toList]
  have hBelow : s.stop ≤ ys.size := by omega
  have hStart : s.start ≤ xs.toList.length := by
    rw [Array.length_toList]
    exact Nat.le_trans (Nat.le_add_right s.start s.size) hStop
  have hTake : s.stop - s.start ≤ (xs.toList.drop s.start).length := by
    rw [List.length_drop, Array.length_toList]
    omega
  rw [Slice.read?, if_pos hBelow, ← hSome, Array.toList_extract, Array.toList_extract, ← hMore,
    List.extract_eq_take_drop, List.extract_eq_take_drop, List.drop_append_of_le_length hStart,
    List.take_append_of_le_length hTake]

namespace NodeTable

variable {t u : NodeTable}

/-! ## Growth -/

theorem node?_of_grows {id : NodeId} {n : Node} (h : t.Grows u) (hNode : t.node? id = some n) :
    u.node? id = some n := by
  obtain ⟨more, hMore⟩ := h.nodes
  rw [node?, ← Array.getElem?_toList] at hNode ⊢
  rw [← hMore]
  exact (List.getElem?_append_left (List.getElem?_eq_some_iff.mp hNode).1).trans hNode

theorem args?_of_grows {s : Slice} {ids : List NodeId} (h : t.Grows u)
    (hArgs : t.args? s = some ids) : u.args? s = some ids :=
  Slice.read?_of_prefix h.args hArgs

theorem params?_of_grows {s : Slice} {names : List Name} (h : t.Grows u)
    (hParams : t.params? s = some names) : u.params? s = some names :=
  Slice.read?_of_prefix h.params hParams

/-- A slice that was read has as many members as it says. -/
theorem length_of_params? {s : Slice} {names : List Name} (hParams : t.params? s = some names) :
    s.size = names.length := by
  obtain ⟨hStop, hNames⟩ := Option.ite_none_right_eq_some.mp hParams
  cases hNames
  simp only [Array.length_toList, Array.size_extract, Slice.stop] at hStop ⊢
  omega

/-! ## One level of unfolding -/

/-- One level of a tree: a form with given trees for its children. -/
inductive Unfolds (t : NodeTable) (child : NodeId → Tree → Prop) (span : Span) : Form → Tree → Prop
  | int (value) : Unfolds t child span (.int value) (.int span value)
  | bool (value) : Unfolds t child span (.bool value) (.bool span value)
  | null : Unfolds t child span .null (.null span)
  | ref (name) : Unfolds t child span (.ref name) (.ref span name)
  | print {argument a} (hArgument : child argument a) :
      Unfolds t child span (.print argument) (.print span a)
  | binary {op left right a b} (hLeft : child left a) (hRight : child right b) :
      Unfolds t child span (.binary op left right) (.binary span op a b)
  | branch {condition consequent c a} (hCondition : child condition c)
      (hConsequent : child consequent a) :
      Unfolds t child span (.branch condition consequent none) (.branch span c a none)
  | branchElse {condition consequent alternative c a b} (hCondition : child condition c)
      (hConsequent : child consequent a) (hAlternative : child alternative b) :
      Unfolds t child span (.branch condition consequent (some alternative))
        (.branch span c a (some b))
  | loop {condition body c b} (hCondition : child condition c) (hBody : child body b) :
      Unfolds t child span (.loop condition body) (.loop span c b)
  | sequence {first second a b} (hFirst : child first a) (hSecond : child second b) :
      Unfolds t child span (.sequence first second) (.sequence span a b)
  | declare {name value v} (hValue : child value v) :
      Unfolds t child span (.declare name value) (.declare span name v)
  | assign {name value v} (hValue : child value v) :
      Unfolds t child span (.assign name value) (.assign span name v)
  | function {params names body b} (hParams : t.params? params = some names)
      (hBody : child body b) :
      Unfolds t child span (.function params body) (.function span names b)
  | call {callee args ids f trees} (hCallee : child callee f) (hArgs : t.args? args = some ids)
      (hTrees : List.Forall₂ child ids trees) :
      Unfolds t child span (.call callee args) (.call span f trees)

theorem Unfolds.imp {child child' : NodeId → Tree → Prop} {span : Span} {form : Form}
    {tree : Tree} (h : t.Grows u) (hChild : ∀ id subtree, child id subtree → child' id subtree)
    (hTree : Unfolds t child span form tree) : Unfolds u child' span form tree := by
  cases hTree with
  | int => exact .int _
  | bool => exact .bool _
  | null => exact .null
  | ref => exact .ref _
  | print hArgument => exact .print (hChild _ _ hArgument)
  | binary hLeft hRight => exact .binary (hChild _ _ hLeft) (hChild _ _ hRight)
  | branch hCondition hConsequent => exact .branch (hChild _ _ hCondition) (hChild _ _ hConsequent)
  | branchElse hCondition hConsequent hAlternative =>
    exact .branchElse (hChild _ _ hCondition) (hChild _ _ hConsequent) (hChild _ _ hAlternative)
  | loop hCondition hBody => exact .loop (hChild _ _ hCondition) (hChild _ _ hBody)
  | sequence hFirst hSecond => exact .sequence (hChild _ _ hFirst) (hChild _ _ hSecond)
  | declare hValue => exact .declare (hChild _ _ hValue)
  | assign hValue => exact .assign (hChild _ _ hValue)
  | function hParams hBody => exact .function (params?_of_grows h hParams) (hChild _ _ hBody)
  | call hCallee hArgs hTrees =>
    exact .call (hChild _ _ hCallee) (args?_of_grows h hArgs) (hTrees.imp hChild)

theorem Unfolds.span_eq {child : NodeId → Tree → Prop} {span : Span} {form : Form} {tree : Tree}
    (hTree : Unfolds t child span form tree) : tree.span = span := by
  cases hTree <;> rfl

theorem treeWith?_eq_some_iff {child? : NodeId → Option Tree} {n : Node} {tree : Tree} :
    t.treeWith? child? n = some tree ↔
      Unfolds t (fun id subtree => child? id = some subtree) n.span n.form tree := by
  obtain ⟨form, span⟩ := n
  constructor
  · intro h
    cases form with
    | branch condition consequent alternative =>
      cases alternative <;>
        simp only [treeWith?, Option.bind_eq_bind, Option.bind_eq_some_iff, Option.pure_def,
          Option.some.injEq] at h
      · obtain ⟨c, hCondition, a, hConsequent, rfl⟩ := h
        exact .branch hCondition hConsequent
      · obtain ⟨c, hCondition, a, hConsequent, b, hAlternative, rfl⟩ := h
        exact .branchElse hCondition hConsequent hAlternative
    | _ =>
      simp only [treeWith?, Option.bind_eq_bind, Option.bind_eq_some_iff, Option.pure_def,
        Option.some.injEq, mapM_eq_some_iff_forall₂] at h
      grind [Unfolds]
  · intro h
    cases h with
    | call hCallee hArgs hTrees =>
      simp [treeWith?, hCallee, hArgs, mapM_eq_some_iff_forall₂.mpr hTrees]
    | _ => simp_all [treeWith?]

/-- A node unfolds when its children, which stand before it, do. -/
theorem tree?_eq_some_iff {id : NodeId} {tree : Tree} :
    t.tree? id = some tree ↔ ∃ n, t.node? id = some n ∧
      Unfolds t (fun child subtree => child < id ∧ t.tree? child = some subtree)
        n.span n.form tree := by
  rw [tree?, Option.bind_eq_some_iff]
  refine exists_congr fun n => and_congr_right fun _ => ?_
  rw [treeWith?_eq_some_iff]
  have hChild : ∀ child subtree, (if child < id then t.tree? child else none) = some subtree ↔
      child < id ∧ t.tree? child = some subtree := fun _ _ => Option.ite_none_right_eq_some
  simp only [hChild]

/-! ## Growth of trees -/

/-- A node keeps its tree while its table grows. -/
theorem tree?_of_grows {id : NodeId} {tree : Tree} (h : t.Grows u)
    (hTree : t.tree? id = some tree) : u.tree? id = some tree := by
  induction id using Nat.strongRecOn generalizing tree with
  | ind id ih =>
    obtain ⟨n, hNode, hShape⟩ := tree?_eq_some_iff.mp hTree
    refine tree?_eq_some_iff.mpr ⟨n, node?_of_grows h hNode, hShape.imp h ?_⟩
    intro child subtree hChild
    exact ⟨hChild.1, ih child hChild.1 hChild.2⟩

theorem lt_size_of_tree? {id : NodeId} {tree : Tree} (hTree : t.tree? id = some tree) :
    id < t.size := by
  obtain ⟨n, hNode, -⟩ := tree?_eq_some_iff.mp hTree
  exact (Array.getElem?_eq_some_iff.mp hNode).1

/-- A tree has the span of its node. -/
theorem spanOf_of_tree? {id : NodeId} {tree : Tree} (hTree : t.tree? id = some tree) :
    t.spanOf id = tree.span := by
  obtain ⟨n, hNode, hShape⟩ := tree?_eq_some_iff.mp hTree
  rw [spanOf, hNode, hShape.span_eq]
  rfl

/-! ## Trees of what is added -/

/-- The tree of a node that is added to the table of its children. -/
theorem tree?_addNode {form : Form} {span : Span} {tree : Tree}
    (hTree : Unfolds t (fun child subtree => t.tree? child = some subtree) span form tree) :
    (t.addNode form span).2.tree? (t.addNode form span).1 = some tree := by
  have hGrows := t.grows_addNode form span
  refine tree?_eq_some_iff.mpr ⟨_, t.node?_addNode form span, hTree.imp hGrows ?_⟩
  intro child subtree hChild
  exact ⟨lt_size_of_tree? hChild, tree?_of_grows hGrows hChild⟩

theorem tree?_addPair {first second : NodeId} {a b : Tree} (hFirst : t.tree? first = some a)
    (hSecond : t.tree? second = some b) :
    (t.addPair first second).2.tree? (t.addPair first second).1
      = some (.sequence (a.span.merge b.span) a b) := by
  rw [addPair, spanOf_of_tree? hFirst, spanOf_of_tree? hSecond]
  exact tree?_addNode (.sequence hFirst hSecond)

theorem tree?_addChain {first : NodeId} {more : List NodeId} {tree : Tree} {trees : List Tree}
    (hFirst : t.tree? first = some tree)
    (hMore : List.Forall₂ (fun id tree => t.tree? id = some tree) more trees) :
    (t.addChain first more).2.tree? (t.addChain first more).1 = some (tree.chain trees) := by
  induction more generalizing t first tree trees with
  | nil =>
    cases hMore
    exact hFirst
  | cons second more ih =>
    cases hMore with
    | cons hSecond hMore =>
      have hGrows : t.Grows (t.addPair first second).2 := t.grows_addNode _ _
      have hTail := ih (tree?_addPair hFirst hSecond)
        (hMore.imp fun _ _ => tree?_of_grows hGrows)
      exact hTail

theorem tree?_addRun {emptySpan : Span} {ids : List NodeId} {trees : List Tree}
    (hIds : List.Forall₂ (fun id tree => t.tree? id = some tree) ids trees) :
    (t.addRun emptySpan ids).2.tree? (t.addRun emptySpan ids).1
      = some (Tree.run emptySpan trees) := by
  cases hIds with
  | nil => exact tree?_addNode .null
  | cons hFirst hMore => exact tree?_addChain hFirst hMore

theorem tree?_addBinary {op : Operator} {left right : NodeId} {a b : Tree}
    (hLeft : t.tree? left = some a) (hRight : t.tree? right = some b) :
    (t.addBinary op left right).2.tree? (t.addBinary op left right).1
      = some (.binary (a.span.merge b.span) op a b) := by
  rw [addBinary, spanOf_of_tree? hLeft, spanOf_of_tree? hRight]
  exact tree?_addNode (.binary hLeft hRight)

theorem tree?_addCall {callee : NodeId} {ids : List NodeId} {close : Span} {f : Tree}
    {trees : List Tree} (hCallee : t.tree? callee = some f)
    (hIds : List.Forall₂ (fun id tree => t.tree? id = some tree) ids trees) :
    (t.addCall callee ids close).2.tree? (t.addCall callee ids close).1
      = some (.call (f.span.merge close) f trees) := by
  have hGrows := t.grows_addArgs ids
  have hCallee' := tree?_of_grows hGrows hCallee
  rw [← spanOf_of_tree? hCallee']
  exact tree?_addNode (.call hCallee' (t.args?_addArgs ids)
    (hIds.imp fun _ _ => tree?_of_grows hGrows))

theorem tree?_addFunction {name : Option Name} {names : List Name} {body : NodeId} {span : Span}
    {tree : Tree} (hBody : t.tree? body = some tree) :
    (t.addFunction name names body span).2.tree? (t.addFunction name names body span).1
      = some (.named name span names tree) := by
  have hFunction : (t.addFunction none names body span).2.tree?
      (t.addFunction none names body span).1 = some (.function span names tree) :=
    tree?_addNode (.function (t.params?_addParams names)
      (tree?_of_grows (t.grows_addParams names) hBody))
  cases name with
  | none => exact hFunction
  | some name => exact tree?_addNode (.declare hFunction)

end NodeTable

end FeatherScript
