import FeatherScript.Proofs.Tree.Construction
import FeatherScript.Proofs.Tree.Unfolding
import Mathlib.Data.List.Nodup

/-!
# Tables as forests

In the table of a parser every node is the child of one node, or pending, or an orphan: it occurs
once among the children of all nodes, the pending nodes and the orphans. So a node has one parent at
most, and when everything was read, the root has none.

* `Forest`: each node occurs once.
* `Built.forest`: a table that was built is a forest.
* `Forest.parent_unique`, `Forest.root_no_child`: the consequences for paths.
-/

namespace FeatherScript

namespace Form

/-- The arguments of a construct: those of a call. -/
def arguments (t : NodeTable) : Form → List NodeId
  | .call _ args => (t.args? args).getD []
  | _ => []

/-- All children of a construct. -/
def children (t : NodeTable) (form : Form) : List NodeId := form.parts ++ form.arguments t

/-- The children of a construct that are evaluated with it: all but the body of a function. -/
def operands (t : NodeTable) : Form → List NodeId
  | .function _ _ => []
  | form => form.children t

/-- The arguments of a call can be read. -/
def HasArgs (t : NodeTable) : Form → Prop
  | .call _ args => ∃ ids, t.args? args = some ids
  | _ => True

variable {t : NodeTable} {form : Form}

theorem children_of_plain (hPlain : form.Plain) : form.children t = form.parts := by
  cases form with
  | function | call => exact hPlain.elim
  | _ => exact List.append_nil _

theorem hasArgs_of_plain (hPlain : form.Plain) : form.HasArgs t := by
  cases form with
  | function | call => exact hPlain.elim
  | _ => trivial

end Form

namespace NodeTable

variable {t u : NodeTable} {pending pending' orphans rest : List NodeId}

/-- The children of all nodes. -/
def references (t : NodeTable) : List NodeId :=
  t.nodes.toList.flatMap fun n => n.form.children t

/-- Each node of the table is the child of one node, or pending, or an orphan. -/
structure Forest (t : NodeTable) (pending orphans : List NodeId) : Prop where
  hasArgs : ∀ n ∈ t.nodes.toList, n.form.HasArgs t
  once : ∀ id, t.references.count id + pending.count id + orphans.count id
    = if id < t.size then 1 else 0

theorem Forest.of_count (h : t.Forest pending orphans)
    (hCount : ∀ id, pending.count id + orphans.count id = pending'.count id + rest.count id) :
    t.Forest pending' rest := by
  refine ⟨h.hasArgs, fun id => ?_⟩
  have hOnce := h.once id
  have hSame := hCount id
  omega

/-! ## Nodes -/

/-- The children of a construct stay the same, once its arguments can be read. -/
theorem children_of_grows {form : Form} (hGrows : t.Grows u) (hArgs : form.HasArgs t) :
    form.children u = form.children t := by
  cases form with
  | call callee args =>
    obtain ⟨ids, hIds⟩ := hArgs
    simp only [Form.children, Form.arguments, hIds, args?_of_grows hGrows hIds]
  | _ => rfl

theorem hasArgs_of_grows {form : Form} (hGrows : t.Grows u) (hArgs : form.HasArgs t) :
    form.HasArgs u := by
  cases form with
  | call callee args => exact hArgs.imp fun _ => args?_of_grows hGrows
  | _ => trivial

theorem children_addNode (form form' : Form) (span : Span) :
    form'.children (t.addNode form span).2 = form'.children t := by
  cases form' <;> rfl

theorem hasArgs_addNode (form form' : Form) (span : Span) :
    form'.HasArgs (t.addNode form span).2 ↔ form'.HasArgs t := by
  cases form' <;> rfl

theorem toList_addNode (form : Form) (span : Span) :
    (t.addNode form span).2.nodes.toList = t.nodes.toList ++ [⟨form, span⟩] :=
  Array.toList_push

theorem references_addNode (form : Form) (span : Span) :
    (t.addNode form span).2.references = t.references ++ form.children t := by
  unfold references
  rw [toList_addNode, List.flatMap_append, List.flatMap_singleton]
  simp only [children_addNode]

theorem Forest.addNode {form : Form} {span : Span} (hArgs : form.HasArgs t)
    (h : t.Forest (form.children t ++ rest) orphans) :
    (t.addNode form span).2.Forest ((t.addNode form span).1 :: rest) orphans := by
  refine ⟨fun n hMem => ?_, fun id => ?_⟩
  · rw [toList_addNode] at hMem
    rw [hasArgs_addNode]
    rcases List.mem_append.mp hMem with hOld | hNew
    · exact h.hasArgs n hOld
    · rw [List.mem_singleton.mp hNew]
      exact hArgs
  · have hOnce := h.once id
    have hSize : (t.addNode form span).2.size = t.size + 1 := Array.size_push _
    have hId : (t.addNode form span).1 = t.size := rfl
    rw [List.count_append] at hOnce
    rw [references_addNode, List.count_append, hSize, hId, List.count_cons]
    by_cases hNew : id = t.size
    · subst hNew
      simp only [Nat.lt_irrefl, if_false] at hOnce
      simp only [beq_self_eq_true, if_true, Nat.lt_succ_self]
      omega
    · have hOther : (t.size == id) = false := beq_false_of_ne (Ne.symm hNew)
      have hLess : id < t.size + 1 ↔ id < t.size := by
        rw [Nat.lt_succ_iff_lt_or_eq, or_iff_left hNew]
      rw [if_congr hLess rfl rfl, hOther, ← hOnce]
      simp only [Bool.false_eq_true, if_false]
      omega

/-! ## Lists of arguments and parameters -/

/-- The children of a call whose arguments were added are its callee and those arguments. -/
theorem children_call_addArgs (t : NodeTable) (callee : NodeId) (ids : List NodeId) :
    (Form.call callee (t.addArgs ids).1).children (t.addArgs ids).2 = callee :: ids := by
  simp only [Form.children, Form.parts, Form.arguments, t.args?_addArgs ids, Option.getD_some,
    List.singleton_append]

/-- Lists are added without a node. -/
theorem Forest.of_grows (hGrows : t.Grows u) (hNodes : u.nodes = t.nodes)
    (h : t.Forest pending orphans) : u.Forest pending orphans := by
  have hReferences : u.references = t.references := by
    unfold references
    rw [hNodes]
    exact List.flatMap_congr fun n hMem => children_of_grows hGrows (h.hasArgs n hMem)
  refine ⟨fun n hMem => hasArgs_of_grows hGrows (h.hasArgs n (hNodes ▸ hMem)), fun id => ?_⟩
  rw [hReferences, size, hNodes]
  exact h.once id

/-! ## Tables that were built -/

theorem Forest.addCall {callee : NodeId} {ids : List NodeId} {close : Span}
    (h : t.Forest (callee :: ids ++ rest) orphans) :
    (t.addCall callee ids close).2.Forest ((t.addCall callee ids close).1 :: rest) orphans := by
  have hPending : (t.addArgs ids).2.Forest
      ((Form.call callee (t.addArgs ids).1).children (t.addArgs ids).2 ++ rest) orphans := by
    rw [children_call_addArgs]
    exact h.of_grows (t.grows_addArgs ids) rfl
  exact Forest.addNode ⟨ids, t.args?_addArgs ids⟩ hPending

theorem Built.forest (h : t.Built pending orphans) : t.Forest pending orphans := by
  induction h with
  | empty => exact ⟨nofun, fun _ => rfl⟩
  | plain hPlain h ih =>
    rw [← Form.children_of_plain hPlain] at ih
    exact Forest.addNode (Form.hasArgs_of_plain hPlain) ih
  | call h ih => exact ih.addCall
  | function h ih => exact Forest.addNode trivial (ih.of_grows (grows_addParams _ _) rfl)
  | reorder hPerm h ih => exact ih.of_count fun id => by rw [hPerm.count_eq]
  | drop h ih =>
    refine ih.of_count fun id => ?_
    rw [List.count_append, List.count_append]
    omega

/-! ## Parents -/

/-- One node is a child of another. -/
def Child (t : NodeTable) (child parent : NodeId) : Prop :=
  ∃ n, t.node? parent = some n ∧ child ∈ n.form.children t

variable {id child parent parent' root : NodeId}

theorem Child.mem_references (h : t.Child child parent) : child ∈ t.references := by
  obtain ⟨n, hNode, hMem⟩ := h
  have hNode' : t.nodes.toList[parent]? = some n := by
    rw [Array.getElem?_toList]
    exact hNode
  exact List.mem_flatMap.mpr ⟨n, List.mem_of_getElem? hNode', hMem⟩

theorem Forest.count_le (h : t.Forest pending orphans) (id : NodeId) :
    t.references.count id + pending.count id ≤ 1 := by
  have hOnce := h.once id
  split at hOnce <;> omega

/-- A pending node is no child. -/
theorem Forest.not_child (h : t.Forest pending orphans) (hPending : id ∈ pending) :
    ¬ t.Child id parent := by
  intro hChild
  have hReferences := List.count_pos_iff.mpr hChild.mem_references
  have hCount := List.count_pos_iff.mpr hPending
  have hOnce := h.count_le id
  omega

theorem Forest.nodup_references (h : t.Forest pending orphans) : t.references.Nodup :=
  List.nodup_iff_count.mpr fun id => Nat.le_trans (Nat.le_add_right _ _) (h.count_le id)

/-- A node is the child of one node at most. -/
theorem Forest.parent_unique (h : t.Forest pending orphans) (hFirst : t.Child child parent)
    (hSecond : t.Child child parent') : parent = parent' := by
  obtain ⟨n, hNode, hMem⟩ := hFirst
  obtain ⟨n', hNode', hMem'⟩ := hSecond
  obtain ⟨hSize, rfl⟩ := Array.getElem?_eq_some_iff.mp hNode
  obtain ⟨hSize', rfl⟩ := Array.getElem?_eq_some_iff.mp hNode'
  have hDisjoint := (List.nodup_flatMap.mp h.nodup_references).2
  rw [List.pairwise_iff_getElem] at hDisjoint
  rcases Nat.lt_trichotomy parent parent' with hLess | hSame | hMore
  · exact absurd hMem' (hDisjoint parent parent' hSize hSize' hLess hMem)
  · exact hSame
  · exact absurd hMem (hDisjoint parent' parent hSize' hSize hMore hMem')

/-! ## Enclosing functions -/

/-- A node of the tree of a root stands inside some functions, the innermost first. -/
inductive Within (t : NodeTable) (root : NodeId) : NodeId → List NodeId → Prop
  | root : Within t root root []
  | operand {id n child fs} (h : Within t root id fs) (hNode : t.node? id = some n)
      (hChild : child ∈ n.form.operands t) : Within t root child fs
  | body {id params body span fs} (h : Within t root id fs)
      (hNode : t.node? id = some ⟨.function params body, span⟩) : Within t root body (id :: fs)

theorem child_of_function {params : Slice} {body : NodeId} {span : Span}
    (hNode : t.node? id = some ⟨.function params body, span⟩) : t.Child body id :=
  ⟨_, hNode, List.mem_singleton_self body⟩

theorem child_of_operand {n : Node} (hNode : t.node? id = some n)
    (hChild : child ∈ n.form.operands t) : t.Child child id := by
  obtain ⟨form, span⟩ := n
  cases form with
  | function => cases hChild
  | _ => exact ⟨_, hNode, hChild⟩

/-- The functions that a node stands inside are determined by the node. -/
theorem Within.unique {fs fs' : List NodeId} (hForest : t.Forest [root] [])
    (h : t.Within root id fs) (h' : t.Within root id fs') : fs = fs' := by
  have hRoot := List.mem_singleton_self root
  induction h generalizing fs' with
  | root =>
    cases h' with
    | root => rfl
    | operand _ hNode hChild =>
      exact absurd (child_of_operand hNode hChild) (hForest.not_child hRoot)
    | body _ hNode => exact absurd (child_of_function hNode) (hForest.not_child hRoot)
  | operand h hNode hChild ih =>
    have hParent := child_of_operand hNode hChild
    cases h' with
    | root => exact absurd hParent (hForest.not_child hRoot)
    | operand h' hNode' hChild' =>
      obtain rfl := hForest.parent_unique hParent (child_of_operand hNode' hChild')
      exact ih h'
    | body h' hNode' =>
      obtain rfl := hForest.parent_unique hParent (child_of_function hNode')
      cases hNode.symm.trans hNode'
      cases hChild
  | body h hNode ih =>
    have hParent := child_of_function hNode
    cases h' with
    | root => exact absurd hParent (hForest.not_child hRoot)
    | operand h' hNode' hChild' =>
      obtain rfl := hForest.parent_unique hParent (child_of_operand hNode' hChild')
      cases hNode.symm.trans hNode'
      cases hChild'
    | body h' hNode' =>
      obtain rfl := hForest.parent_unique hParent (child_of_function hNode')
      rw [ih h']

end NodeTable

end FeatherScript
