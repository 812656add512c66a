import FeatherScript.Proofs.Tree.Unfolding

/-!
# One table behind another

A table that is put behind another one has its numbers and slices moved by the sizes of the other.
There it grows as it does by itself, and its nodes unfold to the same trees, whatever it stands
behind.

* `NodeTable.append`, `Form.shift`: tables one behind the other, and how references move.
* `addNode_append`, `addArgs_append`, `addParams_append`: additions at the end.
* `tree?_append`: trees stay the same.
-/

namespace FeatherScript

/-! ## Moving references -/

/-- A slice of a list that is put behind others of the given length. -/
def Slice.shift (n : Nat) (s : Slice) : Slice := ⟨n + s.start, s.size⟩

/-- A construct of a table that is put behind another one. -/
def Form.shift (base : NodeTable) : Form → Form
  | .int value => .int value
  | .bool value => .bool value
  | .null => .null
  | .ref name => .ref name
  | .print a => .print (base.size + a)
  | .binary op a b => .binary op (base.size + a) (base.size + b)
  | .branch c a b => .branch (base.size + c) (base.size + a) (b.map (base.size + ·))
  | .loop c b => .loop (base.size + c) (base.size + b)
  | .sequence a b => .sequence (base.size + a) (base.size + b)
  | .declare name a => .declare name (base.size + a)
  | .assign name a => .assign name (base.size + a)
  | .function params b => .function (params.shift base.params.size) (base.size + b)
  | .call f args => .call (base.size + f) (args.shift base.args.size)

def Node.shift (base : NodeTable) (n : Node) : Node := ⟨n.form.shift base, n.span⟩

/-- A table, and another one behind it. -/
def NodeTable.append (base t : NodeTable) : NodeTable where
  nodes := base.nodes ++ t.nodes.map (Node.shift base)
  args := base.args ++ t.args.map (base.size + ·)
  params := base.params ++ t.params

theorem Slice.read?_shift {α : Type} (xs ys : Array α) (s : Slice) :
    (s.shift xs.size).read? (xs ++ ys) = s.read? ys := by
  have hStop : (s.shift xs.size).stop = xs.size + s.stop := Nat.add_assoc _ _ _
  have hFits : (s.shift xs.size).stop ≤ (xs ++ ys).size ↔ s.stop ≤ ys.size := by
    rw [hStop, Array.size_append, Nat.add_le_add_iff_left]
  have hMembers : (xs ++ ys).extract (xs.size + s.start) (xs.size + s.stop) =
      ys.extract s.start s.stop := by
    simp [Array.extract_append]
  have hWhole : (xs ++ ys).extract (s.shift xs.size).start (s.shift xs.size).stop =
      ys.extract s.start s.stop := hStop ▸ hMembers
  simp only [Slice.read?, hFits, hWhole]

theorem Slice.read?_map {α β : Type} (f : α → β) (xs : Array α) (s : Slice) :
    s.read? (xs.map f) = (s.read? xs).map (List.map f) := by
  rw [Slice.read?, Slice.read?, Array.size_map]
  split
  · simp
  · rfl

namespace NodeTable

variable {base t : NodeTable}

theorem append_empty (base : NodeTable) : base.append empty = base := by
  simp [append, empty]

/-- Behind an empty table nothing moves. -/
theorem empty_append (t : NodeTable) : empty.append t = t := by
  have hSlice : ∀ s : Slice, s.shift 0 = s := fun s => by simp [Slice.shift]
  have hForm : ∀ form : Form, form.shift empty = form := fun form => by
    cases form <;> simp [Form.shift, empty, size, hSlice]
  have hNode : Node.shift empty = id := funext fun n => by simp [Node.shift, hForm]
  rw [append, hNode]
  simp [empty, size]

/-! ## Additions -/

theorem addNode_append (base t : NodeTable) (form : Form) (span : Span) :
    (base.append t).addNode (form.shift base) span =
      (base.size + (t.addNode form span).1, base.append (t.addNode form span).2) := by
  simp [addNode, append, size, Node.shift]

theorem addArgs_append (base t : NodeTable) (ids : List NodeId) :
    (base.append t).addArgs (ids.map (base.size + ·)) =
      ((t.addArgs ids).1.shift base.args.size, base.append (t.addArgs ids).2) := by
  simp [addArgs, append, Slice.shift]

theorem addParams_append (base t : NodeTable) (names : List Name) :
    (base.append t).addParams names =
      ((t.addParams names).1.shift base.params.size, base.append (t.addParams names).2) := by
  simp [addParams, append, Slice.shift]

/-! ## Trees -/

theorem node?_append (id : NodeId) :
    (base.append t).node? (base.size + id) = (t.node? id).map (Node.shift base) := by
  change (base.nodes ++ t.nodes.map (Node.shift base))[base.nodes.size + id]? = _
  rw [Array.getElem?_append_right (Nat.le_add_right _ _), Nat.add_sub_cancel_left,
    Array.getElem?_map, node?]

theorem args?_append (s : Slice) :
    (base.append t).args? (s.shift base.args.size) =
      (t.args? s).map (List.map (base.size + ·)) := by
  rw [args?, append, Slice.read?_shift, Slice.read?_map, args?]

theorem params?_append (s : Slice) :
    (base.append t).params? (s.shift base.params.size) = t.params? s := by
  rw [params?, append, Slice.read?_shift, params?]

theorem spanOf_append (id : NodeId) : (base.append t).spanOf (base.size + id) = t.spanOf id := by
  rw [spanOf, spanOf, node?_append]
  cases t.node? id with
  | none => rfl
  | some n => rfl

theorem treeWith?_append {child? child?' : NodeId → Option Tree}
    (hChild : ∀ id, child?' (base.size + id) = child? id) (n : Node) :
    (base.append t).treeWith? child?' (n.shift base) = t.treeWith? child? n := by
  obtain ⟨form, span⟩ := n
  cases form with
  | branch c a b => cases b <;> simp [treeWith?, Node.shift, Form.shift, hChild]
  | function params body =>
    simp [treeWith?, Node.shift, Form.shift, hChild, params?_append]
  | call callee args =>
    simp only [treeWith?, Node.shift, Form.shift, hChild, args?_append]
    cases t.args? args with
    | none => rfl
    | some ids =>
      have hTrees : (ids.map (base.size + ·)).mapM child?' = ids.mapM child? := by
        induction ids with
        | nil => rfl
        | cons id ids ih => simp [List.mapM_cons, hChild, ih]
      simp only [Option.map_some, Option.bind_eq_bind, Option.bind_some, hTrees]
  | _ => simp [treeWith?, Node.shift, Form.shift, hChild]

/-- What stands before a table does not change its trees. -/
theorem tree?_append (base t : NodeTable) (id : NodeId) :
    (base.append t).tree? (base.size + id) = t.tree? id := by
  induction id using Nat.strongRecOn with
  | ind id ih =>
    rw [tree?, tree?, node?_append]
    cases t.node? id with
    | none => rfl
    | some n =>
      refine treeWith?_append (fun child => ?_) n
      by_cases hLess : child < id
      · rw [if_pos hLess, if_pos (Nat.add_lt_add_left hLess _), ih child hLess]
      · rw [if_neg hLess, if_neg (mt Nat.lt_of_add_lt_add_left hLess)]

end NodeTable

end FeatherScript
