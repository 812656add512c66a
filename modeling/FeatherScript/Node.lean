import FeatherScript.Name
import FeatherScript.Operator
import FeatherScript.Source.Span

/-!
# The node table

A program is kept as a table of nodes that refer to each other by number. The arguments of all calls
stand in one list and the parameters of all functions in another; a call or a function holds a slice
of its list. Nodes are numbered in the order in which they are stored, so children stored first have
smaller numbers than their parents.

* `NodeTable.node?`, `args?` and `params?` read the table and fail outside it.
* `NodeTable.addNode`, `addArgs` and `addParams` extend the table at its end, so that it `Grows`.
-/

namespace FeatherScript

/-- The number of a node in its table. -/
abbrev NodeId := Nat

/-- A contiguous part of a list, by its first index and its length. -/
structure Slice where
  start : Nat
  size : Nat
deriving DecidableEq, Inhabited

namespace Slice

/-- The index just past the slice. -/
def stop (s : Slice) : Nat := s.start + s.size

/-- The members of the slice, if it lies inside the array. -/
def read? {α : Type} (s : Slice) (xs : Array α) : Option (List α) :=
  if s.stop ≤ xs.size then some (xs.extract s.start s.stop).toList else none

/-- A list added at the end of an array is the slice from the old end on. -/
theorem read?_append {α : Type} (xs : Array α) (ys : List α) :
    read? ⟨xs.size, ys.length⟩ (xs ++ ys.toArray) = some ys := by
  simp [read?, stop]

end Slice

/-! ## Nodes -/

/-- The construct a node stands for, with its children by number. -/
inductive Form
  | int (value : Int64)
  | bool (value : Bool)
  | null
  | ref (name : Name)
  | print (argument : NodeId)
  | binary (op : Operator) (left right : NodeId)
  | branch (condition consequent : NodeId) (alternative : Option NodeId)
  | loop (condition body : NodeId)
  | sequence (first second : NodeId)
  | declare (name : Name) (value : NodeId)
  | assign (name : Name) (value : NodeId)
  | function (params : Slice) (body : NodeId)
  | call (callee : NodeId) (args : Slice)
deriving DecidableEq, Inhabited

/-- A construct and the span it was read from. -/
structure Node where
  form : Form
  span : Span
deriving DecidableEq, Inhabited

/-- All nodes of a program, with the lists that calls and functions refer to. -/
structure NodeTable where
  nodes : Array Node
  args : Array NodeId
  params : Array Name
deriving DecidableEq

namespace NodeTable

def empty : NodeTable := ⟨#[], #[], #[]⟩

def size (t : NodeTable) : Nat := t.nodes.size

def node? (t : NodeTable) (id : NodeId) : Option Node := t.nodes[id]?

/-- The span of a node, and that of no place for a number without node. -/
def spanOf (t : NodeTable) (id : NodeId) : Span := (t.node? id).elim .origin Node.span

def args? (t : NodeTable) (s : Slice) : Option (List NodeId) := s.read? t.args

def params? (t : NodeTable) (s : Slice) : Option (List Name) := s.read? t.params

/-- The table with one more node, and the number of that node. -/
def addNode (t : NodeTable) (form : Form) (span : Span) : NodeId × NodeTable :=
  (t.nodes.size, { t with nodes := t.nodes.push ⟨form, span⟩ })

/-- The table with the arguments of one more call, and their slice. -/
def addArgs (t : NodeTable) (ids : List NodeId) : Slice × NodeTable :=
  (⟨t.args.size, ids.length⟩, { t with args := t.args ++ ids.toArray })

/-- The table with the parameters of one more function, and their slice. -/
def addParams (t : NodeTable) (names : List Name) : Slice × NodeTable :=
  (⟨t.params.size, names.length⟩, { t with params := t.params ++ names.toArray })

/-! ## Growth -/

/-- A table holds all that another one holds, under the same numbers. -/
structure Grows (t u : NodeTable) : Prop where
  nodes : t.nodes.toList <+: u.nodes.toList
  args : t.args.toList <+: u.args.toList
  params : t.params.toList <+: u.params.toList

theorem Grows.refl (t : NodeTable) : t.Grows t :=
  ⟨List.prefix_rfl, List.prefix_rfl, List.prefix_rfl⟩

theorem Grows.trans {t u v : NodeTable} (hFirst : t.Grows u) (hSecond : u.Grows v) : t.Grows v :=
  ⟨hFirst.nodes.trans hSecond.nodes, hFirst.args.trans hSecond.args,
    hFirst.params.trans hSecond.params⟩

theorem grows_addNode (t : NodeTable) (form : Form) (span : Span) :
    t.Grows (t.addNode form span).2 :=
  ⟨by simp [addNode], List.prefix_rfl, List.prefix_rfl⟩

theorem grows_addArgs (t : NodeTable) (ids : List NodeId) : t.Grows (t.addArgs ids).2 :=
  ⟨List.prefix_rfl, by simp [addArgs], List.prefix_rfl⟩

theorem grows_addParams (t : NodeTable) (names : List Name) : t.Grows (t.addParams names).2 :=
  ⟨List.prefix_rfl, List.prefix_rfl, by simp [addParams]⟩

/-! ## Small laws -/

/-- A node that was added has the number it was given. -/
theorem node?_addNode (t : NodeTable) (form : Form) (span : Span) :
    (t.addNode form span).2.node? (t.addNode form span).1 = some ⟨form, span⟩ := by
  simp [addNode, node?]

/-- Adding a node leaves the nodes before it as they were. -/
theorem node?_addNode_of_lt {t : NodeTable} {id : NodeId} (form : Form) (span : Span)
    (hOld : id < t.size) : (t.addNode form span).2.node? id = t.node? id := by
  have hSize : id < t.nodes.size := hOld
  simp [addNode, node?, Array.getElem?_push_lt hSize, hSize]

/-- The slice of added arguments holds those arguments. -/
theorem args?_addArgs (t : NodeTable) (ids : List NodeId) :
    (t.addArgs ids).2.args? (t.addArgs ids).1 = some ids :=
  Slice.read?_append t.args ids

/-- The slice of added parameters holds those parameters. -/
theorem params?_addParams (t : NodeTable) (names : List Name) :
    (t.addParams names).2.params? (t.addParams names).1 = some names :=
  Slice.read?_append t.params names

end NodeTable

end FeatherScript
