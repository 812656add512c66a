import FeatherScript.Node

/-!
# Constructs made of several nodes

A run of statements has no node of its own: it is a chain of sequences that leans to the left, and
an empty run is a null literal. A named function is the declaration of its name with the function
for its value. In each case the parts are stored before what is made of them, and the table grows.
-/

namespace FeatherScript.NodeTable

/-- The sequence of two nodes, over the spans of both. -/
def addPair (t : NodeTable) (first second : NodeId) : NodeId × NodeTable :=
  t.addNode (.sequence first second) ((t.spanOf first).merge (t.spanOf second))

/-- The chain of a first node and those after it. -/
def addChain (t : NodeTable) (first : NodeId) : List NodeId → NodeId × NodeTable
  | [] => (first, t)
  | second :: more =>
    let (pair, t) := t.addPair first second
    t.addChain pair more

/-- A run of statements; the span is that of an empty run. -/
def addRun (t : NodeTable) (emptySpan : Span) : List NodeId → NodeId × NodeTable
  | [] => t.addNode .null emptySpan
  | first :: more => t.addChain first more

/-- The operation on two operands, over the spans of both. -/
def addBinary (t : NodeTable) (op : Operator) (left right : NodeId) : NodeId × NodeTable :=
  t.addNode (.binary op left right) ((t.spanOf left).merge (t.spanOf right))

/-- A call whose closing parenthesis has the given span. -/
def addCall (t : NodeTable) (callee : NodeId) (args : List NodeId) (close : Span) :
    NodeId × NodeTable :=
  let (slice, t) := t.addArgs args
  t.addNode (.call callee slice) ((t.spanOf callee).merge close)

/-- A function, declared under its name if it has one. -/
def addFunction (t : NodeTable) (name : Option Name) (params : List Name) (body : NodeId)
    (span : Span) : NodeId × NodeTable :=
  let (slice, t) := t.addParams params
  let (function, t) := t.addNode (.function slice body) span
  match name with
  | some name => t.addNode (.declare name function) span
  | none => (function, t)

/-! ## Growth -/

theorem grows_addChain (t : NodeTable) (first : NodeId) (more : List NodeId) :
    t.Grows (t.addChain first more).2 := by
  induction more generalizing t first with
  | nil => exact .refl t
  | cons second more ih => exact (t.grows_addNode _ _).trans (ih _ _)

theorem grows_addRun (t : NodeTable) (emptySpan : Span) (ids : List NodeId) :
    t.Grows (t.addRun emptySpan ids).2 := by
  cases ids with
  | nil => exact t.grows_addNode .null emptySpan
  | cons first more => exact t.grows_addChain first more

theorem grows_addBinary (t : NodeTable) (op : Operator) (left right : NodeId) :
    t.Grows (t.addBinary op left right).2 :=
  t.grows_addNode _ _

theorem grows_addCall (t : NodeTable) (callee : NodeId) (args : List NodeId) (close : Span) :
    t.Grows (t.addCall callee args close).2 :=
  (t.grows_addArgs args).trans (grows_addNode _ _ _)

theorem grows_addFunction (t : NodeTable) (name : Option Name) (params : List Name)
    (body : NodeId) (span : Span) : t.Grows (t.addFunction name params body span).2 := by
  have hFunction := (t.grows_addParams params).trans
    (grows_addNode _ (.function (t.addParams params).1 body) span)
  cases name with
  | none => exact hFunction
  | some name => exact hFunction.trans (grows_addNode _ _ _)

end FeatherScript.NodeTable
