import FeatherScript.Node

/-!
# Program trees

The tree of a node is the program it stands for, without numbers: every child is a tree of its own,
and calls and functions hold their arguments and parameters themselves. Two tables that unfold to
the same tree hold the same program.

* `NodeTable.tree?` unfolds a node. It follows a reference only to a smaller number, so it always
  ends, and it answers `none` where a reference leads out of the table or is not smaller.
-/

namespace FeatherScript

/-- A program as a tree, every construct with the span it was read from. -/
inductive Tree
  | int (span : Span) (value : Int64)
  | bool (span : Span) (value : Bool)
  | null (span : Span)
  | ref (span : Span) (name : Name)
  | print (span : Span) (argument : Tree)
  | binary (span : Span) (op : Operator) (left right : Tree)
  | branch (span : Span) (condition consequent : Tree) (alternative : Option Tree)
  | loop (span : Span) (condition body : Tree)
  | sequence (span : Span) (first second : Tree)
  | declare (span : Span) (name : Name) (value : Tree)
  | assign (span : Span) (name : Name) (value : Tree)
  | function (span : Span) (params : List Name) (body : Tree)
  | call (span : Span) (callee : Tree) (args : List Tree)

namespace Tree

/-- The span of the outermost construct. -/
def span : Tree → Span
  | int s _ | bool s _ | null s | ref s _ | print s _ | binary s _ _ _ | branch s _ _ _
  | loop s _ _ | sequence s _ _ | declare s _ _ | assign s _ _ | function s _ _ | call s _ _ => s

end Tree

namespace NodeTable

/-- One level of unfolding, given how children unfold. -/
def treeWith? (t : NodeTable) (child? : NodeId → Option Tree) (n : Node) : Option Tree :=
  match n.form with
  | .int value => some (.int n.span value)
  | .bool value => some (.bool n.span value)
  | .null => some (.null n.span)
  | .ref name => some (.ref n.span name)
  | .print argument => return .print n.span (← child? argument)
  | .binary op left right => return .binary n.span op (← child? left) (← child? right)
  | .branch condition consequent none =>
    return .branch n.span (← child? condition) (← child? consequent) none
  | .branch condition consequent (some alternative) =>
    return .branch n.span (← child? condition) (← child? consequent) (some (← child? alternative))
  | .loop condition body => return .loop n.span (← child? condition) (← child? body)
  | .sequence first second => return .sequence n.span (← child? first) (← child? second)
  | .declare name value => return .declare n.span name (← child? value)
  | .assign name value => return .assign n.span name (← child? value)
  | .function params body => return .function n.span (← t.params? params) (← child? body)
  | .call callee args =>
    return .call n.span (← child? callee) (← (← t.args? args).mapM child?)

/-- The tree of a node whose references all lead to smaller numbers inside the table. -/
def tree? (t : NodeTable) (id : NodeId) : Option Tree :=
  (t.node? id).bind (t.treeWith? fun child => if child < id then tree? t child else none)
termination_by id

end NodeTable

end FeatherScript
