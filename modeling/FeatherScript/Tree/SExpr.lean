import FeatherScript.Integer
import FeatherScript.Tree.Basic

/-!
# Trees as symbolic expressions

A tree is shown on one line as nested lists: a leaf is an atom, any other construct a list that
begins with its own atom.

* `SExpr.text` writes an expression, with one blank between the members of a list.
* `Tree.sexpr` is the expression of a tree, given how names are written.
-/

namespace FeatherScript

/-- An atom, or a list of expressions. -/
inductive SExpr
  | atom (text : String)
  | list (members : List SExpr)

mutual

def SExpr.text : SExpr → String
  | .atom s => s
  | .list members => "(" ++ SExpr.membersText members ++ ")"

/-- The members of a list with a blank between any two. -/
def SExpr.membersText : List SExpr → String
  | [] => ""
  | [x] => x.text
  | x :: y :: rest => x.text ++ " " ++ SExpr.membersText (y :: rest)

end

mutual

/-- A tree as a symbolic expression. -/
def Tree.sexpr (showName : Name → String) : Tree → SExpr
  | .int _ value => .atom (Integer.text value)
  | .bool _ value => .atom (toString value)
  | .null _ => .atom "null"
  | .ref _ name => .atom (showName name)
  | .print _ argument => .list [.atom "print", argument.sexpr showName]
  | .binary _ op left right =>
    .list [.atom op.sign, left.sexpr showName, right.sexpr showName]
  | .branch _ condition consequent alternative =>
    .list (.atom "if" :: condition.sexpr showName :: consequent.sexpr showName
      :: Tree.sexprOption showName alternative)
  | .loop _ condition body =>
    .list [.atom "while", condition.sexpr showName, body.sexpr showName]
  | .sequence _ first second =>
    .list [.atom "seq", first.sexpr showName, second.sexpr showName]
  | .declare _ name value =>
    .list [.atom "var", .atom (showName name), value.sexpr showName]
  | .assign _ name value =>
    .list [.atom "=", .atom (showName name), value.sexpr showName]
  | .function _ params body =>
    .list [.atom "function", .list (params.map fun p => .atom (showName p)), body.sexpr showName]
  | .call _ callee args =>
    .list (.atom "call" :: callee.sexpr showName :: Tree.sexprList showName args)

/-- The branch that may be missing, as no or one member. -/
def Tree.sexprOption (showName : Name → String) : Option Tree → List SExpr
  | none => []
  | some t => [t.sexpr showName]

/-- Several trees as members of a list. -/
def Tree.sexprList (showName : Name → String) : List Tree → List SExpr
  | [] => []
  | t :: ts => t.sexpr showName :: Tree.sexprList showName ts

end

/-- The text of a tree, with names read from a table. -/
def Tree.dump (names : NameTable) (t : Tree) : String := (t.sexpr names.lookup).text

end FeatherScript
