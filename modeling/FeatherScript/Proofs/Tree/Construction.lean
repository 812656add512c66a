import FeatherScript.Node.Build
import Mathlib.Data.List.Perm.Basic

/-!
# How a table is built

A parser builds its table from the leaves to the root. A node it has stored is pending until the
construct that it is part of is stored too, and an orphan if that construct could not be read.

* `Built`: a table that was built in this way, with its pending nodes and its orphans.
* `Built.addRun`, `Built.addBinary`, `Built.addCall`, `Built.addFunction`: the constructs of several
  nodes.
-/

namespace FeatherScript

/-! ## Children -/

namespace Form

/-- The children that a construct names itself: all but the arguments of a call. -/
def parts : Form → List NodeId
  | .int _ | .bool _ | .null | .ref _ => []
  | .print a | .declare _ a | .assign _ a | .function _ a => [a]
  | .binary _ a b | .loop a b | .sequence a b => [a, b]
  | .branch c a b => c :: a :: b.toList
  | .call callee _ => [callee]

/-- Whether a construct refers to no slice. -/
def Plain : Form → Prop
  | .function _ _ | .call _ _ => False
  | _ => True

end Form

namespace NodeTable

/-- A table to which nodes were added one after another. A new node takes its children from the
pending nodes and is pending itself; a pending node can be given up and is an orphan then. -/
inductive Built : NodeTable → List NodeId → List NodeId → Prop
  | empty : Built .empty [] []
  | plain {t form span rest orphans} (hPlain : form.Plain)
      (h : Built t (form.parts ++ rest) orphans) :
      Built (t.addNode form span).2 ((t.addNode form span).1 :: rest) orphans
  | call {t callee ids close rest orphans} (h : Built t (callee :: ids ++ rest) orphans) :
      Built (t.addCall callee ids close).2 ((t.addCall callee ids close).1 :: rest) orphans
  | function {t names body span rest orphans} (h : Built t (body :: rest) orphans) :
      Built (t.addFunction none names body span).2
        ((t.addFunction none names body span).1 :: rest) orphans
  | reorder {t pending pending' orphans} (hPerm : pending.Perm pending')
      (h : Built t pending orphans) : Built t pending' orphans
  | drop {t dropped rest orphans} (h : Built t (dropped ++ rest) orphans) :
      Built t rest (dropped ++ orphans)

namespace Built

variable {t : NodeTable} {rest orphans : List NodeId}

theorem addBinary {op : Operator} {left right : NodeId}
    (h : t.Built (left :: right :: rest) orphans) :
    (t.addBinary op left right).2.Built ((t.addBinary op left right).1 :: rest) orphans :=
  .plain trivial h

theorem addChain {first : NodeId} {more : List NodeId}
    (h : t.Built (first :: more ++ rest) orphans) :
    (t.addChain first more).2.Built ((t.addChain first more).1 :: rest) orphans := by
  induction more generalizing t first with
  | nil => exact h
  | cons second more ih =>
    have hPair : (t.addPair first second).2.Built
        ((t.addPair first second).1 :: (more ++ rest)) orphans := .plain trivial h
    exact ih hPair

theorem addRun {span : Span} {ids : List NodeId} (h : t.Built (ids ++ rest) orphans) :
    (t.addRun span ids).2.Built ((t.addRun span ids).1 :: rest) orphans := by
  cases ids with
  | nil => exact .plain trivial h
  | cons first more => exact addChain h

theorem addFunction {name : Option Name} {names : List Name} {body : NodeId} {span : Span}
    (h : t.Built (body :: rest) orphans) :
    (t.addFunction name names body span).2.Built
      ((t.addFunction name names body span).1 :: rest) orphans := by
  have hFunction : (t.addFunction none names body span).2.Built
      ((t.addFunction none names body span).1 :: rest) orphans := .function h
  cases name with
  | none => exact hFunction
  | some name => exact .plain trivial hFunction

end Built

end NodeTable

end FeatherScript
