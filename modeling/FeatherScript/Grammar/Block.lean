import FeatherScript.Grammar.State

/-!
# Blocks

A block is a run of statements between braces, or one statement without them. Inside braces a failed
statement is recorded and skipped, so a block fails only for want of its closing brace or where its
single statement fails.

The constructs of the grammar contain each other. Each of them is a function of the ways to read an
expression and a statement from a state with fewer tokens left than a given list has (`Below`), and
hands them only such states; the knot is tied in `FeatherScript.Grammar.Program`.

* `statementOrSkip` consumes a token whether or not the statement is well formed.
* `statements` stops only at a closing brace or at the end.
-/

namespace FeatherScript.Grammar

/-- How to read an expression and a statement where fewer tokens are left than in a given list. -/
structure Below (bound : List Token) where
  expression : (s : State) → s.left < bound.length → Reply true s NodeId
  statement : (s : State) → s.left < bound.length → Reply true s NodeId

variable {bound : List Token}

theorem State.left_lt_trans {s t : State} (hLess : t.left < s.left)
    (hBound : s.left < bound.length) : t.left < bound.length :=
  Nat.lt_trans hLess hBound

/-- Reads a statement inside a block, or records its error and skips it. -/
def statementOrSkip (below : Below bound) (s : State) (hBound : s.left < bound.length)
    (hOpen : ¬ s.AtClose) : Reply true s (Option NodeId) :=
  (below.statement s hBound).orRecover State.recover State.advances_recover fun t e hRest =>
    t.recover_left_lt e (mt (State.atClose_congr hRest).mp hOpen)

/-- Reads the statements of a block up to its closing brace or the end. -/
def statements (below : Below bound) (s : State) (hBound : s.left < bound.length) :
    Reply false s (List NodeId) :=
  if hClose : s.AtClose then .done []
  else
    ((statementOrSkip below s hBound hClose).andThen fun found t _ =>
      (statements below t (by omega)).bind fun more _ _ =>
      .done (found.toList ++ more)).relax
termination_by s.left

def block (below : Below bound) (s : State) (hBound : s.left < bound.length) :
    Reply true s NodeId :=
  s.eatOr .leftBrace (below.statement s hBound) fun opening s₁ hLess =>
  (statements below s₁ (State.left_lt_trans hLess hBound)).bind fun ids s₂ _ =>
  (s₂.expect .rightBrace .closeBrace).andThen fun closing s₃ _ =>
  s₃.build (·.addRun (opening.merge closing) ids) fun t => t.grows_addRun _ ids

end FeatherScript.Grammar
