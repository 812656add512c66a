import FeatherScript.Grammar.Statement

/-!
# Programs

A program is a run of statements up to the end of the source. A failed statement is recorded and
skipped, and a closing brace that closes nothing is skipped with it, so parsing always comes to the
end and reports every independent error in the order of the source.

* `expression` and `statement` read one construct from any state; reading ends because every nested
  reading starts with fewer tokens left.
* `parse` reads a list of tokens and never fails: with errors, its table and root are what could be
  read.
-/

namespace FeatherScript

namespace Grammar

mutual

def expression (s : State) : Reply true s NodeId :=
  expressionWith
    ({ expression := fun t _ => expression t, statement := fun t _ => statement t } : Below s.rest)
    s (Nat.le_refl s.left)
termination_by s.left

def statement (s : State) : Reply true s NodeId :=
  statementWith
    ({ expression := fun t _ => expression t, statement := fun t _ => statement t } : Below s.rest)
    s (Nat.le_refl s.left)
termination_by s.left

end

/-- Consumes a closing brace if there is one. -/
def strayBrace (s : State) : Reply false s Unit :=
  s.eatOr .rightBrace (.done ()) fun _ _ _ => .done ()

/-- Records an error and skips the statement it is in, with the closing brace it may have met. -/
def recoverOutside (s : State) (e : ParseError) : State := (strayBrace (s.recover e)).state

theorem advances_recoverOutside (s : State) (e : ParseError) :
    (s.record e).Advances (recoverOutside s e) :=
  (s.advances_recover e).trans (strayBrace (s.recover e)).advances

theorem strayBrace_left_lt {s : State} (hBrace : s.kind = .symbol .rightBrace) :
    (strayBrace s).state.left < s.left := by
  obtain ⟨rest, last, table, errors⟩ := s
  cases rest with
  | nil => cases hBrace
  | cons token rest =>
    have hToken : token.kind = .symbol .rightBrace := hBrace
    simp [strayBrace, State.eatOr, State.takeOr, State.symbolOf?, hToken, Reply.weaken,
      Reply.after, Reply.done, State.left]

/-- Outside of blocks recovery consumes a token wherever there is one. -/
theorem recoverOutside_left_lt {s : State} (e : ParseError) (hMore : ¬ s.AtEnd) :
    (recoverOutside s e).left < s.left := by
  by_cases hClose : s.AtClose
  · have hRest := s.recover_rest_of_atClose e hClose
    have hBrace : (s.recover e).kind = .symbol .rightBrace :=
      (State.kind_congr hRest).trans (hClose.resolve_right hMore)
    exact Nat.lt_of_lt_of_le (strayBrace_left_lt hBrace) (s.advances_recover e).left_le
  · exact Nat.lt_of_le_of_lt (strayBrace (s.recover e)).left_le (s.recover_left_lt e hClose)

/-- Reads a statement outside of blocks, or records its error and skips it. -/
def topStatement (s : State) (hMore : ¬ s.AtEnd) : Reply true s (Option NodeId) :=
  (statement s).orRecover recoverOutside advances_recoverOutside fun _ e hRest =>
    recoverOutside_left_lt e (mt (State.atEnd_congr hRest).mp hMore)

/-- Reads the statements of a program up to the end of the source. -/
def topStatements (s : State) : Reply false s (List NodeId) :=
  if hEnd : s.AtEnd then .done []
  else
    ((topStatement s hEnd).andThen fun found t _ =>
      (topStatements t).bind fun more _ _ =>
      .done (found.toList ++ more)).relax
termination_by s.left

/-- The state in which the reading of a list of tokens starts. -/
def State.initial (tokens : List Token) : State :=
  { rest := tokens, last := .origin, table := .empty, errors := #[] }

end Grammar

/-- A program as far as it could be read: its nodes, the node of the whole, and all errors. -/
structure Parsed where
  table : NodeTable
  root : NodeId
  errors : List ParseError
deriving DecidableEq

def Parsed.hasErrors (p : Parsed) : Bool := !p.errors.isEmpty

/-- Reads a program from its tokens. -/
def parse (tokens : List Token) : Parsed :=
  let reply := Grammar.topStatements (.initial tokens)
  let (root, table) := reply.state.table.addRun .origin (reply.result.toOption.getD [])
  { table, root, errors := reply.state.errors.toList }

end FeatherScript
