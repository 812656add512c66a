import FeatherScript.Eval.Arithmetic
import FeatherScript.Eval.State

/-!
# Evaluation

A node is evaluated in a scope, its children from left to right. Every construct has a value: an
assignment or a printing that of its operand, a sequence that of its second part, a loop that of its
body's last run or null. Only the application of a closure makes a scope, inside the scope that the
closure was made in.

Each construct is an effect built from the evaluation of other nodes, which it takes as an argument;
`eval` ties the knot, with one unit of fuel for each level of nesting and for each run of a loop.

* `nodeWith` is one level of evaluation, `applyWith` the application of a closure.
* `eval` evaluates a node; with too little fuel it stops without an outcome.
-/

namespace FeatherScript.Eval

/-- What becomes of missing arguments: they are null, or an error. -/
inductive ArityPolicy
  | bindNull
  | strict
deriving DecidableEq

/-- What an evaluation refers to and never changes. -/
structure Setting where
  table : NodeTable
  policy : ArityPolicy
  maxDepth : Nat

/-- The evaluation of a node in a scope. -/
abbrev Evaluator : Type := NodeId → ScopeId → Effect Value

open Effect

/-! ## Constructs -/

/-- Evaluates a condition, which must be a truth value. -/
def conditionWith (cfg : Setting) (ev : Evaluator) (id : NodeId) (env : ScopeId) : Effect Bool := do
  match ← ev id env with
  | .bool b => return b
  | other => fail (.conditionNotBoolean other.type) (some (cfg.table.spanOf id))

/-- Runs a loop whose last value so far is given. -/
def loopWith (condition : Effect Bool) (body : Effect Value) : Nat → Value → Effect Value
  | 0, _ => throw (.fault .outOfFuel)
  | fuel + 1, last => do
    if ← condition then
      let value ← body
      loopWith condition body fuel value
    else return last

/-- Evaluates arguments from left to right. -/
def argumentsWith (ev : Evaluator) (env : ScopeId) : List NodeId → Effect (List Value)
  | [] => return []
  | id :: ids => do
    let value ← ev id env
    let values ← argumentsWith ev env ids
    return value :: values

/-- Applies a closure to arguments: the depth is checked first, then their number, and then the body
is evaluated in a new scope with the parameters bound. -/
def applyWith (cfg : Setting) (ev : Evaluator) (c : Closure) (args : List Value) (span : Span) :
    Effect Value := do
  if cfg.maxDepth ≤ (← depth) then
    fail (.stackOverflow cfg.maxDepth) (some span)
  else
    let params ← found (cfg.table.params? c.params)
    if cfg.policy = .strict ∧ args.length < params.length then
      fail (.arityMismatch params.length args.length) (some span)
    else
      let env ← onScopes (·.enclose c.scope)
      bindParams env (some span) params args
      entered (ev c.body env)

/-- Evaluates a call: the callee, the arguments, and then the application. -/
def callWith (cfg : Setting) (ev : Evaluator) (callee : NodeId) (args : Slice) (env : ScopeId)
    (span : Span) : Effect Value := do
  match ← ev callee env with
  | .closure c =>
    let ids ← found (cfg.table.args? args)
    let values ← argumentsWith ev env ids
    applyWith cfg ev c values span
  | other => fail (.notCallable other.type) (some (cfg.table.spanOf callee))

/-- One level of evaluation, given the evaluation of other nodes. -/
def nodeWith (cfg : Setting) (fuel : Nat) (ev : Evaluator) : Evaluator := fun id env => do
  let node ← found (cfg.table.node? id)
  match node.form with
  | .int value => return .int value
  | .bool value => return .bool value
  | .null => return .null
  | .ref name => resolve env name
  | .print argument =>
    let value ← ev argument env
    print value
    return value
  | .binary op left right =>
    let a ← ev left env
    let b ← ev right env
    match op.apply a b with
    | .ok value => return value
    | .error cause => fail cause (some node.span)
  | .branch condition consequent alternative =>
    if ← conditionWith cfg ev condition env then ev consequent env
    else
      match alternative with
      | some other => ev other env
      | none => return .null
  | .loop condition body =>
    loopWith (conditionWith cfg ev condition env) (ev body env) fuel .null
  | .sequence first second =>
    let _ ← ev first env
    ev second env
  | .declare name init =>
    let value ← ev init env
    declare env name value (some node.span)
    return value
  | .assign name source =>
    let value ← ev source env
    assign env name value (some node.span)
    return value
  | .function params body => makeClosure params body env
  | .call callee args => callWith cfg ev callee args env node.span

/-! ## Evaluation -/

/-- Evaluates a node, at most `fuel` levels deep. -/
def eval (cfg : Setting) : Nat → Evaluator
  | 0 => fun _ _ => throw (.fault .outOfFuel)
  | fuel + 1 => nodeWith cfg fuel (eval cfg fuel)

/-- Applies a value to arguments from outside of any program. -/
def call (cfg : Setting) (fuel : Nat) (callee : Value) (args : List Value) : Effect Value :=
  match callee with
  | .closure c => applyWith cfg (eval cfg fuel) c args .origin
  | other => fail (.notCallable other.type) none

end FeatherScript.Eval
