import FeatherScript.Program

/-!
# Sessions

A session keeps one program and one state through any number of steps. A step evaluates a node,
applies a value, or reads or changes the scopes directly; scopes are named by handles, which are
given out in order, the first of them for the global scope. Handles are given out for the scope
around a scope, for the scope that a function has captured, and for new scopes, which are made
inside of others or as roots. A failed step keeps what it did before it failed, and the next step
starts from there.

* `Session.step` is one step; its answer comes with the values printed during it.
-/

namespace FeatherScript

open Eval

/-- A program being evaluated step by step. -/
structure Session where
  program : Program
  options : Options
  state : State
  handles : Array ScopeId

namespace Session

/-- The session before its first step. -/
def start (program : Program) (options : Options) : Session :=
  ⟨program, options, .initial, #[Scopes.global]⟩

/-- A value to be passed in: one of its own, or that of a name seen from a handle. -/
inductive Source
  | value (v : Value)
  | nameIn (handle : Nat) (name : String)
deriving DecidableEq

/-- What a step does. -/
inductive Step
  | evaluate (handle : Nat) (node : Option NodeId)
  | apply (callee : Source) (args : List Source)
  | resolve (handle : Nat) (name : String)
  | update (handle : Nat) (name : String) (value : Source)
  | create (handle : Nat) (name : String) (value : Source)
  | binds (handle : Nat) (name : String)
  | count (handle : Nat)
  | isRoot (handle : Nat)
  | debug (handle : Nat)
  | enclose (handle : Nat)
  | outer (handle : Nat)
  /-- A handle for the scope that a function has captured. -/
  | captured (function : Source)
  /-- A handle for a root of its own. -/
  | root
  | equal (a b : Source)
deriving DecidableEq

/-- The answer to a step. -/
inductive Answer
  | result (r : Except EvalError Value)
  | value (v : Value)
  | done
  | alreadyDeclared (name : String)
  | truth (b : Bool)
  | number (n : Nat)
  | text (s : String)
  | handle (n : Nat)
  | nothing

/-- The scope of a handle; the global one for a handle that was not given out. -/
def scopeOf (s : Session) (handle : Nat) : ScopeId := s.handles.getD handle Scopes.global

def withScopes (s : Session) (scopes : Scopes) : Session :=
  { s with state := { s.state with scopes } }

/-- The session with one more name in its table, and the number of that name. -/
def intern (s : Session) (text : String) : Name × Session :=
  let (name, names) := s.program.names.intern text
  (name, { s with program := { s.program with names } })

/-- The value of a name seen from a handle. -/
def resolve (s : Session) (handle : Nat) (text : String) : Value × Session :=
  let (name, s) := s.intern text
  (s.state.scopes.resolve (s.scopeOf handle) name, s)

def valueOf (s : Session) : Source → Value × Session
  | .value v => (v, s)
  | .nameIn handle text => s.resolve handle text

def valuesOf (s : Session) : List Source → List Value × Session
  | [] => ([], s)
  | source :: more =>
    let (value, s) := s.valueOf source
    let (values, s) := s.valuesOf more
    (value :: values, s)

/-- The session after an effect of the evaluator, with its result. -/
def perform (s : Session) (x : Effect Value) : Except Fault (Answer × Session) :=
  (x.settle s.state).map fun r => (.result r.1, { s with state := r.2 })

def addHandle (s : Session) (scope : ScopeId) : Answer × Session :=
  (.handle s.handles.size, { s with handles := s.handles.push scope })

/-- One step of a session. -/
def step (s : Session) (fuel : Nat) : Step → Except Fault (Answer × Session)
  | .evaluate handle node =>
    let setting := s.options.setting s.program.table
    s.perform (eval setting fuel (node.getD s.program.root) (s.scopeOf handle))
  | .apply callee args =>
    let (callee, s) := s.valueOf callee
    let (args, s) := s.valuesOf args
    s.perform (call (s.options.setting s.program.table) fuel callee args)
  | .resolve handle text =>
    let (value, s) := s.resolve handle text
    .ok (.value value, s)
  | .update handle text source =>
    let (name, s) := s.intern text
    let (value, s) := s.valueOf source
    .ok (.done, s.withScopes (s.state.scopes.update (s.scopeOf handle) name value))
  | .create handle text source =>
    let (name, s) := s.intern text
    let (value, s) := s.valueOf source
    match s.state.scopes.create? (s.scopeOf handle) name value with
    | some scopes => .ok (.done, s.withScopes scopes)
    | none => .ok (.alreadyDeclared (s.program.names.lookup name), s)
  | .binds handle text =>
    let (name, s) := s.intern text
    .ok (.truth (s.state.scopes.binds (s.scopeOf handle) name), s)
  | .count handle => .ok (.number (s.state.scopes.count (s.scopeOf handle)), s)
  | .isRoot handle => .ok (.truth (s.state.scopes.isRoot (s.scopeOf handle)), s)
  | .debug handle => .ok (.text (s.state.scopes.debug (s.scopeOf handle)), s)
  | .enclose handle =>
    let (scope, scopes) := s.state.scopes.enclose (s.scopeOf handle)
    .ok ((s.withScopes scopes).addHandle scope)
  | .outer handle =>
    match s.state.scopes.parent? (s.scopeOf handle) with
    | some scope => .ok (s.addHandle scope)
    | none => .ok (.nothing, s)
  | .captured function =>
    let (value, s) := s.valueOf function
    match value with
    | .closure c => .ok (s.addHandle c.scope)
    | _ => .ok (.nothing, s)
  | .root =>
    let (scope, scopes) := s.state.scopes.addRoot
    .ok ((s.withScopes scopes).addHandle scope)
  | .equal a b =>
    let (x, s) := s.valueOf a
    let (y, s) := s.valueOf b
    .ok (.truth (x = y), s)

end Session

end FeatherScript
