import FeatherScript.Eval.EvalError
import FeatherScript.Scope

/-!
# The state of an evaluation

An evaluation changes the scopes, prints values, makes closures and enters bodies of closures. Each
of its steps is an effect on a state that holds all of these. An effect stops early for an error of
the program, and for two causes that are no error of the program: a reference to something that is
not there, and the end of the fuel that bounds how deep the evaluation may go. What was changed
before an effect stops remains changed.

* `declare`, `assign` and the making of a scope are all that evaluation does to the scopes.
* `entered` counts the bodies being evaluated, on success and on failure alike.
-/

namespace FeatherScript.Eval

/-- The state of an evaluation: scopes, values printed so far, the number of closures made so far,
and the number of closure bodies being evaluated. -/
structure State where
  scopes : Scopes
  printed : Array Value
  closures : Nat
  depth : Nat
deriving DecidableEq

def State.initial : State := ⟨.initial, #[], 0, 0⟩

/-- Why an evaluation has no outcome in the language. -/
inductive Fault
  | dangling
  | outOfFuel
deriving DecidableEq

/-- Why an effect stops. -/
inductive Stop
  | failed (error : EvalError)
  | fault (fault : Fault)
deriving DecidableEq

/-- A step of an evaluation. -/
abbrev Effect (α : Type) : Type := EStateM Stop State α

namespace Effect

/-- Stops with an error of the program. -/
def fail {α : Type} (cause : EvalCause) (span : Option Span) : Effect α :=
  throw (.failed ⟨cause, span⟩)

/-- What a reference leads to. -/
def found {α : Type} (target : Option α) : Effect α :=
  match target with
  | some a => pure a
  | none => throw (.fault .dangling)

/-- The value or error in which an effect ends, and the state then. -/
def settle {α : Type} (x : Effect α) (s : State) : Except Fault (Except EvalError α × State) :=
  match x s with
  | .ok a t => .ok (.ok a, t)
  | .error (.failed e) t => .ok (.error e, t)
  | .error (.fault fault) _ => .error fault

/-! ## Scopes -/

def onScopes {α : Type} (f : Scopes → α × Scopes) : Effect α := fun s =>
  match s with
  | ⟨scopes, printed, closures, depth⟩ =>
    let (a, scopes) := f scopes
    .ok a ⟨scopes, printed, closures, depth⟩

/-- The value of a name. -/
def resolve (env : ScopeId) (name : Name) : Effect Value := fun s =>
  .ok (s.scopes.resolve env name) s

/-- Binds a name in a scope that has no binding for it. -/
def declare (env : ScopeId) (name : Name) (value : Value) (span : Option Span) : Effect Unit :=
  fun s =>
    if s.scopes.binds env name then fail (.alreadyDeclared name) span s
    else onScopes (fun g => ((), g.write env name value)) s

/-- Assigns to a name: to the binding it belongs to, unless that one is null and in another scope;
otherwise to a new binding. -/
def assign (env : ScopeId) (name : Name) (value : Value) (span : Option Span) : Effect Unit :=
  fun s =>
    if s.scopes.resolve env name ≠ .null ∨ s.scopes.binds env name then
      onScopes (fun g => ((), g.update env name value)) s
    else declare env name value span s

/-- Binds parameters to arguments in order; a missing argument is null. -/
def bindParams (env : ScopeId) (span : Option Span) : List Name → List Value → Effect Unit
  | [], _ => pure ()
  | name :: names, args => do
    declare env name (args.head?.getD .null) span
    bindParams env span names args.tail

/-! ## Printing, closures and depth -/

def print (value : Value) : Effect Unit := fun s =>
  match s with
  | ⟨scopes, printed, closures, depth⟩ => .ok () ⟨scopes, printed.push value, closures, depth⟩

/-- Makes a closure of its own. -/
def makeClosure (params : Slice) (body : NodeId) (env : ScopeId) : Effect Value := fun s =>
  .ok (.closure ⟨s.closures, params, body, env⟩) { s with closures := s.closures + 1 }

/-- The number of closure bodies being evaluated. -/
def depth : Effect Nat := fun s => .ok s.depth s

/-- Evaluates something as the body of a closure. -/
def entered {α : Type} (x : Effect α) : Effect α := fun s =>
  match x { s with depth := s.depth + 1 } with
  | .ok a t => .ok a { t with depth := t.depth - 1 }
  | .error e t => .error e { t with depth := t.depth - 1 }

end Effect

end FeatherScript.Eval
