import FeatherScript.Program

/-!
# A reference evaluation of trees

The meaning of a program that does not depend on how its nodes are stored. Trees are evaluated as
they are, a closure holds its parameters and its body, a scope is a function from names to values,
and a name is looked up from a scope outward.

The fuel bounds the nesting of evaluations and the runs of a loop, as it does for nodes. The number
of closure bodies around an evaluation is an argument, so nothing has to be restored.

* `Reference.find?`: the scope that a name belongs to, with its value there.
* `Reference.target`: an assignment is to that scope unless the value is null, which reads like no
  value, and otherwise to the scope at hand. It never fails.
* `Reference.evaluate` and `Reference.outcome?`: a tree, and a whole program in fresh scopes.
-/

namespace FeatherScript.Reference

/-! ## Values and scopes -/

/-- What trees evaluate to. -/
inductive Value
  | int (value : Int64)
  | bool (value : Bool)
  | null
  | closure (params : List Name) (body : Tree) (scope : ScopeId)

namespace Value

def type : Value → ValueType
  | int _ => .integer
  | bool _ => .boolean
  | null => .null
  | closure .. => .function

/-- The printed form of a value; a closure shows the number of its parameters. -/
def text : Value → String
  | int value => Integer.text value
  | bool value => toString value
  | null => "null"
  | closure params _ _ => s!"<function/{params.length}>"

/-- The result of an operator on integers, which is never a closure. -/
def ofOperation : FeatherScript.Value → Value
  | .int value => .int value
  | .bool value => .bool value
  | .null | .closure _ => .null

end Value

/-- The bindings made in one scope, and the scope around it. -/
structure Scope where
  bindings : Name → Option Value
  parent : Option ScopeId

/-- A scope with a name bound to a value. -/
def Scope.bind (scope : Scope) (name : Name) (value : Value) : Scope :=
  { scope with bindings := fun n => if n = name then some value else scope.bindings n }

/-- The scope that a name belongs to, seen from a scope, and its value there. -/
def find? (scopes : Array Scope) (env : ScopeId) (name : Name) : Option (ScopeId × Value) :=
  match scopes[env]? with
  | none => none
  | some scope =>
    match scope.bindings name with
    | some value => some (env, value)
    | none =>
      match scope.parent with
      | some outer => if outer < env then find? scopes outer name else none
      | none => none
termination_by env

/-- The value of a name; null where it has none. -/
def resolve (scopes : Array Scope) (env : ScopeId) (name : Name) : Value :=
  ((find? scopes env name).map (·.2)).getD .null

/-- The scope that an assignment to a name writes to. -/
def target (scopes : Array Scope) (env : ScopeId) (name : Name) : ScopeId :=
  match find? scopes env name with
  | none | some (_, .null) => env
  | some (owner, _) => owner

/-! ## Effects -/

/-- The scopes made so far, and the lines printed so far. -/
structure State where
  scopes : Array Scope
  printed : List String

def State.initial : State := ⟨#[⟨fun _ => none, none⟩], []⟩

/-- Why the evaluation of a tree stops: every reference leads to something. -/
inductive Stop
  | failed (error : EvalError)
  | outOfFuel

abbrev Effect (α : Type) : Type := EStateM Stop State α

def fail {α : Type} (cause : EvalCause) (span : Span) : Effect α :=
  throw (.failed ⟨cause, some span⟩)

/-- Binds a name in a scope, whether or not it is bound there. -/
def bind (env : ScopeId) (name : Name) (value : Value) : Effect Unit :=
  modify fun s => { s with scopes := s.scopes.modify env (·.bind name value) }

/-- Binds a name in a scope that has no binding for it. -/
def declare (env : ScopeId) (name : Name) (value : Value) (span : Span) : Effect Unit := do
  if ((← get).scopes[env]?.bind (·.bindings name)).isSome then fail (.alreadyDeclared name) span
  else bind env name value

theorem declare_eq (env : ScopeId) (name : Name) (value : Value) (span : Span) (s : State) :
    declare env name value span s = (if (s.scopes[env]?.bind (·.bindings name)).isSome then
      fail (.alreadyDeclared name) span else bind env name value : Effect Unit) s :=
  rfl

def assign (env : ScopeId) (name : Name) (value : Value) : Effect Unit := do
  bind (target (← get).scopes env name) name value

theorem assign_eq (env : ScopeId) (name : Name) (value : Value) (s : State) :
    assign env name value s = bind (target s.scopes env name) name value s :=
  rfl

/-- Declares parameters in order, each with the argument at its position, or null. -/
def bindParams (env : ScopeId) (span : Span) : List Name → List Value → Effect Unit
  | [], _ => return
  | name :: names, args => do
    declare env name (args.head?.getD .null) span
    bindParams env span names args.tail

def enclose (outer : ScopeId) : Effect ScopeId :=
  modifyGet fun s => (s.scopes.size, { s with scopes := s.scopes.push ⟨fun _ => none, some outer⟩ })

def print (line : String) : Effect Unit :=
  modify fun s => { s with printed := s.printed ++ [line] }

/-! ## Evaluation -/

/-- A condition, which must be a truth value. -/
def truth (span : Span) : Value → Effect Bool
  | .bool b => return b
  | other => fail (.conditionNotBoolean other.type) span

def operate (op : Operator) (span : Span) : Value → Value → Effect Value
  | .int a, .int b =>
    match op.applyInt a b with
    | .ok result => return .ofOperation result
    | .error cause => fail cause span
  | left, right => fail (.operandNotInteger op left.type right.type) span

/-- Runs a loop whose last value so far is given. -/
def repeatWhile (condition : Effect Bool) (body : Effect Value) : Nat → Value → Effect Value
  | 0, _ => throw .outOfFuel
  | fuel + 1, last => do
    if ← condition then
      let value ← body
      repeatWhile condition body fuel value
    else return last

/-- Applies a closure, given how its body is evaluated. The depth is checked first, then the number
of arguments, and then the parameters are bound in a new scope. -/
def apply (o : Options) (depth : Nat) (params : List Name) (scope : ScopeId) (args : List Value)
    (span : Span) (body : ScopeId → Effect Value) : Effect Value :=
  if o.maxDepth ≤ depth then fail (.stackOverflow o.maxDepth) span
  else if o.policy = .strict ∧ args.length < params.length then
    fail (.arityMismatch params.length args.length) span
  else do
    let env ← enclose scope
    bindParams env span params args
    body env

/-- Evaluates a tree in a scope, inside as many closure bodies as given. -/
def evaluate (o : Options) : Nat → Nat → Tree → ScopeId → Effect Value
  | 0, _, _, _ => throw .outOfFuel
  | fuel + 1, depth, tree, env =>
    match tree with
    | .int _ value => return .int value
    | .bool _ value => return .bool value
    | .null _ => return .null
    | .ref _ name => return resolve (← get).scopes env name
    | .print _ argument => do
      let value ← evaluate o fuel depth argument env
      print value.text
      return value
    | .binary span op left right => do
      let a ← evaluate o fuel depth left env
      let b ← evaluate o fuel depth right env
      operate op span a b
    | .branch _ condition consequent alternative => do
      if ← truth condition.span (← evaluate o fuel depth condition env) then
        evaluate o fuel depth consequent env
      else
        match alternative with
        | some other => evaluate o fuel depth other env
        | none => return .null
    | .loop _ condition body =>
      repeatWhile (do truth condition.span (← evaluate o fuel depth condition env))
        (evaluate o fuel depth body env) fuel .null
    | .sequence _ first second => do
      let _ ← evaluate o fuel depth first env
      evaluate o fuel depth second env
    | .declare span name init => do
      let value ← evaluate o fuel depth init env
      declare env name value span
      return value
    | .assign _ name source => do
      let value ← evaluate o fuel depth source env
      assign env name value
      return value
    | .function _ params body => return .closure params body env
    | .call span callee args => do
      match ← evaluate o fuel depth callee env with
      | .closure params body scope =>
        let values ← args.mapM fun arg => evaluate o fuel depth arg env
        apply o depth params scope values span (evaluate o fuel (depth + 1) body)
      | other => fail (.notCallable other.type) callee.span

/-- What a run that ended leaves behind. -/
structure Outcome where
  result : Except EvalError Value
  printed : List String
  scopes : Array Scope

/-- The outcome of a program, unless the fuel does not suffice. -/
def outcome? (o : Options) (fuel : Nat) (tree : Tree) : Option Outcome :=
  match evaluate o fuel 0 tree Scopes.global .initial with
  | .ok value s => some ⟨.ok value, s.printed, s.scopes⟩
  | .error (.failed e) s => some ⟨.error e, s.printed, s.scopes⟩
  | .error .outOfFuel _ => none

/-- A program ends with an outcome. -/
def Ends (o : Options) (tree : Tree) (w : Outcome) : Prop := ∃ fuel, outcome? o fuel tree = some w

end FeatherScript.Reference
