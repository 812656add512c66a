import FeatherScript.Diagnostic.Basic
import FeatherScript.Name
import FeatherScript.Operator
import FeatherScript.Value

/-!
# Runtime errors

A runtime error is a cause and, inside a program, the span of the node whose own step failed. The
cause holds what the message needs and names stand in it by number; only the message reads them.
-/

namespace FeatherScript

/-- The operations whose result may be out of range. -/
inductive Operation
  | addition
  | subtraction
  | multiplication
  | division
deriving DecidableEq

def Operation.text : Operation → String
  | addition => "addition"
  | subtraction => "subtraction"
  | multiplication => "multiplication"
  | division => "division"

/-- What made an evaluation fail. -/
inductive EvalCause
  | conditionNotBoolean (found : ValueType)
  | operandNotInteger (op : Operator) (left right : ValueType)
  | notCallable (found : ValueType)
  | divisionByZero
  | moduloByZero
  | integerOverflow (operation : Operation)
  | alreadyDeclared (name : Name)
  | arityMismatch (expected supplied : Nat)
  | stackOverflow (limit : Nat)
deriving DecidableEq

/-- The kinds of causes. -/
inductive EvalCategory
  | type
  | arithmetic
  | scope
  | arity
  | resource
deriving DecidableEq

namespace EvalCause

def code : EvalCause → ErrorCode
  | conditionNotBoolean _ => .conditionNotBoolean
  | operandNotInteger .. => .operandNotInteger
  | notCallable _ => .notCallable
  | divisionByZero => .divisionByZero
  | moduloByZero => .moduloByZero
  | integerOverflow _ => .integerOverflow
  | alreadyDeclared _ => .alreadyDeclared
  | arityMismatch .. => .arityMismatch
  | stackOverflow _ => .stackOverflow

def category : EvalCause → EvalCategory
  | conditionNotBoolean _ | operandNotInteger .. | notCallable _ => .type
  | divisionByZero | moduloByZero | integerOverflow _ => .arithmetic
  | alreadyDeclared _ => .scope
  | arityMismatch .. => .arity
  | stackOverflow _ => .resource

/-- What went wrong, with names read from a table. -/
def message (names : NameTable) : EvalCause → String
  | conditionNotBoolean found => s!"condition must be a boolean, found {found.text}"
  | operandNotInteger op left right =>
    s!"operator `{op.sign}` expects two integers, found {left.text} and {right.text}"
  | notCallable found => s!"{found.text} is not a function"
  | divisionByZero => "division by zero"
  | moduloByZero => "modulo by zero"
  | integerOverflow operation => s!"integer overflow in {operation.text}"
  | alreadyDeclared name => s!"`{names.lookup name}` is already declared in this scope"
  | arityMismatch expected supplied =>
    s!"function takes {expected} parameters but {supplied} arguments were supplied"
  | stackOverflow limit => s!"maximum call depth of {limit} exceeded"

def remark : EvalCause → String
  | conditionNotBoolean _ => "this condition"
  | operandNotInteger .. => "in this operation"
  | notCallable _ => "called here"
  | divisionByZero | moduloByZero => "divisor is zero"
  | integerOverflow _ => "result does not fit in 64 bits"
  | alreadyDeclared _ => "declared again here"
  | arityMismatch .. => "in this call"
  | stackOverflow _ => "while making this call"

def notes (names : NameTable) : EvalCause → List String
  | alreadyDeclared name => [s!"use `{names.lookup name} = ...` to assign to the existing binding"]
  | stackOverflow _ => ["recursion went deeper than the configured call depth limit"]
  | _ => []

end EvalCause

/-- A failed evaluation: the cause, and the place if it lies in a program. -/
structure EvalError where
  cause : EvalCause
  span : Option Span
deriving DecidableEq

def EvalError.diagnostic (names : NameTable) (e : EvalError) : Diagnostic :=
  { code := e.cause.code
    severity := .error
    message := e.cause.message names
    labels := (e.span.map fun span => ⟨true, span, e.cause.remark⟩).toList
    notes := e.cause.notes names }

end FeatherScript
