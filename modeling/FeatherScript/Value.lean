import FeatherScript.Integer
import FeatherScript.Node

/-!
# Values

A value is an integer, a truth value, null or a closure. A closure is a function together with the
scope in which it was made; each evaluation of a function makes a closure of its own, told apart by
a number, and two closures are equal only if they are the same one.

* `Value.text` is what printing a value shows, `Value.debug` its debugging form. Neither shows the
  scope of a closure, which may hold the closure itself.
-/

namespace FeatherScript

/-- The number of a scope. -/
abbrev ScopeId := Nat

/-- A function with the scope it was made in. -/
structure Closure where
  serial : Nat
  params : Slice
  body : NodeId
  scope : ScopeId
deriving DecidableEq

/-- What expressions evaluate to. -/
inductive Value
  | int (value : Int64)
  | bool (value : Bool)
  | null
  | closure (function : Closure)
deriving DecidableEq, Inhabited

/-- The types of values, as messages name them. -/
inductive ValueType
  | integer
  | boolean
  | null
  | function
deriving DecidableEq

def ValueType.text : ValueType → String
  | integer => "integer"
  | boolean => "boolean"
  | null => "null"
  | function => "function"

namespace Value

def type : Value → ValueType
  | int _ => .integer
  | bool _ => .boolean
  | null => .null
  | closure _ => .function

/-- The printed form of a value; a closure shows the number of its parameters. -/
def text : Value → String
  | int value => Integer.text value
  | bool value => toString value
  | null => "null"
  | closure function => s!"<function/{function.params.size}>"

/-- The debugging form of a value; a closure shows its parameter slice and its body. -/
def debug : Value → String
  | int value => s!"Int({Integer.text value})"
  | bool value => s!"Bool({value})"
  | null => "Null"
  | closure function =>
    "Closure \x7b params: ParamRange("
      ++ s!"{function.params.start}..{function.params.stop}), body: ExprId({function.body})"
      ++ ", .. \x7d"

end Value

end FeatherScript
