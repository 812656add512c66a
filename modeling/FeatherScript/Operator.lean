/-!
# Binary operators

The language has five arithmetic operators and five comparisons, all of them on two integers.
-/

namespace FeatherScript

/-- An operator between two operands. -/
inductive Operator
  | add
  | sub
  | mul
  | div
  | mod
  | greater
  | greaterEqual
  | less
  | lessEqual
  | equal
deriving DecidableEq

namespace Operator

def sign : Operator → String
  | add => "+"
  | sub => "-"
  | mul => "*"
  | div => "/"
  | mod => "%"
  | greater => ">"
  | greaterEqual => ">="
  | less => "<"
  | lessEqual => "<="
  | equal => "=="

def all : List Operator :=
  [add, sub, mul, div, mod, greater, greaterEqual, less, lessEqual, equal]

def ofSign? (s : String) : Option Operator := all.find? (·.sign = s)

end Operator

end FeatherScript
