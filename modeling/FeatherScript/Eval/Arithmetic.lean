import FeatherScript.Eval.EvalError

/-!
# Binary operations

Every operator takes two integers. Sums, differences, products and quotients are those of the
mathematical integers and fail where they leave the range of 64 bits; quotients are truncated toward
zero. A remainder has the sign of its dividend and is always in range. Comparisons are those of the
mathematical integers.

* `Operator.apply` examines the operands' types first, then a zero divisor, then the range.
-/

namespace FeatherScript

/-- A mathematical result as a value, or the error of an operation out of range. -/
def inRange (operation : Operation) (n : Int) : Except EvalCause Value :=
  match Integer.ofInt? n with
  | some value => .ok (.int value)
  | none => .error (.integerOverflow operation)

namespace Operator

def applyInt (op : Operator) (a b : Int64) : Except EvalCause Value :=
  match op with
  | add => inRange .addition (a.toInt + b.toInt)
  | sub => inRange .subtraction (a.toInt - b.toInt)
  | mul => inRange .multiplication (a.toInt * b.toInt)
  | div => if b = 0 then .error .divisionByZero else inRange .division (a.toInt.tdiv b.toInt)
  | mod => if b = 0 then .error .moduloByZero else .ok (.int (.ofInt (a.toInt.tmod b.toInt)))
  | greater => .ok (.bool (b < a))
  | greaterEqual => .ok (.bool (b ≤ a))
  | less => .ok (.bool (a < b))
  | lessEqual => .ok (.bool (a ≤ b))
  | equal => .ok (.bool (a = b))

def apply (op : Operator) (left right : Value) : Except EvalCause Value :=
  match left, right with
  | .int a, .int b => op.applyInt a b
  | _, _ => .error (.operandNotInteger op left.type right.type)

end Operator

end FeatherScript
