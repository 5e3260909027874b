import ClosureLang.Machine.Error

/-!
# Builtins on values

Numbers are added, compared and so on as doubles. A division by a zero of either sign is an error.
-/

namespace ClosureLang.Builtin

def applyToNumbers (b : Builtin) (x y : Float) : Except RuntimeProblem Value :=
  match b with
  | add => .ok (.number (x + y))
  | sub => .ok (.number (x - y))
  | mul => .ok (.number (x * y))
  | div => if y == 0 then .error .divisionByZero else .ok (.number (x / y))
  | mod => if y == 0 then .error .divisionByZero else .ok (.number (Binary64.remainder x y))
  | eq => .ok (.boolean (x == y))
  | neq => .ok (.boolean (x != y))
  | lt => .ok (.boolean (x < y))
  | le => .ok (.boolean (x ≤ y))
  | gt => .ok (.boolean (y < x))
  | ge => .ok (.boolean (y ≤ x))
  | and | or | neg | not => .error (.wrongOperands b [.number x, .number y])

def applyToBooleans (b : Builtin) (x y : Bool) : Except RuntimeProblem Value :=
  match b with
  | eq => .ok (.boolean (x == y))
  | neq => .ok (.boolean (x != y))
  | and => .ok (.boolean (x && y))
  | or => .ok (.boolean (x || y))
  | _ => .error (.wrongOperands b [.boolean x, .boolean y])

/-- A builtin of one argument. -/
def apply₁ (b : Builtin) (v : Value) : Except RuntimeProblem Value :=
  match b, v with
  | neg, .number x => .ok (.number (-x))
  | not, .boolean x => .ok (.boolean (!x))
  | b, v => .error (.wrongOperands b [v])

/-- A builtin of two arguments. -/
def apply₂ (b : Builtin) (v w : Value) : Except RuntimeProblem Value :=
  match v, w with
  | .number x, .number y => b.applyToNumbers x y
  | .boolean x, .boolean y => b.applyToBooleans x y
  | v, w => .error (.wrongOperands b [v, w])

end ClosureLang.Builtin
