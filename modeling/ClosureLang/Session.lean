import ClosureLang.Interpreter

/-!
# Sessions

Several sources evaluated one after the other, and the question which of their values are equal.
-/

namespace ClosureLang

/-- A value with the number of its prelude and the number of the evaluation that computed it. -/
structure Evaluated where
  globals : Nat
  evaluation : Nat
  value : Value

/-- Equality of values. Numbers and truth values are equal by what they are. A builtin is one object for each prelude,
and every evaluation makes its closures anew, so a closure equals no closure of another evaluation. -/
def Evaluated.same (a b : Evaluated) : Bool :=
  match a.value, b.value with
  | .number x, .number y => Binary64.same x y
  | .boolean x, .boolean y => x == y
  | .builtin f, .builtin g => a.globals == b.globals && f == g
  | .closure _ _, .closure _ _ => a.evaluation == b.evaluation
  | _, _ => false

namespace Session

/-- Evaluates the program of a source twice. -/
def evaluateTwice (i : Interpreter) (globals evaluation : Nat) (source : String) : Logged (Evaluated × Evaluated) := do
  let program ← i.compile source
  let first ← i.eval program
  let second ← i.eval program
  return (⟨globals, evaluation, first⟩, ⟨globals, evaluation + 1, second⟩)

/-- Evaluates each source twice, with one prelude for all of them or a new one for each. -/
def evaluateAll (i : Interpreter) (shared : Bool) (sources : List String) :
    List (Except Diagnostic (Evaluated × Evaluated)) :=
  sources.zipIdx.map fun (source, n) => (evaluateTwice i (if shared then 0 else n) (2 * n) source).result

end Session

end ClosureLang
