import ClosureLang.Code.Inspect

/-!
# Runtime errors

What can go wrong while code runs, where, and during which calls.
-/

namespace ClosureLang

/-- An entry of the stack: a value, the saved base of a caller's frame, or a slot that nothing was stored in yet. -/
inductive Cell where
  | value (v : Value)
  | base (saved : Nat)
  | unset

instance : Inhabited Cell := ⟨.unset⟩

def Cell.inspect : Cell → String
  | .value v => Inspect.tagged "Value" v.inspect
  | .base saved => Inspect.tagged "Base" (toString saved)
  | .unset => "Uninit"

inductive RuntimeKind where
  | notCallable
  | typeMismatch
  | arityMismatch
  | divisionByZero
  | stackOverflow
  | stackFault
  | unbalanced
deriving DecidableEq, Repr, Inhabited

/-- What went wrong. Faults of the stack do not arise from code that was compiled from a program. -/
inductive RuntimeProblem where
  | notCallable (callee : Value)
  | wrongOperands (function : Builtin) (operands : List Value)
  | conditionNotBoolean (found : Value)
  | wrongArity (function : String) (arity given : Nat)
  | divisionByZero
  | callsTooDeep (limit : Nat)
  | stackFull
  | underflow
  | outOfBounds (offset : Int) (base size : Nat)
  | readOfUnset (offset : Int)
  | readOfBase (offset : Int)
  | unknownGlobal (index : Nat)
  | missingCapture
  | lostBase (found : Cell)
  | leftOver (cells : Nat)

namespace RuntimeProblem

def kind : RuntimeProblem → RuntimeKind
  | notCallable _ => .notCallable
  | wrongOperands _ _ | conditionNotBoolean _ => .typeMismatch
  | wrongArity _ _ _ => .arityMismatch
  | divisionByZero => .divisionByZero
  | callsTooDeep _ | stackFull => .stackOverflow
  | underflow | outOfBounds _ _ _ | readOfUnset _ | readOfBase _ | unknownGlobal _ | missingCapture | lostBase _ =>
    .stackFault
  | leftOver _ => .unbalanced

def message : RuntimeProblem → String
  | notCallable callee => s!"Cannot call {callee.kind} `{callee.text}`"
  | wrongOperands function operands =>
    s!"Cannot apply {function.name} to " ++ String.intercalate " and " (operands.map Value.kind)
  | conditionNotBoolean found => s!"Condition must be a boolean, got {found.kind}"
  | wrongArity function arity given => s!"{function} expects {arity} argument(s) but got {given}"
  | divisionByZero => "Division by zero"
  | callsTooDeep limit => s!"Call depth exceeded {limit}"
  | stackFull => "Stack overflow"
  | underflow => "Stack underflow"
  | outOfBounds offset base size => s!"Frame offset {offset} out of bounds (base {base}, stack {size})"
  | readOfUnset offset => s!"Read of uninitialized slot at offset {offset}"
  | readOfBase offset => s!"Read of saved frame base at offset {offset}"
  | unknownGlobal index => s!"Unknown prelude entry {index}"
  | missingCapture => "Closure is missing a captured value"
  | lostBase found => s!"Expected saved frame base, found {found.inspect}"
  | leftOver cells => s!"{cells} slot(s) left on the stack"

end RuntimeProblem

/-- A function that was being called, and the line of the call. -/
structure CallSite where
  function : String
  line : Nat
deriving DecidableEq, Repr, Inhabited

/-- An error with the calls it came through, innermost first. Line zero stands for a line that is not known yet. -/
structure RuntimeError where
  problem : RuntimeProblem
  line : Nat
  trace : Array CallSite

namespace RuntimeError

def of (problem : RuntimeProblem) (line : Nat) : RuntimeError := ⟨problem, line, #[]⟩

/-- Fills in the line if it is not known. -/
def atLine (e : RuntimeError) (line : Nat) : RuntimeError :=
  if e.line = 0 then { e with line := line } else e

/-- Notes a call that the error leaves. -/
def leaving (e : RuntimeError) (function : String) (line : Nat) : RuntimeError :=
  { e with trace := e.trace.push ⟨function, line⟩ }

end RuntimeError

end ClosureLang
