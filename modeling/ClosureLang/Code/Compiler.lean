import ClosureLang.Code.Basic
import ClosureLang.Scope.Basic

/-!
# From expressions to code

Every place that names were resolved to becomes an offset in the frame of its lambda. Argument `i` lies at `-(i + 2)`,
because the base of the caller's frame is saved just below the base.
-/

namespace ClosureLang

/-! ## Errors -/

/-- What can be wrong with a tree whose names have not been resolved as they should. -/
inductive CompileProblem where
  | unresolvedName (name : String)
  | unresolvedLambda
  | assignmentOutsideBlock (name : String)
  | noLocalSlot (name : String)
  | strayExpression
  | blockWithoutResult
  | foreignCapture (owner frame : Nat)
  | globalWithoutSlot (index : Nat)
  | captureWithoutParent (name : String)
  | unknownFrame (frame : Nat)
  | unknownCapture (frame index : Nat)
deriving DecidableEq, Repr

def CompileProblem.message : CompileProblem → String
  | unresolvedName x => s!"unresolved identifier `{x}`"
  | unresolvedLambda => "unresolved lambda"
  | assignmentOutsideBlock x => s!"assignment to `{x}` outside a block"
  | noLocalSlot x => s!"assignment to `{x}` has no local slot"
  | strayExpression => "only the last statement of a block may be an expression"
  | blockWithoutResult => "block must end with an expression"
  | foreignCapture owner frame => s!"capture of frame {owner} used from frame {frame}"
  | globalWithoutSlot index => s!"prelude entry {index} has no frame slot"
  | captureWithoutParent x => s!"`{x}` captured into a frame with no parent"
  | unknownFrame frame => s!"unknown frame {frame}"
  | unknownCapture frame index => s!"unknown capture {index} of frame {frame}"

structure CompileError where
  problem : CompileProblem
  span : Span
deriving DecidableEq, Repr

namespace ScopeTable

/-! ## Layout -/

/-- The offset of a place from the base of a frame. -/
def offset (t : ScopeTable) (frame : Nat) (span : Span) : Var → Except CompileError Int
  | .arg i => .ok (Var.argOffset i)
  | .slot s => .ok s
  | .captured owner index =>
    if owner ≠ frame then .error ⟨.foreignCapture owner frame, span⟩
    else
      match t[owner]? with
      | none => .error ⟨.unknownFrame owner, span⟩
      | some scope =>
        match scope.captures[index]? with
        | none => .error ⟨.unknownCapture owner index, span⟩
        | some capture => .ok capture.slot
  | .global index => .error ⟨.globalWithoutSlot index, span⟩

/-- Where a capture of a scope is read, seen from the parent's frame. -/
def captureLoad (t : ScopeTable) (parent : Option Nat) (span : Span) (c : Capture) : Except CompileError CaptureLoad :=
  match c.source, parent with
  | .itself, _ => .ok ⟨c.slot, .itself⟩
  | .parent var, some parent => do return ⟨c.slot, .frame (← t.offset parent span var)⟩
  | .parent _, none => .error ⟨.captureWithoutParent c.name, span⟩

/-- The scope of a frame and how its captures are filled. -/
def layout (t : ScopeTable) (frame : Nat) (span : Span) : Except CompileError (Scope × List CaptureLoad) :=
  match t[frame]? with
  | none => .error ⟨.unknownFrame frame, span⟩
  | some scope => do return (scope, ← scope.captures.mapM (t.captureLoad scope.parent span))

end ScopeTable

/-- The routine of a lambda with this scope. -/
def Routine.ofScope (scope : Scope) (captures : List CaptureLoad) (body : Code) : Routine :=
  ⟨scope.name, scope.arity, scope.frameSize, captures, body⟩

namespace Expr

mutual

/-- The code of an expression in a frame. -/
def compile (t : ScopeTable) (frame : Nat) : Expr → Except CompileError Code
  | number _ value => .ok (.const (.number value))
  | name span x var =>
    match var with
    | none => .error ⟨.unresolvedName x, span⟩
    | some (.global index) => .ok (.global index)
    | some var => do return .load (← t.offset frame span var)
  | call span callee args => do
    let callee ← callee.compile t frame
    let args ← compileAll t frame args
    return .call callee args span.line
  | lambda span _ _ none _ => .error ⟨.unresolvedLambda, span⟩
  | lambda _ _ body (some id) _ => do
    let (scope, captures) ← t.layout id body.span
    let body ← body.compile t id
    return .closure (.ofScope scope captures body)
  | block span statements => do
    let (stores, result) ← compileStatements t frame span statements
    return .block stores result
  | assign span x _ _ => .error ⟨.assignmentOutsideBlock x, span⟩
  | cond span test onTrue onFalse => do
    let test ← test.compile t frame
    let onTrue ← onTrue.compile t frame
    let onFalse ← onFalse.compile t frame
    return .cond test onTrue onFalse span.line

/-- The code of expressions, from left to right. -/
def compileAll (t : ScopeTable) (frame : Nat) : List Expr → Except CompileError (List Code)
  | [] => .ok []
  | e :: es => do
    let code ← e.compile t frame
    let codes ← compileAll t frame es
    return code :: codes

/-- The code of the statements of a block: stores in order, then the result. -/
def compileStatements (t : ScopeTable) (frame : Nat) (span : Span) : List Expr → Except CompileError (List Code × Code)
  | [] => .error ⟨.blockWithoutResult, span⟩
  | [result] => do return ([], ← result.compile t frame)
  | assign _ _ value (some (.slot slot)) :: statements => do
    let value ← value.compile t frame
    let (stores, result) ← compileStatements t frame span statements
    return (.store slot value :: stores, result)
  | assign span x _ _ :: _ => .error ⟨.noLocalSlot x, span⟩
  | e :: _ => .error ⟨.strayExpression, e.span⟩

end

/-- The program of a resolved tree. -/
def toProgram (e : Expr) (t : ScopeTable) (globals : Prelude) : Except CompileError Program := do
  let (scope, captures) ← t.layout 0 e.span
  let body ← e.compile t 0
  return ⟨.ofScope scope captures body, globals⟩

end Expr

end ClosureLang
