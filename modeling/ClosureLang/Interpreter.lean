import ClosureLang.Code.Listing
import ClosureLang.Log

/-!
# The interpreter

From a source to a program, and from a program to its value. The first error ends it. What happened on the way is kept
in a log, also after an error.
-/

namespace ClosureLang

/-- What programs are compiled against and run with. -/
structure Interpreter where
  globals : Prelude
  limits : Limits
  recordsCalls : Bool

/-- A computation that logs events and can end with a diagnostic. -/
abbrev Logged := EStateM Diagnostic (Array Event)

namespace Logged

variable {ε α : Type}

def emit (e : Event) : Logged Unit := modify (·.push e)

def emitAll (es : Array Event) : Logged Unit := modify (· ++ es)

def ofExcept (toDiagnostic : ε → Diagnostic) : Except ε α → Logged α
  | .ok a => return a
  | .error e => throw (toDiagnostic e)

end Logged

namespace Interpreter

open Logged

def standard (limits : Limits) : Interpreter := ⟨.standard, limits, false⟩

/-- Resolves the names of a tree and compiles it. -/
def compileTree (i : Interpreter) (tree : Expr) : Logged Program := do
  match (Resolver.new i.globals.names).program tree with
  | .failed _ e r =>
    emitAll (r.events.map .captured)
    throw (.ofResolveError e)
  | .done tree r =>
    emitAll (r.events.map .captured)
    emit (.resolved r.scopes.size)
    let program ← ofExcept .ofCompileError (tree.toProgram r.scopes i.globals)
    emit (.compiled program.routineCount)
    return program

/-- The program of a source. -/
def compile (i : Interpreter) (source : String) : Logged Program := do
  let tokens ← ofExcept .ofLexError (Token.ofSource source)
  let tree ← ofExcept .ofParseError (Expr.ofTokens tokens)
  emit (.parsed tree)
  i.compileTree tree

def machine (i : Interpreter) : Machine :=
  if i.recordsCalls then (Machine.new i.limits).recording else Machine.new i.limits

/-- The value of a program, computed on a new machine. -/
def eval (i : Interpreter) (p : Program) : Logged Value := do
  emit (.started p.main.frameSize)
  match Machine.run p i.machine with
  | .ok v m =>
    emitAll ((m.calls.getD #[]).map .called)
    emit (.evaluated v)
    return v
  | .error e m =>
    emitAll ((m.calls.getD #[]).map .called)
    throw (.ofRuntimeError e)

/-- The value of a source. -/
def run (i : Interpreter) (source : String) : Logged Value := do
  let program ← i.compile source
  i.eval program

end Interpreter

/-- The result of a computation without its log. -/
def Logged.result {α : Type} (c : Logged α) : Except Diagnostic α :=
  match c #[] with
  | .ok a _ => .ok a
  | .error d _ => .error d

end ClosureLang
