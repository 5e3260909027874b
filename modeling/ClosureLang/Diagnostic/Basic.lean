import ClosureLang.Code.Compiler
import ClosureLang.Expr.Parser
import ClosureLang.Machine.Error
import ClosureLang.Scope.Resolver
import ClosureLang.Text.Blank

/-!
# Diagnostics

An error of any kind, with its message and its place in the source.
-/

namespace ClosureLang

inductive Diagnostic where
  | lexical (message : String) (line column : Nat)
  | parse (message : String) (span : Span)
  | resolution (message : String) (span : Span)
  | compilation (message : String) (span : Span)
  | runtime (kind : RuntimeKind) (message : String) (line : Nat) (trace : List CallSite)
deriving DecidableEq

namespace Diagnostic

def ofLexError (e : LexError) : Diagnostic := lexical e.message e.line e.column

def ofParseError (e : ParseError) : Diagnostic := parse e.problem.message e.span

def ofResolveError (e : ResolveError) : Diagnostic := resolution e.problem.message e.span

def ofCompileError (e : CompileError) : Diagnostic := compilation e.problem.message e.span

def ofRuntimeError (e : RuntimeError) : Diagnostic :=
  runtime e.problem.kind e.problem.message e.line e.trace.toList

def message : Diagnostic → String
  | lexical m _ _ | parse m _ | resolution m _ | compilation m _ | runtime _ m _ _ => m

def line : Diagnostic → Nat
  | lexical _ line _ | runtime _ _ line _ => line
  | parse _ span | resolution _ span | compilation _ span => span.line

/-- The column, or zero where none is known. -/
def column : Diagnostic → Nat
  | lexical _ _ column => column
  | parse _ span | resolution _ span | compilation _ span => span.column
  | runtime _ _ _ _ => 0

def trace : Diagnostic → List CallSite
  | runtime _ _ _ trace => trace
  | _ => []

def title : Diagnostic → String
  | lexical _ _ _ => "Lexical error"
  | parse _ _ => "Parse error"
  | resolution _ _ => "Resolution error"
  | compilation _ _ => "Compile error"
  | runtime _ _ _ _ => "Runtime error"

/-- One line about the error. -/
def text (d : Diagnostic) : String :=
  match d with
  | runtime _ _ _ _ => s!"{d.title} at line {d.line}: {d.message}"
  | _ => s!"{d.title} at line {d.line}, column {d.column}: {d.message}"

/-- One line about the error in fewer words. -/
def shortText (d : Diagnostic) : String :=
  match d with
  | runtime _ _ _ _ => d.text
  | compilation _ _ => s!"Compile error at {d.line}:{d.column}: {d.message}"
  | _ => s!"line {d.line}:{d.column}: {d.message}"

/-- Whether the text of the program is to blame, not its meaning. -/
def isSyntactic : Diagnostic → Bool
  | lexical _ _ _ | parse _ _ => true
  | _ => false

/-- Whether more text could still mend the program: the error is that it ends. -/
def isIncomplete (d : Diagnostic) (source : String) : Bool :=
  match d with
  | parse _ span => (Text.trimEnd source).utf8ByteSize ≤ span.start
  | _ => false

end Diagnostic

end ClosureLang
