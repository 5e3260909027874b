import ClosureLang.Diagnostic.Basic
import ClosureLang.Text.Lines

/-!
# Reports

A diagnostic with the lines around its place, a caret under its column, and the calls that led to it. Calls that repeat
are shown once with their number.
-/

namespace ClosureLang.Diagnostic

/-! ## Lines -/

def spaces (n : Nat) : String := String.ofList (List.replicate n ' ')

/-- A line number in four columns. -/
def lineNumber (n : Nat) : String :=
  let digits := toString n
  spaces (4 - digits.length) ++ digits

/-- A line of the source. The line with the error has an arrow, and a caret below it if the column is known. -/
def sourceLine (isError : Bool) (column number : Nat) (content : String) : String :=
  if isError then
    " → " ++ lineNumber number ++ " | " ++ content ++ "\n" ++
      (if 0 < column then "        | " ++ spaces (column - 1) ++ "^\n" else "")
  else "   " ++ lineNumber number ++ " | " ++ content ++ "\n"

/-- The line with the error and up to two on either side of it. -/
def excerpt (d : Diagnostic) (source : String) : String :=
  let error := d.line - 1
  let first := error - 2
  let shown := ((Text.lines source).take (error + 3)).drop first
  String.join ((shown.zipIdx first).map fun (content, i) => sourceLine (i == error) d.column (i + 1) content)

/-! ## Calls -/

/-- Adds a call in front of runs of equal calls. -/
def addToRuns (site : CallSite) : List (CallSite × Nat) → List (CallSite × Nat)
  | [] => [(site, 1)]
  | (first, n) :: runs => if site = first then (first, n + 1) :: runs else (site, 1) :: (first, n) :: runs

/-- The runs of equal calls in a trace, with their lengths. -/
def runs (trace : List CallSite) : List (CallSite × Nat) := trace.foldr addToRuns []

/-- The number of runs that are shown. -/
def maxRuns : Nat := 64

/-- The text of at most `room` runs, of which the first starts at call number `index`. -/
def runsText (room index : Nat) : List (CallSite × Nat) → String
  | [] => ""
  | (site, n) :: others =>
    match room with
    | 0 => s!"  ... {(((site, n) :: others).map Prod.snd).sum} more frame(s)\n"
    | room + 1 =>
      s!"  {index} at {site.function} (line {site.line})" ++ (if 1 < n then s!" repeated {n} times" else "") ++ "\n" ++
        runsText room (index + n) others

def traceText (trace : List CallSite) : String :=
  if trace.isEmpty then "" else "\nStack trace:\n" ++ runsText maxRuns 0 (runs trace)

/-! ## The report -/

/-- The full text of a diagnostic about a source. -/
def report (d : Diagnostic) (source : String) : String :=
  "\n" ++ s!"{d.title} at line {d.line}" ++ (if 0 < d.column then s!", column {d.column}" else "") ++
    s!": {d.message}\n\n" ++ d.excerpt source ++ traceText d.trace

/-! ## The structure of a diagnostic -/

open Inspect

def inspectSpan (s : Span) : String :=
  record "Span"
    [("start", toString s.start), ("end", toString s.stop), ("line", toString s.line), ("column", toString s.column)]

def inspectKind : RuntimeKind → String
  | .notCallable => "NotCallable"
  | .typeMismatch => "TypeMismatch"
  | .arityMismatch => "ArityMismatch"
  | .divisionByZero => "DivisionByZero"
  | .stackOverflow => "StackOverflow"
  | .stackFault => "StackFault"
  | .unbalanced => "Unbalanced"

def inspectSite (s : CallSite) : String :=
  record "StackFrame" [("function_name", Text.quote s.function), ("line", toString s.line)]

/-- All parts of a diagnostic as text. -/
def inspect : Diagnostic → String
  | lexical message line column =>
    tagged "Lex" (record "LexError"
      [("message", Text.quote message), ("line", toString line), ("column", toString column)])
  | parse message span =>
    tagged "Parse" (record "ParseError" [("message", Text.quote message), ("span", inspectSpan span)])
  | resolution message span =>
    tagged "Resolve" (record "ResolveError" [("message", Text.quote message), ("span", inspectSpan span)])
  | compilation message span =>
    tagged "Compile" (record "CompileError" [("message", Text.quote message), ("span", inspectSpan span)])
  | runtime kind message line trace =>
    tagged "Runtime" (record "RuntimeError"
      [("kind", inspectKind kind), ("message", Text.quote message), ("line", toString line),
       ("stack_trace", list (trace.map inspectSite))])

end ClosureLang.Diagnostic
