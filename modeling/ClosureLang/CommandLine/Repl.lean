import ClosureLang.CommandLine.Console

/-!
# The interactive loop

Lines are collected into an entry until it is a program, or cannot become one any more. A blank line, or the end of the
input, ends the waiting. Each entry is then answered, once.
-/

namespace ClosureLang

namespace Repl

/-! ## Entries -/

/-- What a line leads to: nothing, an entry that waits for more lines, or an entry to answer. -/
inductive Reaction where
  | idle
  | waiting (entry : String)
  | settled (entry : String)
deriving DecidableEq, Repr

/-- The lines that wait after a reaction. -/
def Reaction.pending : Reaction → String
  | waiting entry => entry
  | _ => ""

/-- The entry that a reaction answers. -/
def Reaction.entry? : Reaction → Option String
  | settled entry => some entry
  | _ => none

/-- The reaction to the end of the waiting. -/
def giveUp (pending : String) : Reaction := if pending.isEmpty then .idle else .settled pending

/-- The reaction to a line after the lines that wait already. -/
def react (isOpen : String → Bool) (pending line : String) : Reaction :=
  if Text.allBlank line then giveUp pending
  else
    let entry := if pending.isEmpty then line else pending ++ "\n" ++ line
    if isOpen entry then .waiting entry else .settled entry

/-- The reactions to some lines, and the lines that wait after them. -/
def reactAll (isOpen : String → Bool) (pending : String) : List String → List Reaction × String
  | [] => ([], pending)
  | line :: lines =>
    let reaction := react isOpen pending line
    let (reactions, last) := reactAll isOpen reaction.pending lines
    (reaction :: reactions, last)

/-- Whether a text can only be mended by more text. -/
def isOpen (text : String) : Bool :=
  match Token.ofSource text with
  | .error _ => false
  | .ok tokens =>
    match Expr.ofTokens tokens with
    | .error e => (Diagnostic.ofParseError e).isIncomplete text
    | .ok _ => false

/-! ## Answers -/

/-- Evaluates an entry and prints its value, or what is wrong with it. -/
def answer (c : Console) (entry : String) : Output :=
  match c.interpreter.run entry #[] with
  | .ok v events => c.log events ++ ⟨v.text ++ "\n", ""⟩
  | .error d events => c.log (events.push (.failed d)) ++ ⟨"", d.report entry ++ "\n"⟩

def print (c : Console) : Reaction → Output
  | .idle => .empty
  | .waiting _ => c.log #[.waiting]
  | .settled entry => answer c entry

def banner : Output := ⟨"se REPL. Ctrl-D to exit.\n", ""⟩

def farewell : Output := ⟨"Goodbye!\n", ""⟩

/-! ## Sessions -/

/-- What follows the last line: the end of the input, or a line that cannot be read. -/
inductive Ending where
  | finished
  | unreadable (message : String)
deriving DecidableEq, Repr

/-- Notes that a line is about to be read, though not from a terminal. -/
def listen (c : Console) : Output := c.log #[.piped]

/-- A whole interactive session on the lines that it is given. One that cannot be read ends it with an error. -/
def session (c : Console) (lines : List String) (ending : Ending) : Report :=
  let (reactions, last) := reactAll isOpen "" lines
  let shown := banner ++ Output.join (reactions.map fun reaction => listen c ++ print c reaction)
  match ending with
  | .finished => ⟨0, shown ++ listen c ++ print c (giveUp last) ++ farewell⟩
  | .unreadable message => ⟨2, shown ++ listen c ++ ⟨"", s!"Error: {message}\n"⟩⟩

end Repl

end ClosureLang
