import ClosureLang.Interpreter

/-!
# Consoles

An interpreter together with a choice of log messages, and the text that its answers print.
-/

namespace ClosureLang

/-- Text for the two output channels. -/
structure Output where
  out : String
  err : String
deriving DecidableEq, Repr, Inhabited

namespace Output

def empty : Output := ⟨"", ""⟩

instance : Append Output := ⟨fun a b => ⟨a.out ++ b.out, a.err ++ b.err⟩⟩

def join (outputs : List Output) : Output := outputs.foldl (· ++ ·) empty

end Output

/-- What a command leaves behind: an exit code and its output. -/
structure Report where
  code : Nat
  output : Output
deriving DecidableEq, Repr

/-- An interpreter and the log messages to show. -/
structure Console where
  interpreter : Interpreter
  filter : Log.Filter

namespace Console

def new (limits : Limits) (filter : Log.Filter) : Console :=
  ⟨{ Interpreter.standard limits with recordsCalls := filter.showsCalls }, filter⟩

def log (c : Console) (events : Array Event) : Output := ⟨"", c.filter.render events.toList⟩

/-- Runs or lists a program. -/
def runText (c : Console) (listing : Bool) (text : String) : Report :=
  let result : Logged String :=
    if listing then do return (← c.interpreter.compile text).listing
    else do return (← c.interpreter.run text).text ++ "\n"
  match result #[] with
  | .ok shown events => ⟨0, c.log events ++ ⟨shown, ""⟩⟩
  | .error d events => ⟨2, c.log events ++ ⟨"", d.report text ++ "\n"⟩⟩

end Console

end ClosureLang
