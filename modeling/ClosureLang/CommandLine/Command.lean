import ClosureLang.CommandLine.Options
import ClosureLang.CommandLine.PipedInput

/-!
# Commands

What a command line does with the files and the input that it finds.
-/

namespace ClosureLang.CommandLine

/-- Why a text could not be read. -/
inductive ReadError where
  | notFound
  | notDirectory
  | isDirectory
  | nameTooLong
  | notText
  | other (message : String)
deriving DecidableEq, Repr

def ReadError.message : ReadError → String
  | notFound => "No such file or directory (os error 2)"
  | notDirectory => "Not a directory (os error 20)"
  | isDirectory => "Is a directory (os error 21)"
  | nameTooLong => "File name too long (os error 36)"
  | notText => invalidText
  | other message => message

/-- The text that some bytes stand for. -/
def decode (bytes : ByteArray) : Except ReadError String :=
  match String.fromUTF8? bytes with
  | some text => .ok text
  | none => .error .notText

/-- Where a program comes from: the command line, a file, or else the standard input. -/
inductive Source where
  | code (text : String)
  | file (path : String)
  | input
deriving DecidableEq, Repr

def Options.source (o : Options) : Source :=
  match o.code, o.path with
  | some code, _ => .code code
  | none, some path => .file path
  | none, none => .input

def Stop.report : Stop → Report
  | help => ⟨0, ⟨helpText, ""⟩⟩
  | missingCode => ⟨1, ⟨"", "Error: -e requires a script argument\n"⟩⟩
  | badDepth => ⟨1, ⟨"", "Error: --max-depth requires a positive integer\n"⟩⟩
  | unknown word => ⟨1, ⟨"", s!"Unknown option: {word}\n"⟩⟩

def Source.failure (s : Source) (e : ReadError) : Report :=
  match s with
  | file path => ⟨1, ⟨"", s!"Error reading file '{path}': {e.message}\n"⟩⟩
  | _ => ⟨1, ⟨"", s!"Error reading from stdin: {e.message}\n"⟩⟩

/-- What a command needs of the outside: the contents of files, and the standard input unless it is a terminal. -/
structure Outside (m : Type → Type) where
  readFile : String → m (Except ReadError ByteArray)
  readInput : m (Option ByteArray)

variable {m : Type → Type} [Monad m]

/-- Runs or lists the program that some bytes hold. -/
def runBytes (c : Console) (o : Options) (bytes : Except ReadError ByteArray) : Report :=
  match bytes >>= decode with
  | .ok text => c.runText o.listing text
  | .error e => o.source.failure e

/-- Runs a command line. With no program to run it prints the help. -/
def run (outside : Outside m) (filter : Log.Filter) (words : List String) : m Report := do
  match Options.standard.read words with
  | .error stop => return stop.report
  | .ok o =>
    let c := Console.new o.limits filter
    if o.interactive then
      return pipedSession c ((← outside.readInput).getD ByteArray.empty)
    match o.source with
    | .code text => return c.runText o.listing text
    | .file path => return runBytes c o (← outside.readFile path)
    | .input =>
      match ← outside.readInput with
      | some bytes => return runBytes c o (.ok bytes)
      | none => return { Stop.help.report with code := 1 }

end ClosureLang.CommandLine
