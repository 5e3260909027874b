import ClosureLang.Diagnostic.Report
import ClosureLang.Machine.Exec

/-!
# Log messages

What happens on the way from a source to a value, and which of it is shown.
-/

namespace ClosureLang

namespace Log

/-- How much is shown. A message is shown at its own level and at all later ones. -/
inductive Level where
  | off
  | error
  | warn
  | info
  | debug
  | trace
deriving DecidableEq, Repr, Inhabited

def Level.rank : Level → Nat
  | off => 0
  | error => 1
  | warn => 2
  | info => 3
  | debug => 4
  | trace => 5

def Level.text : Level → String
  | off => "OFF"
  | error => "ERROR"
  | warn => "WARN"
  | info => "INFO"
  | debug => "DEBUG"
  | trace => "TRACE"

def Level.all : List Level := [off, error, warn, info, debug, trace]

def Level.ofString? (s : String) : Option Level := Level.all.find? (·.text == s.toUpper)

end Log

/-- A step that is worth a message. -/
inductive Event where
  | parsed (tree : Expr)
  | captured (capture : CaptureEvent)
  | resolved (frames : Nat)
  | compiled (routines : Nat)
  | started (frameSize : Int)
  | called (call : CallEvent)
  | evaluated (value : Value)
  | piped
  | waiting
  | failed (d : Diagnostic)

namespace Event

def level : Event → Log.Level
  | captured _ | called _ => .trace
  | _ => .debug

/-- The part of the program that a message comes from. -/
def target : Event → String
  | parsed _ | resolved _ | evaluated _ => "se_lang::runner"
  | captured _ => "se_lang::resolver"
  | compiled _ => "se_lang::vm::compiler"
  | started _ | called _ => "se_lang::vm::runtime"
  | piped => "rustyline"
  | waiting | failed _ => "se"

def inspectVar : Var → String
  | .arg i => s!"Arg({Word.text i})"
  | .slot i => s!"Local({Word.text i})"
  | .captured frame i =>
    Inspect.record "Captured" [("frame", Inspect.tagged "FrameId" (toString frame)), ("index", toString i)]
  | .global i => s!"Prelude({i})"

def inspectSource : CaptureSource → String
  | .parent var => Inspect.tagged "Parent" (inspectVar var)
  | .itself => "Recursive"

def message : Event → String
  | parsed tree => s!"parsed: {tree.text}"
  | captured c => s!"capture `{c.name}` into frame {c.frame} slot {c.slot} from {inspectSource c.source}"
  | resolved frames => s!"resolved {frames} frame(s)"
  | compiled routines => s!"compiled {routines} function(s)"
  | started frameSize => s!"run: main frame size {Word.text frameSize}"
  | called c => s!"call {c.function} argc={c.argc} base={c.base} depth={c.depth}"
  | evaluated value => s!"evaluated to {value.text}"
  | piped => "stdin is not a tty"
  | waiting => "repl: waiting for more input"
  | failed d => s!"repl error: {d.inspect}"

end Event

namespace Log

/-- Shows messages up to a level from the targets that start with a text. -/
structure Filter where
  target : String
  level : Level
deriving DecidableEq, Repr, Inhabited

namespace Filter

def standard : Filter := ⟨"", .warn⟩

/-- A level, or a target with a level. A target alone shows everything from it, and what is neither shows nothing but
errors. -/
def ofString (s : String) : Filter :=
  match s.splitOn "=" with
  | [one] =>
    match Level.ofString? one with
    | some level => ⟨"", level⟩
    | none => if one.isEmpty then ⟨"", .error⟩ else ⟨one, .trace⟩
  | [target, level] =>
    match Level.ofString? level with
    | some level => ⟨target, level⟩
    | none => if level.isEmpty then ⟨target, .trace⟩ else ⟨"", .error⟩
  | _ => ⟨"", .error⟩

def shows (f : Filter) (level : Level) (target : String) : Bool :=
  level.rank ≤ f.level.rank && f.target.toList.isPrefixOf target.toList

/-- Whether calls can be shown at all. -/
def showsCalls (f : Filter) : Bool := f.level == .trace

/-- The lines for the events that are shown. The level takes five columns. -/
def render (f : Filter) (events : List Event) : String :=
  String.join (events.filterMap fun e =>
    if f.shows e.level e.target then
      let level := e.level.text
      some s!"[{level}{Diagnostic.spaces (5 - level.length)} {e.target}] {e.message}\n"
    else none)

end Filter

end Log

end ClosureLang
