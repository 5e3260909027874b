import ClosureLang.CommandLine.Repl
import ClosureLang.Text.Backspace

/-!
# Piped input

The lines of an interactive session that does not come from a terminal. They are cut out of bytes, and each is taken as
it was meant to be typed.
-/

namespace ClosureLang.CommandLine

def invalidText : String := "stream did not contain valid UTF-8"

/-- A line without its end, after its backspaces have been carried out. -/
def typedLine (line : String) : String :=
  let cs :=
    match line.toList.reverse with
    | '\n' :: '\r' :: cs => cs.reverse
    | '\n' :: cs => cs.reverse
    | cs => cs.reverse
  String.ofList (Text.carryOutBackspaces cs)

/-- The lines of some bytes, with their ends. The first one goes on with `line`, which is held in reverse. -/
def splitLines (line : List UInt8) : List UInt8 → List (List UInt8)
  | [] => if line.isEmpty then [] else [line.reverse]
  | b :: bytes => if b = 10 then (b :: line).reverse :: splitLines [] bytes else splitLines (b :: line) bytes

/-- The lines up to the first that is no text. -/
def decodeLines : List (List UInt8) → List String × Repl.Ending
  | [] => ([], .finished)
  | line :: lines =>
    match String.fromUTF8? ⟨line.toArray⟩ with
    | none => ([], .unreadable invalidText)
    | some text =>
      let (texts, ending) := decodeLines lines
      (typedLine text :: texts, ending)

/-- An interactive session whose input is some bytes. -/
def pipedSession (c : Console) (input : ByteArray) : Report :=
  let (lines, ending) := decodeLines (splitLines [] input.toList)
  Repl.session c lines ending

end ClosureLang.CommandLine
