import ClosureLang.CommandLine.Command

/-!
# The command

Reads files and input, runs a command line and prints what it leaves behind.
-/

namespace ClosureLang.CommandLine

/-- All bytes of a stream. -/
partial def readAll (stream : IO.FS.Stream) (bytes : ByteArray) : IO ByteArray := do
  let more ← stream.read 65536
  if more.isEmpty then return bytes else readAll stream (bytes ++ more)

def readPath (path : String) : IO (Except ReadError ByteArray) := do
  try
    return .ok (← IO.FS.readBinFile path)
  catch e =>
    match e with
    | .noFileOrDirectory _ _ _ => return .error .notFound
    | .inappropriateType _ _ _ => return .error .isDirectory
    | e => return .error (.other (toString e))

def outside : Outside IO where
  readFile := readPath
  readInput := do
    let input ← IO.getStdin
    if ← input.isTty then return none else return some (← readAll input ByteArray.empty)

def print (o : Output) : IO Unit := do
  IO.eprint o.err
  IO.print o.out
  (← IO.getStdout).flush

/-- The interactive loop on a terminal. -/
partial def converse (c : Console) (pending : String) : IO Unit := do
  IO.print (if pending.isEmpty then "> " else "... ")
  (← IO.getStdout).flush
  let line ← (← IO.getStdin).getLine
  if line.isEmpty then print (Repl.print c (Repl.giveUp pending) ++ Repl.farewell)
  else
    let reaction := Repl.react Repl.isOpen pending (typedLine line)
    print (Repl.print c reaction)
    converse c reaction.pending

end ClosureLang.CommandLine

open ClosureLang CommandLine in
def main (words : List String) : IO UInt32 := do
  let filter := ((← IO.getEnv "SE_LOG").map Log.Filter.ofString).getD .standard
  match Options.standard.read words with
  | .ok o =>
    if o.interactive && (← (← IO.getStdin).isTty) then
      print Repl.banner
      converse (.new o.limits filter) ""
      return 0
  | .error _ => pure ()
  let report ← run outside filter words
  print report.output
  return UInt32.ofNat report.code
