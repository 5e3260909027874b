import ClosureLang.Machine.Basic

/-!
# Command line options

The words of a command line are read from left to right. Help and mistakes end the reading at once.
-/

namespace ClosureLang.CommandLine

/-- What a command line asks for. A later word for the same thing wins. -/
structure Options where
  code : Option String
  path : Option String
  interactive : Bool
  listing : Bool
  limits : Limits
deriving DecidableEq, Repr

def Options.standard : Options := ⟨none, none, false, false, .standard⟩

/-- Why the reading of options ends early. -/
inductive Stop where
  | help
  | missingCode
  | badDepth
  | unknown (word : String)
deriving DecidableEq, Repr

/-- A natural number of 64 bits: digits, perhaps after a plus sign. -/
def natOfWord? (word : String) : Option Nat :=
  let digits :=
    match word.toList with
    | '+' :: cs => cs
    | cs => cs
  if digits.isEmpty || !digits.all Char.isDigit then none
  else
    let n := digits.foldl (fun n c => 10 * n + (c.toNat - '0'.toNat)) 0
    if n < 1 <<< 64 then some n else none

/-- Reads options into those read before. -/
def Options.read (o : Options) : List String → Except Stop Options
  | [] => .ok o
  | word :: words =>
    if word = "-h" ∨ word = "--help" then .error .help
    else if word = "-r" ∨ word = "--repl" then { o with interactive := true }.read words
    else if word = "-d" ∨ word = "--disassemble" then { o with listing := true }.read words
    else if word = "-e" ∨ word = "--eval" then
      match words with
      | code :: words => { o with code := some code }.read words
      | [] => .error .missingCode
    else if word = "--max-depth" then
      match words with
      | depth :: words =>
        match natOfWord? depth with
        | some (n + 1) => { o with limits.maxCallDepth := n + 1 }.read words
        | _ => .error .badDepth
      | [] => .error .badDepth
    else if word.startsWith "-" then .error (.unknown word)
    else { o with path := some word }.read words

def helpText : String :=
  "se - closure expression language\n" ++
  "\n" ++
  "USAGE:\n" ++
  "    se <SCRIPT>               Run a program file\n" ++
  "    se -e <CODE>              Evaluate inline code\n" ++
  "    se -d <SCRIPT>            Print the compiled program instead of running it\n" ++
  "    se -r                     Start REPL\n" ++
  "    se -h                     Show this help\n" ++
  "    cat file | se             Read program from stdin\n" ++
  "\n" ++
  "OPTIONS:\n" ++
  "    -e, --eval <CODE>         Evaluate inline code\n" ++
  "    -d, --disassemble         Print compiled program nodes\n" ++
  "    -r, --repl                Start REPL\n" ++
  "        --max-depth <N>       Maximum call depth (default 256)\n" ++
  "\n" ++
  "ENVIRONMENT:\n" ++
  "    SE_LOG                    Log filter, e.g. debug or se_lang=trace (default warn)\n"

end ClosureLang.CommandLine
