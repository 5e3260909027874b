/-!
# Lines of a text

A line ends at a line feed, or at a carriage return with a line feed. There is no line after the last line end.
-/

namespace ClosureLang.Text

/-- The lines of a text whose first line goes on with `line`, which is held in reverse. -/
def linesFrom (line : List Char) : List Char → List String
  | [] => if line.isEmpty then [] else [String.ofList line.reverse]
  | '\n' :: cs =>
    let line :=
      match line with
      | '\r' :: line => line
      | line => line
    String.ofList line.reverse :: linesFrom [] cs
  | c :: cs => linesFrom (c :: line) cs

def lines (s : String) : List String := linesFrom [] s.toList

end ClosureLang.Text
