/-!
# Places in a text

Offsets count bytes, lines and columns count from one, and a column counts characters. The counters have no bound of
their own. A text is taken to have fewer than `2 ^ 32` lines and columns, so that they fit in 32 bits. This is so
whenever it has fewer than `2 ^ 32 - 1` characters.
-/

namespace ClosureLang

/-- The place before a character. -/
structure Position where
  offset : Nat
  line : Nat
  column : Nat
deriving DecidableEq, Repr, Inhabited

namespace Position

/-- The place before the first character of a text. -/
def start : Position := ⟨0, 1, 1⟩

/-- The place after one more character. Only a line feed ends a line. -/
def next (p : Position) (c : Char) : Position :=
  if c = '\n' then ⟨p.offset + c.utf8Size, p.line + 1, 1⟩
  else ⟨p.offset + c.utf8Size, p.line, p.column + 1⟩

/-- The place after some more characters. -/
def advance (p : Position) (cs : List Char) : Position := cs.foldl next p

end Position

/-- A stretch of a text: its offsets, and the line and column where it starts. -/
structure Span where
  start : Nat
  stop : Nat
  line : Nat
  column : Nat
deriving DecidableEq, Repr, Inhabited

namespace Span

/-- The span of a text that belongs to no source. -/
def unknown : Span := ⟨0, 0, 0, 0⟩

/-- The stretch between two places. -/
def between (first last : Position) : Span := ⟨first.offset, last.offset, first.line, first.column⟩

/-- The stretch from the start of one span to the end of another. -/
def through (first last : Span) : Span := { first with stop := last.stop }

end Span

end ClosureLang
