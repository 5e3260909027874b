import ClosureLang.Text.Blank
import ClosureLang.Token.Basic

/-!
# From text to tokens

A token is the longest spelling at its place. Blank characters and comments separate tokens and are dropped.
The reader keeps its place, so that it can be asked again after the end or after an error.
-/

namespace ClosureLang

namespace Token

/-! ## Spellings -/

/-- How many characters of blanks and comments come first. A comment goes to the end of its line. -/
def gapLength (inComment : Bool) : List Char → Nat
  | [] => 0
  | c :: cs =>
    if inComment then gapLength (c != '\n') cs + 1
    else if Text.isBlank c then gapLength false cs + 1
    else if c == '/' && cs.head? == some '/' then gapLength true cs + 1
    else 0

def isDigitOrMark (c : Char) : Bool := c.isDigit || c == '_'

/-- How many digits and underscores come first. -/
def runLength (cs : List Char) : Nat := (cs.takeWhile isDigitOrMark).length

/-- The length of a point and digits, where a digit follows the point at once. -/
def fractionLength : List Char → Nat
  | '.' :: c :: cs => if c.isDigit then runLength (c :: cs) + 1 else 0
  | _ => 0

/-- The length of an exponent mark, an optional sign and digits, where a digit stands first. -/
def exponentLength : List Char → Nat
  | mark :: c :: cs =>
    if mark == 'e' || mark == 'E' then
      if c.isDigit then runLength (c :: cs) + 1
      else if (c == '+' || c == '-') && cs.head?.any Char.isDigit then runLength cs + 2
      else 0
    else 0
  | _ => 0

/-- The length of the number literal that comes first. -/
def numberLength (cs : List Char) : Nat :=
  let whole := runLength cs
  let mantissa := whole + fractionLength (cs.drop whole)
  mantissa + exponentLength (cs.drop mantissa)

def isNameStart (c : Char) : Bool := c.isAlpha || c == '_'

def isNamePart (c : Char) : Bool := c.isAlphanum || c == '_'

/-- The token that comes first and the length of its spelling. -/
def lexeme? (cs : List Char) : Option (Kind × Nat) :=
  match symbols.find? fun s => s.1.isPrefixOf cs with
  | some (spelling, kind) => some (kind, spelling.length)
  | none =>
    match cs with
    | [] => none
    | c :: _ =>
      if c.isDigit then
        let n := numberLength cs
        some (.number ((Decimal.ofLiteral (cs.take n)).toFloat false), n)
      else if isNameStart c then
        let name := cs.takeWhile isNamePart
        some (.identifier (String.ofList name), name.length)
      else none

theorem runLength_pos {c : Char} {cs : List Char} (h : c.isDigit) : 0 < runLength (c :: cs) := by
  simp [runLength, isDigitOrMark, h]

theorem isNamePart_of_isNameStart {c : Char} (h : isNameStart c) : isNamePart c := by
  simp only [isNameStart, isNamePart, Char.isAlphanum, Bool.or_eq_true] at *
  rcases h with h | h <;> simp [h]

/-- A spelling is a nonempty part of the text. -/
theorem lexeme?_length {cs : List Char} {kind : Kind} {n : Nat} (h : lexeme? cs = some (kind, n)) :
    0 < n ∧ 0 < cs.length := by
  unfold lexeme? at h
  split at h
  · next spelling kind' found =>
    have member := List.mem_of_find?_eq_some found
    have initial := List.find?_some found
    have size : 0 < spelling.length := by
      have all : ∀ s ∈ symbols, 0 < s.1.length := by decide
      exact all _ member
    obtain ⟨rfl, rfl⟩ : kind' = kind ∧ spelling.length = n := by simpa using h
    exact ⟨size, Nat.lt_of_lt_of_le size (List.IsPrefix.length_le (by simpa using initial))⟩
  · split at h
    · cases h
    · next c rest _ =>
      split at h
      · next digit =>
        obtain ⟨-, rfl⟩ : _ ∧ numberLength (c :: rest) = n := by simpa using h
        have : 0 < runLength (c :: rest) := runLength_pos digit
        simp only [numberLength, List.length_cons]
        omega
      · split at h
        · next letter =>
          obtain ⟨-, rfl⟩ : _ ∧ ((c :: rest).takeWhile isNamePart).length = n := by simpa using h
          simp [isNamePart_of_isNameStart letter]
        · cases h

end Token

/-! ## The reader -/

/-- A character that starts no token, and its place. -/
structure LexError where
  character : Char
  line : Nat
  column : Nat
deriving DecidableEq, Repr

def LexError.message (e : LexError) : String := s!"Unexpected character: '{e.character}'"

/-- The text still to read and the place where it starts. -/
structure Lexer where
  rest : List Char
  position : Position

namespace Lexer

def ofString (source : String) : Lexer := ⟨source.toList, .start⟩

/-- Moves on by `n` characters. -/
def skip (l : Lexer) (n : Nat) : Lexer := ⟨l.rest.drop n, l.position.advance (l.rest.take n)⟩

theorem skip_rest_length (l : Lexer) (n : Nat) : (l.skip n).rest.length = l.rest.length - n :=
  List.length_drop

/-- Moves on to the next token. -/
def skipGap (l : Lexer) : Lexer := l.skip (Token.gapLength false l.rest)

/-- Reads all tokens up to the end of the text, which is a token itself. An error keeps the reader at the character
that it is about. -/
def tokenize (l : Lexer) : Except LexError (List Token) × Lexer :=
  let l' := l.skipGap
  match h : Token.lexeme? l'.rest with
  | some (kind, n) =>
    have := Token.lexeme?_length h
    let after := l'.skip n
    let (tokens, last) := after.tokenize
    (tokens.map (⟨kind, .between l'.position after.position⟩ :: ·), last)
  | none =>
    match l'.rest with
    | [] => (.ok [⟨.eof, .between l'.position l'.position⟩], l')
    | c :: _ => (.error ⟨c, l'.position.line, l'.position.column⟩, l')
termination_by l.rest.length
decreasing_by
  have gap := l.skip_rest_length (Token.gapLength false l.rest)
  have step := l'.skip_rest_length n
  simp only [l', skipGap] at this step ⊢
  omega

end Lexer

/-- The tokens of a text. -/
def Token.ofSource (source : String) : Except LexError (List Token) := (Lexer.ofString source).tokenize.1

end ClosureLang
