import ClosureLang.Number.Text
import ClosureLang.Source.Span

/-!
# Tokens

The words of a program with the places where they stand.
-/

namespace ClosureLang

namespace Token

/-- What a token is. -/
inductive Kind where
  | number (value : Float)
  | identifier (name : String)
  | plus
  | minus
  | star
  | slash
  | percent
  | bang
  | equal
  | equalEqual
  | bangEqual
  | less
  | lessEqual
  | greater
  | greaterEqual
  | ampAmp
  | pipePipe
  | arrow
  | question
  | leftParen
  | rightParen
  | leftBrace
  | rightBrace
  | comma
  | colon
  | semicolon
  | eof
deriving DecidableEq, Inhabited

/-- How a token is shown. A number is shown by its value. -/
def Kind.text : Kind → String
  | number value => Number.text value
  | identifier name => name
  | plus => "+"
  | minus => "-"
  | star => "*"
  | slash => "/"
  | percent => "%"
  | bang => "!"
  | equal => "="
  | equalEqual => "=="
  | bangEqual => "!="
  | less => "<"
  | lessEqual => "<="
  | greater => ">"
  | greaterEqual => ">="
  | ampAmp => "&&"
  | pipePipe => "||"
  | arrow => "->"
  | question => "?"
  | leftParen => "("
  | rightParen => ")"
  | leftBrace => "\x7b"
  | rightBrace => "\x7d"
  | comma => ","
  | colon => ":"
  | semicolon => ";"
  | eof => "EOF"

/-- The spellings of operators and delimiters, a longer one before its beginnings. -/
def symbols : List (List Char × Kind) :=
  [(['-', '>'], .arrow), (['=', '='], .equalEqual), (['!', '='], .bangEqual), (['<', '='], .lessEqual),
   (['>', '='], .greaterEqual), (['&', '&'], .ampAmp), (['|', '|'], .pipePipe),
   (['('], .leftParen), ([')'], .rightParen), (['\x7b'], .leftBrace), (['\x7d'], .rightBrace), ([','], .comma),
   ([':'], .colon), ([';'], .semicolon), (['?'], .question), (['+'], .plus), (['*'], .star), (['/'], .slash),
   (['%'], .percent), (['-'], .minus), (['='], .equal), (['!'], .bang), (['<'], .less), (['>'], .greater)]

end Token

/-- A word of a program and where it stands. -/
structure Token where
  kind : Token.Kind
  span : Span
deriving DecidableEq, Inhabited

end ClosureLang
