import ClosureLang.Expr.Basic
import ClosureLang.Token.Lexer

/-!
# From tokens to expressions

Operands are extended as long as the next operator binds tighter than what stands before them. Every operand and every
extension takes one of a bounded number of levels, so the depth of the tree that comes out is bounded as well.
-/

namespace ClosureLang

/-! ## Errors -/

/-- What can be wrong with a list of tokens. -/
inductive ParseProblem where
  | nestedTooDeeply
  | noProgram
  | endOfInput
  | noExpression (found : Token.Kind)
  | expected (wanted found : Token.Kind)
  | missingArrow
deriving DecidableEq

def ParseProblem.message : ParseProblem → String
  | nestedTooDeeply => "Expression nested too deeply"
  | noProgram => "Expected expression"
  | endOfInput => "Unexpected end of input"
  | noExpression found => s!"Expected expression, found '{found.text}'"
  | expected wanted found => s!"Expected '{wanted.text}', found '{found.text}'"
  | missingArrow => "Expected '->' after parameter list"

structure ParseError where
  problem : ParseProblem
  span : Span
deriving DecidableEq

/-! ## Operators -/

/-- How tightly operators bind. -/
abbrev Precedence := Nat

namespace Precedence

def lowest : Precedence := 0
def choice : Precedence := 1
def disjunction : Precedence := 2
def conjunction : Precedence := 3
def comparison : Precedence := 4
def sum : Precedence := 5
def product : Precedence := 6
def unary : Precedence := 7
def call : Precedence := 8

end Precedence

/-- What can follow an operand: arguments, the two branches of a condition, or a second operand for a function. -/
inductive Extension where
  | arguments
  | branches
  | operand (function : String)
deriving DecidableEq, Repr

/-- What a token after an operand starts, and how tightly it binds. -/
def Token.Kind.extension? : Token.Kind → Option (Precedence × Extension)
  | leftParen => some (.call, .arguments)
  | star => some (.product, .operand "mul")
  | slash => some (.product, .operand "div")
  | percent => some (.product, .operand "mod")
  | plus => some (.sum, .operand "add")
  | minus => some (.sum, .operand "sub")
  | equalEqual => some (.comparison, .operand "eq")
  | bangEqual => some (.comparison, .operand "neq")
  | less => some (.comparison, .operand "lt")
  | lessEqual => some (.comparison, .operand "le")
  | greater => some (.comparison, .operand "gt")
  | greaterEqual => some (.comparison, .operand "ge")
  | ampAmp => some (.conjunction, .operand "and")
  | pipePipe => some (.disjunction, .operand "or")
  | question => some (.choice, .branches)
  | _ => none

/-! ## Reading tokens -/

/-- The token that comes next and those after it. The last token is never used up. -/
structure Cursor where
  current : Token
  rest : List Token

/-- A place before the first of some tokens. -/
def Cursor.ofTokens? : List Token → Option Cursor
  | [] => none
  | t :: ts => some ⟨t, ts⟩

/-- Moves past the current token, unless it marks the end or is the last. -/
def Cursor.next (c : Cursor) : Cursor :=
  if c.current.kind = .eof then c
  else
    match c.rest with
    | [] => c
    | t :: ts => ⟨t, ts⟩

/-- The name that is assigned to, if an assignment comes next. -/
def Cursor.target? (c : Cursor) : Option String :=
  match c.current.kind, c.rest with
  | .identifier x, t :: _ => if t.kind = .equal then some x else none
  | _, _ => none

/-- A reader of tokens. An error keeps the place where it was found. -/
abbrev Parser := EStateM ParseError Cursor

namespace Parser

def peek : Parser Token := do return (← get).current

def advance : Parser Token := fun c => .ok c.current c.next

def fail {α : Type} (problem : ParseProblem) (span : Span) : Parser α := throw ⟨problem, span⟩

/-- Whether the next token is of this kind. -/
def check (kind : Token.Kind) : Parser Bool := do return (← peek).kind = kind

/-- Reads a token that must be of this kind. -/
def expect (kind : Token.Kind) : Parser Token := do
  if ← check kind then advance
  else
    let found ← peek
    fail (.expected kind found.kind) found.span

/-- Items with separators between them, and perhaps one after the last, up to a closing token or the end. Every item
but the last uses up a token, so the number of rounds is bounded by the number of tokens. -/
def separated (item : Parser Expr) (separator close : Token.Kind) : (rounds : Nat) → Parser (List Expr)
  | 0 => return []
  | rounds + 1 => do
    let next ← peek
    if next.kind = close ∨ next.kind = .eof then return []
    let first ← item
    if ← check separator then
      let _ ← advance
      let others ← separated item separator close rounds
      return first :: others
    else return [first]

def items (item : Parser Expr) (separator close : Token.Kind) : Parser (List Expr) := do
  separated item separator close ((← get).rest.length + 1)

/-! ## Expressions

The readers of this section take a reader of nested expressions, which gets the precedence to stay above. -/

def nested (sub : Precedence → Parser Expr) : Parser Expr := sub .lowest

/-- An assignment to a name, or an expression. -/
def statement (sub : Precedence → Parser Expr) : Parser Expr := do
  match (← get).target? with
  | some x =>
    let target ← advance
    let _ ← expect .equal
    let value ← nested sub
    return .assign (target.span.through value.span) x (value.labelled x) none
  | none => nested sub

def arguments (sub : Precedence → Parser Expr) : Parser (List Expr) :=
  items (nested sub) .comma .rightParen

def lambda (sub : Precedence → Parser Expr) (params : List Expr) (start : Span) : Parser Expr := do
  let body ← nested sub
  return .lambda (start.through body.span) params body none none

/-- What follows an opening parenthesis: an expression and a closing one, or the parameters of a lambda. -/
def group (sub : Precedence → Parser Expr) (start : Span) : Parser Expr := do
  let inside ← arguments sub
  let close ← expect .rightParen
  if ← check .arrow then
    let _ ← advance
    lambda sub inside start
  else
    match inside with
    | [e] => return e
    | _ => fail .missingArrow (start.through close.span)

def unary (sub : Precedence → Parser Expr) (function : String) (operator : Span) : Parser Expr := do
  let operand ← sub .unary
  return .call (operator.through operand.span) (.name operator function none) [operand]

def block (sub : Precedence → Parser Expr) (start : Span) : Parser Expr := do
  let statements ← items (statement sub) .semicolon .rightBrace
  let close ← expect .rightBrace
  return .block (start.through close.span) statements

/-- An expression up to the first operator after it. -/
def operand (sub : Precedence → Parser Expr) : Parser Expr := do
  let token ← advance
  match token.kind with
  | .number value => return .number token.span value
  | .identifier x =>
    if ← check .arrow then
      let _ ← advance
      lambda sub [.name token.span x none] token.span
    else return .name token.span x none
  | .minus => unary sub "neg" token.span
  | .bang => unary sub "not" token.span
  | .leftParen => group sub token.span
  | .leftBrace => block sub token.span
  | .eof => fail .endOfInput token.span
  | found => fail (.noExpression found) token.span

/-- Reads an operator and what belongs to it. A condition takes all that follows into its last branch. -/
def extend (sub : Precedence → Parser Expr) (left : Expr) (precedence : Precedence) : Extension → Parser Expr
  | .arguments => do
    let _ ← advance
    let args ← arguments sub
    let close ← expect .rightParen
    return .call (left.span.through close.span) left args
  | .branches => do
    let _ ← advance
    let onTrue ← nested sub
    let _ ← expect .colon
    let onFalse ← nested sub
    return .cond (left.span.through onFalse.span) left onTrue onFalse
  | .operand function => do
    let operator ← advance
    let right ← sub precedence
    return .call (left.span.through right.span) (.name operator.span function none) [left, right]

def tooDeep : Parser Expr := do fail .nestedTooDeeply (← peek).span

mutual

/-- An expression whose operators bind tighter than `above`, with at most `levels` levels. -/
def expression : (levels : Nat) → (above : Precedence) → Parser Expr
  | 0, _ => tooDeep
  | levels + 1, above => do
    let left ← operand (expression levels)
    extensions levels above left

/-- Extends an operand by operators that bind tighter than `above`. -/
def extensions (levels : Nat) (above : Precedence) (left : Expr) : Parser Expr := do
  match (← peek).kind.extension? with
  | none => return left
  | some (precedence, extension) =>
    if precedence ≤ above then return left
    else
      match levels with
      | 0 => tooDeep
      | levels + 1 =>
        let longer ← extend (expression levels) left precedence extension
        extensions levels above longer

end

/-- The number of levels of the deepest expression. -/
def maxLevels : Nat := 1000

/-- One expression. -/
def anExpression : Parser Expr := expression maxLevels .lowest

/-- A whole program. Several statements are a block. -/
def program : Parser Expr := do
  let statements ← items (statement (expression maxLevels)) .semicolon .eof
  let _ ← expect .eof
  match statements with
  | [] => fail .noProgram (← peek).span
  | [e] => return e
  | first :: others => return .block (first.span.through (others.getLastD first).span) statements

end Parser

/-- The program that some tokens spell. No tokens at all spell nothing. -/
def Expr.ofTokens (tokens : List Token) : Except ParseError Expr :=
  match Cursor.ofTokens? tokens with
  | none => .error ⟨.noProgram, .unknown⟩
  | some c =>
    match Parser.program c with
    | .ok e _ => .ok e
    | .error e _ => .error e

end ClosureLang
