import ClosureLang.Number.Text
import ClosureLang.Number.Word
import ClosureLang.Source.Span

/-!
# Expression trees

Operators are calls of named functions, so a tree has seven kinds of node. The optional parts of a node say where its
name lives and which frame it makes; they are missing until names have been resolved.
-/

namespace ClosureLang

/-- Where a name lives, seen from the frame that uses it: an argument, a slot of the frame itself, a captured value of
the frame, or an entry of the prelude. Resolved names have no index below zero, but a tree made by hand can. -/
inductive Var where
  | arg (index : Int)
  | slot (index : Int)
  | captured (frame index : Nat)
  | global (index : Nat)
deriving DecidableEq, Repr, Inhabited

namespace Var

/-- The offset of an argument from the base of its frame. The base of the caller's frame is saved just below the base,
and the arguments lie below it. -/
def argOffset (index : Int) : Int := -index - 2

/-- The argument with the index that a word stands for, chosen so that its offset is that of a word too. -/
def argOfWord (word : Int) : Var := arg (-Word.toIndex (argOffset word) - 2)

def slotOfWord (word : Int) : Var := slot (Word.toIndex word)

/-- The short text of a place. -/
def text : Var → String
  | arg i => s!"arg{Word.text i}"
  | slot i => s!"local{Word.text i}"
  | captured frame i => s!"cap{frame}:{i}"
  | global i => s!"prelude{i}"

end Var

/-- An expression with its place in the source. Parameters are expressions, so that one that is no name can be
reported where it stands. -/
inductive Expr where
  | number (span : Span) (value : Float)
  | name (span : Span) (name : String) (var : Option Var)
  | call (span : Span) (callee : Expr) (args : List Expr)
  | lambda (span : Span) (params : List Expr) (body : Expr) (frame : Option Nat) (label : Option String)
  | block (span : Span) (statements : List Expr)
  | assign (span : Span) (name : String) (value : Expr) (var : Option Var)
  | cond (span : Span) (test onTrue onFalse : Expr)
deriving Inhabited

namespace Expr

def span : Expr → Span
  | number s _ | name s _ _ | call s _ _ | lambda s _ _ _ _ | block s _ | assign s _ _ _ | cond s _ _ _ => s

/-- The name that an expression is, if it is one. -/
def asName? : Expr → Option String
  | name _ x _ => some x
  | _ => none

/-- Labels a lambda with the name that it is assigned to. -/
def labelled (e : Expr) (label : String) : Expr :=
  match e with
  | lambda span params body frame _ => lambda span params body frame (some label)
  | e => e

end Expr

end ClosureLang
