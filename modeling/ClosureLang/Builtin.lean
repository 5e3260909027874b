/-!
# Builtin functions

The names and arities of the functions that programs start with.
-/

namespace ClosureLang

inductive Builtin where
  | add
  | sub
  | mul
  | div
  | mod
  | eq
  | neq
  | lt
  | le
  | gt
  | ge
  | and
  | or
  | neg
  | not
deriving DecidableEq, Repr, Inhabited

namespace Builtin

/-- All builtins, in the order of the prelude. -/
def all : List Builtin := [add, sub, mul, div, mod, eq, neq, lt, le, gt, ge, and, or, neg, not]

def name : Builtin → String
  | add => "add"
  | sub => "sub"
  | mul => "mul"
  | div => "div"
  | mod => "mod"
  | eq => "eq"
  | neq => "neq"
  | lt => "lt"
  | le => "le"
  | gt => "gt"
  | ge => "ge"
  | and => "and"
  | or => "or"
  | neg => "neg"
  | not => "not"

def arity : Builtin → Nat
  | neg | not => 1
  | _ => 2

def ofName? (x : String) : Option Builtin := all.find? (·.name == x)

end Builtin

end ClosureLang
