import ClosureLang.Builtin
import ClosureLang.Number.Text
import ClosureLang.Number.Word

/-!
# Code and values

Code is a tree of instructions. Each one leaves its result in the accumulator of the machine. Names have become offsets
from the base of a frame: arguments lie below it, locals and captures at and above it. A closure is a routine with the
values that it captured, so code and values are defined together.
-/

namespace ClosureLang

/-- Where a routine's captured value comes from: an offset in the frame that makes the closure, or the closure
itself. -/
inductive CaptureOrigin where
  | frame (offset : Int)
  | itself
deriving DecidableEq, Repr, Inhabited

/-- Fills a slot with a captured value whenever the routine is entered. -/
structure CaptureLoad where
  slot : Int
  origin : CaptureOrigin
deriving DecidableEq, Repr, Inhabited

mutual

/-- An instruction with its operands. Lines are kept where an error can arise. -/
inductive Code where
  | const (value : Value)
  | load (offset : Int)
  | global (index : Nat)
  | store (slot : Int) (value : Code)
  | block (stores : List Code) (result : Code)
  | cond (test onTrue onFalse : Code) (line : Nat)
  | closure (routine : Routine)
  | call (callee : Code) (args : List Code) (line : Nat)

/-- The code of a lambda and the layout of its frame. A frame size below zero takes cells away. -/
structure Routine where
  name : Option String
  arity : Nat
  frameSize : Int
  captures : List CaptureLoad
  body : Code

/-- What programs compute with. -/
inductive Value where
  | number (x : Float)
  | boolean (b : Bool)
  | builtin (b : Builtin)
  | closure (routine : Routine) (captured : List Value)

end

instance : Inhabited Value := ⟨.number 0⟩

instance : Inhabited Code := ⟨.const default⟩

namespace Routine

/-- A routine that has no name is called by what it is. -/
def label (r : Routine) : String := r.name.getD "<lambda>"

/-- The offsets that a new closure reads in the frame that makes it. -/
def sources (r : Routine) : List Int :=
  r.captures.filterMap fun c =>
    match c.origin with
    | .frame offset => some offset
    | .itself => none

end Routine

namespace Value

/-- The word for the kind of a value. Builtins are closures too. -/
def kind : Value → String
  | number _ => "number"
  | boolean _ => "boolean"
  | builtin _ | closure _ _ => "closure"

def text : Value → String
  | number x => Number.text x
  | boolean b => if b then "true" else "false"
  | builtin b => s!"<builtin {b.name}/{b.arity}>"
  | closure routine _ => s!"<closure {routine.label}/{routine.arity}>"

end Value

/-- Names with fixed values, known to every program. -/
structure Prelude where
  entries : List (String × Value)

namespace Prelude

def empty : Prelude := ⟨[]⟩

/-- The builtins and the two truth values. -/
def standard : Prelude :=
  ⟨Builtin.all.map (fun b => (b.name, .builtin b)) ++ [("true", .boolean true), ("false", .boolean false)]⟩

def names (p : Prelude) : List String := p.entries.map (·.1)

def size (p : Prelude) : Nat := p.entries.length

def value? (p : Prelude) (index : Nat) : Option Value := p.entries[index]?.map (·.2)

def name? (p : Prelude) (index : Nat) : Option String := p.entries[index]?.map (·.1)

end Prelude

/-- A main routine and the prelude that its code refers to. -/
structure Program where
  main : Routine
  globals : Prelude

end ClosureLang
