import ClosureLang.Machine.Arithmetic

/-!
# The machine

A stack of cells, the base of the current frame, and an accumulator for the last result. Operations that fail keep what
they did before they failed.
-/

namespace ClosureLang

/-- Bounds that turn a runaway program into an error. -/
structure Limits where
  maxCallDepth : Nat
  maxStack : Nat
deriving DecidableEq, Repr, Inhabited

def Limits.standard : Limits := ⟨256, 65536⟩

/-- A call as it starts. -/
structure CallEvent where
  function : String
  argc : Nat
  base : Nat
  depth : Nat
deriving DecidableEq, Repr

/-- The state of a machine. Calls are recorded only on a machine that has a record for them. -/
structure Machine where
  stack : Array Cell
  base : Nat
  accumulator : Value
  depth : Nat
  limits : Limits
  globals : Prelude
  calls : Option (Array CallEvent)

/-- A step of a machine. -/
abbrev Step := EStateM RuntimeError Machine

namespace Machine

def new (limits : Limits) : Machine := ⟨#[], 0, .number 0, 0, limits, .empty, none⟩

/-- A machine that records its calls. -/
def recording (m : Machine) : Machine := { m with calls := some #[] }

def reset (m : Machine) : Machine := { m with stack := #[], base := 0, accumulator := .number 0, depth := 0 }

def fault {α : Type} (problem : RuntimeProblem) : Step α := fun m => .error (.of problem 0) m

def setAccumulator (v : Value) : Step Unit := fun m => .ok () { m with accumulator := v }

/-! ## The stack -/

def push (cell : Cell) : Step Unit := fun m =>
  if m.stack.size < m.limits.maxStack then .ok () { m with stack := m.stack.push cell }
  else .error (.of .stackFull 0) m

def pop : Step Cell := fun m =>
  match m.stack.back? with
  | some cell => .ok cell { m with stack := m.stack.pop }
  | none => .error (.of .underflow 0) m

def pushUnset : Nat → Array Cell → Array Cell
  | 0, stack => stack
  | n + 1, stack => pushUnset n (stack.push .unset)

/-- Reserves cells. If there is not enough room, what room there is gets used up. -/
def reserve (n : Nat) : Step Unit := fun m =>
  let room := m.limits.maxStack - m.stack.size
  if n ≤ room then .ok () { m with stack := pushUnset n m.stack }
  else .error (.of .stackFull 0) { m with stack := pushUnset room m.stack }

/-- Gives cells back. -/
def release (n : Nat) : Step Unit := fun m =>
  if n ≤ m.stack.size then .ok () { m with stack := m.stack.shrink (m.stack.size - n) }
  else .error (.of .underflow 0) m

/-- Reserves or, below zero, gives back. -/
def grow (delta : Int) : Step Unit :=
  if 0 ≤ delta then reserve delta.toNat else release (-delta).toNat

/-! ## Frames -/

/-- The cell at an offset from the base of the frame. -/
def index? (m : Machine) (offset : Int) : Option Nat :=
  let i := (m.base : Int) + offset
  if 0 ≤ i ∧ i < m.stack.size then some i.toNat else none

def outOfBounds (m : Machine) (offset : Int) : RuntimeError := .of (.outOfBounds offset m.base m.stack.size) 0

def load (offset : Int) : Step Value := fun m =>
  match m.index? offset with
  | none => .error (m.outOfBounds offset) m
  | some i =>
    match m.stack.getD i .unset with
    | .value v => .ok v m
    | .unset => .error (.of (.readOfUnset offset) 0) m
    | .base _ => .error (.of (.readOfBase offset) 0) m

def store (offset : Int) (v : Value) : Step Unit := fun m =>
  match m.index? offset with
  | none => .error (m.outOfBounds offset) m
  | some i => .ok () { m with stack := m.stack.setIfInBounds i (.value v) }

def loadGlobal (index : Nat) : Step Value := fun m =>
  match m.globals.value? index with
  | some v => .ok v m
  | none => .error (.of (.unknownGlobal index) 0) m

/-- Loads the values at some offsets, in order. -/
def loadAll : List Int → Step (List Value)
  | [] => return []
  | offset :: offsets => do
    let v ← load offset
    let vs ← loadAll offsets
    return v :: vs

/-- Runs a builtin on the arguments below the base of the frame. -/
def applyBuiltin (b : Builtin) : Step Value := do
  let v ← load (-2)
  let result ←
    if b.arity = 1 then pure (b.apply₁ v)
    else
      let w ← load (-3)
      pure (b.apply₂ v w)
  match result with
  | .ok v => return v
  | .error problem => fault problem

end Machine

end ClosureLang
