import ClosureLang.Machine.Basic

/-!
# Running code

A call pushes its arguments from right to left, then the base of the caller's frame, then the frame of the function.
When it is over all of this has been taken back and the result is in the accumulator.

Code runs with a function that runs the bodies of the functions it calls, one level deeper. There is none when the
limit on nested calls is reached.
-/

namespace ClosureLang

namespace Machine

/-- Runs code one level deeper, if calls may nest that deep. -/
abbrev Deeper := Option (Code → Step Unit)

/-! ## Calls -/

/-- A value that can be called. -/
inductive Callee where
  | builtin (b : Builtin)
  | closure (routine : Routine) (captured : List Value)

namespace Callee

def ofValue? : Value → Option Callee
  | .builtin b => some (builtin b)
  | .closure routine captured => some (closure routine captured)
  | _ => none

def arity : Callee → Nat
  | builtin b => b.arity
  | closure routine _ => routine.arity

def name : Callee → String
  | builtin b => b.name
  | closure routine _ => routine.label

end Callee

/-- Stores captured values in their slots. A capture of the closure itself takes no captured value. -/
def fillCaptures (itself : Value) : List CaptureLoad → List Value → Step Unit
  | [], _ => return ()
  | ⟨slot, .itself⟩ :: loads, captured => do
    store slot itself
    fillCaptures itself loads captured
  | ⟨slot, .frame _⟩ :: loads, v :: captured => do
    store slot v
    fillCaptures itself loads captured
  | ⟨_, .frame _⟩ :: _, [] => fault .missingCapture

/-- Runs the body of a routine in a new frame. -/
def enter (run : Code → Step Unit) (routine : Routine) (captured : List Value) : Step Unit := do
  grow routine.frameSize
  fillCaptures (.closure routine captured) routine.captures captured
  run routine.body
  grow (-routine.frameSize)

def runCallee (run : Code → Step Unit) : Callee → Step Unit
  | .builtin b => do setAccumulator (← applyBuiltin b)
  | .closure routine captured => enter run routine captured

/-- Makes the top of the stack the base of a frame. -/
def openFrame (function : String) (argc : Nat) : Step Unit := fun m =>
  let base := m.stack.size
  let depth := m.depth + 1
  .ok () { m with base, depth, calls := m.calls.map (·.push ⟨function, argc, base, depth⟩) }

/-- Goes back to the frame of the caller. -/
def closeFrame (line : Nat) : Step Unit := do
  match ← pop with
  | .base saved => modify fun m => { m with base := saved }
  | found => throw (.of (.lostBase found) line)

/-- Calls a function whose arguments have been pushed. -/
def call (deeper : Deeper) (callee : Callee) (argc line : Nat) : Step Unit := do
  if argc ≠ callee.arity then throw (.of (.wrongArity callee.name callee.arity argc) line)
  match deeper with
  | none => throw (.of (.callsTooDeep (← get).limits.maxCallDepth) line)
  | some run =>
    let saved := (← get).base
    (push (.base saved)).adaptExcept (·.atLine line)
    openFrame callee.name argc
    (runCallee run callee).adaptExcept fun e => (e.atLine line).leaving callee.name line
    closeFrame line
    release argc
    modify fun m => { m with depth := m.depth - 1 }

/-! ## Code -/

mutual

/-- Runs code, which leaves its result in the accumulator. -/
def execWith (deeper : Deeper) : Code → Step Unit
  | .const v => setAccumulator v
  | .load offset => do setAccumulator (← load offset)
  | .global index => do setAccumulator (← loadGlobal index)
  | .store slot value => do
    execWith deeper value
    store slot (← get).accumulator
  | .block stores result => do
    execAll deeper stores
    execWith deeper result
  | .cond test onTrue onFalse line => do
    execWith deeper test
    match (← get).accumulator with
    | .boolean true => execWith deeper onTrue
    | .boolean false => execWith deeper onFalse
    | found => throw (.of (.conditionNotBoolean found) line)
  | .closure routine => do setAccumulator (.closure routine (← loadAll routine.sources))
  | .call callee args line => do
    execWith deeper callee
    let found := (← get).accumulator
    match Callee.ofValue? found with
    | none => throw (.of (.notCallable found) line)
    | some callee =>
      pushArgs deeper line args
      call deeper callee args.length line

/-- Runs several pieces of code in order. -/
def execAll (deeper : Deeper) : List Code → Step Unit
  | [] => return ()
  | c :: cs => do
    execWith deeper c
    execAll deeper cs

/-- Pushes the results of arguments, the last one first. -/
def pushArgs (deeper : Deeper) (line : Nat) : List Code → Step Unit
  | [] => return ()
  | c :: cs => do
    pushArgs deeper line cs
    execWith deeper c
    (push (.value (← get).accumulator)).adaptExcept (·.atLine line)

end

/-- Runs code whose calls nest at most `calls` deep. -/
def execWithin : (calls : Nat) → Code → Step Unit
  | 0 => execWith none
  | calls + 1 => execWith (some (execWithin calls))

/-- Runs code on a machine as it is. -/
def exec (code : Code) : Step Unit := fun m => execWithin (m.limits.maxCallDepth - m.depth) code m

/-- Runs a program from a clean state. Nothing may be left on the stack at its end. -/
def run (p : Program) : Step Value := do
  modify fun m => { m.reset with globals := p.globals }
  grow p.main.frameSize
  exec p.main.body
  grow (-p.main.frameSize)
  let left := (← get).stack.size
  if left ≠ 0 then
    modify reset
    fault (.leftOver left)
  else return (← get).accumulator

end Machine

end ClosureLang
