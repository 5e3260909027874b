import ClosureLang.Code.Basic

/-!
# Listings

The text of a program: a heading for each routine, its captures, and one line for each instruction, indented below the
one it belongs to. A routine is followed by those that its code makes closures of.
-/

namespace ClosureLang

def listingLine (depth : Nat) (text : String) : String :=
  String.ofList (List.replicate (2 * depth) ' ') ++ text ++ "\n"

def CaptureLoad.listing (c : CaptureLoad) : String :=
  let origin :=
    match c.origin with
    | .frame offset => s!"load {offset}"
    | .itself => "self"
  listingLine 0 s!"capture {Word.text c.slot} <- {origin}"

mutual

/-- The instructions of a piece of code. -/
def Code.listing (globals : Prelude) (depth : Nat) : Code → String
  | .const value => listingLine depth s!"const {value.text}"
  | .load offset => listingLine depth s!"load {offset}"
  | .global index =>
    let name := (globals.name? index).getD "?"
    listingLine depth s!"prelude {name}"
  | .store slot value => listingLine depth s!"store {Word.text slot}" ++ value.listing globals (depth + 1)
  | .block stores result =>
    listingLine depth "block" ++ Code.listingAll globals (depth + 1) stores ++ result.listing globals (depth + 1)
  | .cond test onTrue onFalse line =>
    listingLine depth s!"cond [line {line}]" ++ test.listing globals (depth + 1) ++
      onTrue.listing globals (depth + 1) ++ onFalse.listing globals (depth + 1)
  | .closure routine => listingLine depth s!"closure {routine.label}/{routine.arity}"
  | .call callee args line =>
    listingLine depth s!"call {args.length} [line {line}]" ++ callee.listing globals (depth + 1) ++
      Code.listingAll globals (depth + 1) args

def Code.listingAll (globals : Prelude) (depth : Nat) : List Code → String
  | [] => ""
  | c :: cs => c.listing globals depth ++ Code.listingAll globals depth cs

end

mutual

/-- A routine under a heading, and the routines that it makes closures of. -/
def Routine.listing (globals : Prelude) (label : String) : Routine → String
  | ⟨_, arity, frameSize, captures, body⟩ =>
    listingLine 0 s!"== {label}/{arity} frame={Word.text frameSize} ==" ++
      String.join (captures.map CaptureLoad.listing) ++ body.listing globals 0 ++ body.routineListings globals

/-- The listings of the routines that a piece of code makes closures of. -/
def Code.routineListings (globals : Prelude) : Code → String
  | .const _ | .load _ | .global _ => ""
  | .store _ value => value.routineListings globals
  | .block stores result => Code.routineListingsAll globals stores ++ result.routineListings globals
  | .cond test onTrue onFalse _ =>
    test.routineListings globals ++ onTrue.routineListings globals ++ onFalse.routineListings globals
  | .closure routine => routine.listing globals routine.label
  | .call callee args _ => callee.routineListings globals ++ Code.routineListingsAll globals args

def Code.routineListingsAll (globals : Prelude) : List Code → String
  | [] => ""
  | c :: cs => c.routineListings globals ++ Code.routineListingsAll globals cs

end

/-- The listing of a program. -/
def Program.listing (p : Program) : String := p.main.listing p.globals "<main>"

mutual

/-- The number of routines that a piece of code holds. -/
def Code.routineCount : Code → Nat
  | .const _ | .load _ | .global _ => 0
  | .store _ value => value.routineCount
  | .block stores result => Code.routineCountAll stores + result.routineCount
  | .cond test onTrue onFalse _ => test.routineCount + onTrue.routineCount + onFalse.routineCount
  | .closure ⟨_, _, _, _, body⟩ => body.routineCount + 1
  | .call callee args _ => callee.routineCount + Code.routineCountAll args

def Code.routineCountAll : List Code → Nat
  | [] => 0
  | c :: cs => c.routineCount + Code.routineCountAll cs

end

/-- The number of routines of a program, its main routine included. -/
def Program.routineCount (p : Program) : Nat := p.main.body.routineCount + 1

end ClosureLang
