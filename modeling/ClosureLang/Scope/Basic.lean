import ClosureLang.Expr.Basic

/-!
# Scopes

Each lambda has a scope: its parameters, the locals of its blocks, and the names that it captures. Locals and captures
share the slots of the lambda's frame. A capture copies a place of the enclosing lambda, so a name from further out
passes through the scopes in between.
-/

namespace ClosureLang

/-- Where a captured value comes from: a place of the enclosing frame, or the closure that is called. -/
inductive CaptureSource where
  | parent (var : Var)
  | itself
deriving DecidableEq, Repr, Inhabited

structure Capture where
  name : String
  source : CaptureSource
  slot : Nat
deriving DecidableEq, Repr, Inhabited

structure Local where
  name : String
  slot : Nat
deriving DecidableEq, Repr, Inhabited

/-- The scope of a lambda, or of the program as a whole, which has no parent. -/
structure Scope where
  name : Option String
  parent : Option Nat
  params : List String
  locals : List Local
  captures : List Capture
deriving DecidableEq, Repr, Inhabited

namespace Scope

def ofLambda (name : Option String) (parent : Option Nat) (params : List String) : Scope :=
  ⟨name, parent, params, [], []⟩

def arity (s : Scope) : Nat := s.params.length

/-- The number of slots for locals and captures. -/
def frameSize (s : Scope) : Nat := s.locals.length + s.captures.length

def slotCount (s : Scope) : Nat := s.arity + s.frameSize

/-- A new local takes the next free slot. -/
def addLocal (s : Scope) (name : String) : Scope :=
  { s with locals := s.locals ++ [⟨name, s.frameSize⟩] }

/-- A new capture takes the next free slot. -/
def addCapture (s : Scope) (name : String) (source : CaptureSource) : Scope :=
  { s with captures := s.captures ++ [⟨name, source, s.frameSize⟩] }

end Scope

/-- The scopes of a program. A scope's place in the table names its frame. -/
abbrev ScopeTable := Array Scope

namespace ScopeTable

/-- Follows captures outwards for at most `hops` steps. A capture of the closure itself is its own origin. -/
def originWithin (t : ScopeTable) : (hops : Nat) → Var → Option Var
  | 0, _ => none
  | hops + 1, .captured frame index => do
    let scope ← t[frame]?
    let capture ← scope.captures[index]?
    match capture.source with
    | .parent var => t.originWithin hops var
    | .itself => some (.captured frame index)
  | _ + 1, var => some var

/-- The place that a chain of captures starts from, if the chain ends in the table. -/
def origin? (t : ScopeTable) (var : Var) : Option Var := t.originWithin (t.size + 1) var

/-! ## Text -/

def sourceText : CaptureSource → String
  | .parent var => var.text
  | .itself => "self"

def rows (s : Scope) : List (Nat × String) :=
  s.locals.map (fun l => (l.slot, s!"local {l.name}")) ++
    s.captures.map (fun c => (c.slot, s!"capture {c.name} <- {sourceText c.source}"))

/-- A scope and its slots in order. -/
def scopeText (id : Nat) (s : Scope) : String :=
  let name := s.name.getD (if id = 0 then "<main>" else "<lambda>")
  let params := String.intercalate ", " s.params
  let rows := (rows s).mergeSort (fun a b => a.1 ≤ b.1)
  s!"frame {id} {name}({params}) slots={s.frameSize}\n" ++
    String.join (rows.map fun (slot, row) => s!"  [{slot}] {row}\n")

/-- The table as text. -/
def text (t : ScopeTable) : String :=
  String.join (t.toList.zipIdx.map fun (scope, id) => scopeText id scope)

end ScopeTable

end ClosureLang
