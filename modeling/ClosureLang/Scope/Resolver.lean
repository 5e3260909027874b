import ClosureLang.Expr.Printer
import ClosureLang.Scope.Basic

/-!
# Resolving names

A walk over a program finds the place of every name. Lambdas open frames with slots of their own, blocks open frames
whose locals take slots of the lambda around them. All names that a block assigns are known before any of its values is
looked at, but a value may only use names assigned before it, and its own name if it is a lambda.

A walk that fails leaves its frames open, and the tree carries what was found before.
-/

namespace ClosureLang

/-! ## Errors -/

inductive ResolveProblem where
  | undefined (name : String)
  | usedBeforeAssignment (name : String)
  | assignmentOutsideBlock (name : String)
  | duplicateParameter (name : String)
  | parameterNotName (found : Expr)
  | blockWithoutResult
  | assignedTwice (name : String)
  | strayExpression

def ResolveProblem.message : ResolveProblem → String
  | undefined x => s!"undefined: {x}"
  | usedBeforeAssignment x => s!"`{x}` used before assignment"
  | assignmentOutsideBlock x => s!"assignment to `{x}` outside a block"
  | duplicateParameter x => s!"duplicate parameter `{x}`"
  | parameterNotName found => s!"lambda parameter must be an identifier, found `{found.text}`"
  | blockWithoutResult => "block must end with an expression"
  | assignedTwice x => s!"`{x}` is assigned twice in the same block"
  | strayExpression => "only the last statement of a block may be an expression"

structure ResolveError where
  problem : ResolveProblem
  span : Span

/-! ## Frames -/

/-- How far the assignment of a block's local has come. -/
inductive Progress where
  | pending
  | defining
  | defined
deriving DecidableEq, Repr

structure BlockLocal where
  name : String
  slot : Nat
  progress : Progress
deriving DecidableEq, Repr

/-- A place where names can be found. A lambda that is assigned to a name knows that name. -/
inductive Frame where
  | lambda (id : Nat) (params : List String) (binding : Option String)
  | block (owner : Nat) (locals : List BlockLocal)
deriving DecidableEq, Repr

/-- The lambda in whose frame names of this place have slots. -/
def Frame.owner : Frame → Nat
  | lambda id _ _ => id
  | block owner _ => owner

/-- Whether this is the lambda that is assigned to `x`. -/
def Frame.binds (x : String) : Frame → Bool
  | lambda _ _ binding => binding == some x
  | block _ _ => false

/-- A new entry of a capture list. -/
structure CaptureEvent where
  name : String
  frame : Nat
  slot : Nat
  source : CaptureSource
deriving DecidableEq, Repr

/-- The open frames, innermost first, inside the names of the prelude; and the scopes made so far. -/
structure Resolver where
  globals : List String
  frames : List Frame
  scopes : ScopeTable
  events : Array CaptureEvent

namespace Resolver

def new (globals : List String) : Resolver := ⟨globals, [], #[], #[]⟩

/-- The lambda that the walk is in. -/
def current (r : Resolver) : Nat := (r.frames.head?.map Frame.owner).getD 0

def addScope (r : Resolver) (scope : Scope) : Resolver := { r with scopes := r.scopes.push scope }

def openFrame (r : Resolver) (frame : Frame) : Resolver := { r with frames := frame :: r.frames }

def closeFrame (r : Resolver) : Resolver := { r with frames := r.frames.tail }

/-! ## Names -/

/-- Where a search ended, and the lambdas it passed on its way out, outermost first. A name that is found while its own
lambda is defined stands for the closure itself. -/
structure Found where
  var : Var
  isItself : Bool
  crossed : List Nat

/-- Searches frames outwards. `inner` is the frame that was searched before. -/
def search (globals : List String) (x : String) (inner : Option Frame) (crossed : List Nat) :
    List Frame → Except ResolveProblem Found
  | [] =>
    match globals.idxOf? x with
    | some i => .ok ⟨.global i, false, []⟩
    | none => .error (.undefined x)
  | .lambda id params binding :: outer =>
    match params.idxOf? x with
    | some i => .ok ⟨.arg i, false, crossed⟩
    | none => search globals x (some (.lambda id params binding)) (id :: crossed) outer
  | .block owner locals :: outer =>
    match locals.find? (·.name == x) with
    | none => search globals x (some (.block owner locals)) crossed outer
    | some found =>
      match found.progress with
      | .defined => .ok ⟨.slot found.slot, false, crossed⟩
      | .defining =>
        if inner.any (·.binds x) then .ok ⟨.slot found.slot, true, crossed⟩
        else .error (.usedBeforeAssignment x)
      | .pending => .error (.usedBeforeAssignment x)

/-- The capture of a name by a lambda, which is made once. -/
def capture (r : Resolver) (x : String) (source : CaptureSource) (frame : Nat) : Var × Resolver :=
  let scope := r.scopes.getD frame default
  match scope.captures.findIdx? (·.name == x) with
  | some i => (.captured frame i, r)
  | none =>
    (.captured frame scope.captures.length,
      { r with
        scopes := r.scopes.modify frame (·.addCapture x source)
        events := r.events.push ⟨x, frame, scope.frameSize, source⟩ })

/-- Passes a name inwards through lambdas, each of which captures it from the one around it. -/
def captureThrough (r : Resolver) (x : String) (var : Var) (source : CaptureSource) : List Nat → Var × Resolver
  | [] => (var, r)
  | frame :: inner =>
    let (var, r) := r.capture x source frame
    r.captureThrough x var (.parent var) inner

/-- The place of a name, seen from the innermost frame. -/
def lookup (r : Resolver) (x : String) : Except ResolveProblem (Var × Resolver) :=
  match search r.globals x none [] r.frames with
  | .error problem => .error problem
  | .ok found =>
    .ok (r.captureThrough x found.var (if found.isItself then .itself else .parent found.var) found.crossed)

/-! ## Lambdas and blocks -/

/-- Numbers parameters from `index` on. Those before a bad one stay numbered. -/
def bindParams (index : Nat) (seen : List String) : List Expr → List Expr × Except ResolveError (List String)
  | [] => ([], .ok seen)
  | .name span x var :: params =>
    if x ∈ seen then (.name span x var :: params, .error ⟨.duplicateParameter x, span⟩)
    else
      let (params, names) := bindParams (index + 1) (seen ++ [x]) params
      (.name span x (some (.arg index)) :: params, names)
  | param :: params => (param :: params, .error ⟨.parameterNotName param, param.span⟩)

/-- Makes the scope of a lambda and opens its frame. -/
def openLambda (r : Resolver) (label binding : Option String) (params : List String) : Resolver :=
  (r.addScope (.ofLambda label (some r.current) params)).openFrame (.lambda r.scopes.size params binding)

/-- Gives slots to the names that the statements of a block assign. -/
def declare (r : Resolver) (declared : List BlockLocal) : List Expr → Resolver × Except ResolveError (List BlockLocal)
  | [] => (r, .ok declared)
  | .assign span x _ _ :: statements =>
    if declared.any (·.name == x) then (r, .error ⟨.assignedTwice x, span⟩)
    else
      let slot := (r.scopes.getD r.current default).frameSize
      let r' := { r with scopes := r.scopes.modify r.current (·.addLocal x) }
      r'.declare (declared ++ [⟨x, slot, .pending⟩]) statements
  | statement :: _ => (r, .error ⟨.strayExpression, statement.span⟩)

/-- Checks the form of a block, makes its locals and opens its frame. -/
def openBlock (r : Resolver) (span : Span) (statements : List Expr) : Resolver × Option ResolveError :=
  match statements.getLast? with
  | none => (r, some ⟨.blockWithoutResult, span⟩)
  | some (.assign last _ _ _) => (r, some ⟨.blockWithoutResult, last⟩)
  | some _ =>
    match r.declare [] statements.dropLast with
    | (r, .error e) => (r, some e)
    | (r, .ok locals) => (r.openFrame (.block r.current locals), none)

/-- Records how far a local of the innermost block has come. -/
def mark (r : Resolver) (x : String) (progress : Progress) : Resolver :=
  match r.frames with
  | .block owner locals :: outer =>
    let locals := locals.map fun l => if l.name == x then { l with progress := progress } else l
    { r with frames := .block owner locals :: outer }
  | _ => r

/-- The slot of a local of the innermost block. -/
def slot? (r : Resolver) (x : String) : Option Nat :=
  match r.frames with
  | .block _ locals :: _ => (locals.find? (·.name == x)).map (·.slot)
  | _ => none

end Resolver

/-! ## The walk -/

/-- What a walk leaves behind: the tree, in full or as far as it went. -/
inductive Resolution (α : Type) where
  | done (tree : α) (state : Resolver)
  | failed (tree : α) (error : ResolveError) (state : Resolver)

namespace Resolution

variable {α β : Type}

def map (f : α → β) : Resolution α → Resolution β
  | done tree state => done (f tree) state
  | failed tree error state => failed (f tree) error state

/-- Goes on after success; a failure keeps the rest of the tree as it is. -/
def andThen (step : Resolution α) (rest : α → β) (next : α → Resolver → Resolution β) : Resolution β :=
  match step with
  | done tree state => next tree state
  | failed tree error state => failed (rest tree) error state

end Resolution

namespace Expr

mutual

/-- Resolves an expression. `binding` is the name that it is assigned to. -/
def resolve (binding : Option String) : Expr → Resolver → Resolution Expr
  | number span value, r => .done (number span value) r
  | name span x var, r =>
    match r.lookup x with
    | .ok (found, r) => .done (name span x (some found)) r
    | .error problem => .failed (name span x var) ⟨problem, span⟩ r
  | call span callee args, r =>
    (callee.resolve none r).andThen (call span · args) fun callee r =>
      (resolveAll args r).map (call span callee)
  | lambda span params body frame label, r =>
    match Resolver.bindParams 0 [] params with
    | (params, .error e) => .failed (lambda span params body frame label) e r
    | (params, .ok names) =>
      let label := label.or binding
      (body.resolve none (r.openLambda label binding names)).andThen (lambda span params · frame label)
        fun body inner => .done (lambda span params body (some r.scopes.size) label) inner.closeFrame
  | block span statements, r =>
    match r.openBlock span statements with
    | (r, some e) => .failed (block span statements) e r
    | (r, none) =>
      (resolveStatements statements r).andThen (block span) fun statements r =>
        .done (block span statements) r.closeFrame
  | assign span x value var, r =>
    .failed (assign span x value var) ⟨.assignmentOutsideBlock x, span⟩ r
  | cond span test onTrue onFalse, r =>
    (test.resolve none r).andThen (cond span · onTrue onFalse) fun test r =>
      (onTrue.resolve none r).andThen (cond span test · onFalse) fun onTrue r =>
        (onFalse.resolve none r).map (cond span test onTrue)

/-- Resolves expressions from left to right. -/
def resolveAll : List Expr → Resolver → Resolution (List Expr)
  | [], r => .done [] r
  | e :: es, r =>
    (e.resolve none r).andThen (· :: es) fun e r => (resolveAll es r).map (e :: ·)

/-- Resolves the statements of an open block: assignments in order, then the result. -/
def resolveStatements : List Expr → Resolver → Resolution (List Expr)
  | [], r => .done [] r
  | assign span x value _ :: statements, r =>
    let var := (r.slot? x).map Var.slot
    (value.resolve (some x) (r.mark x .defining)).andThen (assign span x · var :: statements) fun value r =>
      (resolveStatements statements (r.mark x .defined)).map (assign span x value var :: ·)
  | e :: statements, r =>
    (e.resolve none r).andThen (· :: statements) fun e r => (resolveStatements statements r).map (e :: ·)

end

end Expr

/-- Resolves a program in a new main scope. -/
def Resolver.program (r : Resolver) (e : Expr) : Resolution Expr :=
  let main := (r.addScope (.ofLambda none none [])).openFrame (.lambda r.scopes.size [] none)
  (e.resolve none main).andThen id fun e r => .done e r.closeFrame

end ClosureLang
