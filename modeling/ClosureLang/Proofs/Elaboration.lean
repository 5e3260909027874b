import ClosureLang.Proofs.Growth

/-!
# Resolved trees

`Elab t globals frames binding e e'` says that `e'` is the tree `e` with the right places filled in, inside the open
frames `frames` and with the scope table `t` of the whole program. It looks one lambda outwards at a time: a name that
is not found in the frame of its own lambda is a capture of that lambda, and the capture in turn is read in the frame
around it.

Nothing here walks over a tree with a state. The walk that resolves names is related to this judgement elsewhere, and
what is compiled and run is related to it as well.
-/

namespace ClosureLang

namespace Frame

/-- Whether the frame has a parameter or local of this name. -/
def declares (x : String) : Frame → Bool
  | lambda _ params _ => params.contains x
  | block _ locals => locals.any (·.name == x)

/-- The innermost lambda among the frames. -/
def innermost (frames : List Frame) : Nat := (frames.head?.map owner).getD 0

/-- The lambdas among the frames. -/
def lambdaIds : List Frame → List Nat
  | [] => []
  | lambda id _ _ :: outer => id :: lambdaIds outer
  | block _ _ :: outer => lambdaIds outer

/-- The slots of the blocks that are open in the innermost lambda. -/
def blockSlots : List Frame → List Nat
  | block _ locals :: outer => locals.map (·.slot) ++ blockSlots outer
  | _ => []

/-- Records how far a local of the innermost block has come. -/
def mark (x : String) (progress : Progress) : List Frame → List Frame
  | block owner locals :: outer =>
    block owner (locals.map fun l => if l.name == x then { l with progress := progress } else l) :: outer
  | frames => frames

/-- The slot of a local of the innermost block. -/
def slot? (x : String) : List Frame → Option Nat
  | block _ locals :: _ => (locals.find? (·.name == x)).map (·.slot)
  | _ => none

/-- The innermost frame is a block that is about to assign to `x`. -/
def Defining (x : String) : List Frame → Prop
  | block _ locals :: _ => ∃ l, locals.find? (·.name == x) = some l ∧ l.progress = .defining
  | _ => False

end Frame

open ClosureLang.Frame

/-- Whether a name is declared inside the prelude. -/
def Bound (x : String) (frames : List Frame) : Bool := frames.any (declares x)

/-- The place of a global name. -/
def RefersGlobal (globals : List String) (x : String) (v : Var) : Prop :=
  ∃ i, globals.idxOf? x = some i ∧ v = .global i

/-- The capture of a name by a lambda. -/
def RefersCapture (t : ScopeTable) (id : Nat) (x : String) (v : Var) : Prop :=
  ∃ i s c, t[id]? = some s ∧ s.captures[i]? = some c ∧ c.name = x ∧ v = .captured id i

/-- `v` is the place of the name `x`, seen from the innermost of the frames. -/
def Refers (t : ScopeTable) (globals : List String) (x : String) : List Frame → Var → Prop
  | [], v => RefersGlobal globals x v
  | .lambda id params _ :: outer, v =>
    match params.idxOf? x with
    | some i => v = .arg i
    | none => if Bound x outer then RefersCapture t id x v else RefersGlobal globals x v
  | .block _ locals :: outer, v =>
    match locals.find? (·.name == x) with
    | some l => l.progress = .defined ∧ v = .slot l.slot
    | none => Refers t globals x outer v

/-- A capture of a lambda inside the frames `outer`: it takes the closure itself, if that is what the name stands for,
or the place of the name in the frame around the lambda. -/
structure CaptureValid (t : ScopeTable) (globals : List String) (params : List String) (binding : Option String)
    (outer : List Frame) (c : Capture) : Prop where
  notParam : c.name ∉ params
  itself : c.source = .itself → binding = some c.name
  parent : ∀ v, c.source = .parent v → Bound c.name outer ∧ Refers t globals c.name outer v

/-- The scope of a lambda inside the frames `outer`. A lambda knows the name it is assigned to only in the block that
assigns it. -/
structure LambdaValid (t : ScopeTable) (globals : List String) (outer : List Frame) (id : Nat) (params : List String)
    (binding : Option String) (s : Scope) : Prop where
  scope : t[id]? = some s
  params_eq : s.params = params
  parent_eq : s.parent = outer.head?.map Frame.owner
  captures : ∀ c ∈ s.captures, CaptureValid t globals params binding outer c
  defining : ∀ b, binding = some b → Defining b outer
  inside : ∀ i ∈ lambdaIds outer, i < id

/-- The locals of a block have different names, and slots of their own in the frame of the lambda around the block. -/
structure BlockValid (t : ScopeTable) (outer : List Frame) (owner : Nat) (locals : List BlockLocal) : Prop where
  outer_ne : outer ≠ []
  owner_eq : owner = innermost outer
  scope : ∃ s : Scope, t[owner]? = some s ∧ locals.map (·.slot) ⊆ s.locals.map (·.slot)
  names : (locals.map (·.name)).Nodup
  nodup : (locals.map (·.slot)).Nodup
  fresh : ∀ n ∈ locals.map (·.slot), n ∉ blockSlots outer

/-! ## The form of a block -/

namespace Expr

def isAssign : Expr → Bool
  | assign _ _ _ _ => true
  | _ => false

/-- The names that statements assign. -/
def assigned : List Expr → List String
  | [] => []
  | assign _ x _ _ :: statements => x :: assigned statements
  | _ :: statements => assigned statements

theorem assigned_result {e : Expr} (h : e.isAssign = false) : assigned [e] = [] := by
  cases e with
  | assign => cases h
  | number | name | call | lambda | block | cond => rfl

/-- The statements of a block: assignments, and at the end an expression that is none. -/
inductive BlockForm : List Expr → Prop where
  | result {e : Expr} (h : e.isAssign = false) : BlockForm [e]
  | assign {span : Span} {x : String} {value : Expr} {var : Option Var} {statements : List Expr}
      (h : BlockForm statements) : BlockForm (.assign span x value var :: statements)

variable {statements : List Expr}

theorem blockForm_of {last : Expr} (hlast : statements.getLast? = some last) (hl : last.isAssign = false)
    (ha : ∀ e ∈ statements.dropLast, e.isAssign = true) : BlockForm statements := by
  induction statements with
  | nil => cases hlast
  | cons e statements ih =>
    cases statements with
    | nil =>
      obtain rfl : e = last := by simpa using hlast
      exact .result hl
    | cons e' statements =>
      have hrest : BlockForm (e' :: statements) :=
        ih (by simpa using hlast) fun e₁ h₁ => ha e₁ (by simp [List.dropLast, h₁])
      have he := ha e (by simp)
      cases e with
      | assign span x value var => exact .assign hrest
      | number | name | call | lambda | block | cond => cases he

theorem BlockForm.getLast?_eq (h : BlockForm statements) :
    ∃ last, statements.getLast? = some last ∧ last.isAssign = false := by
  induction h with
  | @result e h => exact ⟨e, rfl, h⟩
  | @assign span x value var statements h ih =>
    obtain ⟨last, hlast, hl⟩ := ih
    exact ⟨last, by rw [List.getLast?_cons, hlast]; rfl, hl⟩

theorem BlockForm.dropLast_assigns (h : BlockForm statements) : ∀ e ∈ statements.dropLast, e.isAssign = true := by
  induction h with
  | result h => simp
  | @assign span x value var statements h ih =>
    cases statements with
    | nil => cases h
    | cons e statements => simpa [isAssign] using ih

theorem BlockForm.assigned_dropLast (h : BlockForm statements) :
    assigned statements.dropLast = assigned statements := by
  induction h with
  | result h => rw [assigned_result h]; rfl
  | @assign span x value var statements h ih =>
    cases statements with
    | nil => cases h
    | cons e statements => rw [List.dropLast_cons_cons, assigned, assigned, ih]

end Expr

/-! ## The judgement -/

mutual

/-- `e'` is `e` with its places filled in. `binding` is the name that `e` is assigned to. -/
def Elab (t : ScopeTable) (globals : List String) : List Frame → Option String → Expr → Expr → Prop
  | _, _, .number span x, e' => e' = .number span x
  | frames, _, .name span x _, e' => ∃ v, Refers t globals x frames v ∧ e' = .name span x (some v)
  | frames, _, .call span callee args, e' =>
    ∃ callee' args', Elab t globals frames none callee callee' ∧ ElabAll t globals frames args args' ∧
      e' = .call span callee' args'
  | frames, binding, .lambda span params body _ label, e' =>
    ∃ params' names id s body', Resolver.bindParams 0 [] params = (params', .ok names) ∧
      LambdaValid t globals frames id names binding s ∧ s.name = label.or binding ∧
      Elab t globals (.lambda id names binding :: frames) none body body' ∧
      e' = .lambda span params' body' (some id) (label.or binding)
  | frames, _, .block span statements, e' =>
    ∃ locals statements', BlockValid t frames (innermost frames) locals ∧
      (∀ l ∈ locals, l.progress = .pending) ∧ locals.map (·.name) = Expr.assigned statements ∧
      ElabStatements t globals (.block (innermost frames) locals :: frames) statements statements' ∧
      e' = .block span statements'
  | _, _, .assign _ _ _ _, _ => False
  | frames, _, .cond span test onTrue onFalse, e' =>
    ∃ test' onTrue' onFalse', Elab t globals frames none test test' ∧ Elab t globals frames none onTrue onTrue' ∧
      Elab t globals frames none onFalse onFalse' ∧ e' = .cond span test' onTrue' onFalse'

def ElabAll (t : ScopeTable) (globals : List String) : List Frame → List Expr → List Expr → Prop
  | _, [], es' => es' = []
  | frames, e :: es, es' =>
    ∃ e' rest', Elab t globals frames none e e' ∧ ElabAll t globals frames es rest' ∧ es' = e' :: rest'

/-- The statements of an open block: assignments in order, then the result. -/
def ElabStatements (t : ScopeTable) (globals : List String) : List Frame → List Expr → List Expr → Prop
  | _, [], _ => False
  | frames, [result], es' => ∃ result', Elab t globals frames none result result' ∧ es' = [result']
  | frames, .assign span x value _ :: statements, es' =>
    ∃ s value' statements', slot? x frames = some s ∧
      Elab t globals (mark x .defining frames) (some x) value value' ∧
      ElabStatements t globals (mark x .defined frames) statements statements' ∧
      es' = .assign span x value' (some (.slot s)) :: statements'
  | _, _ :: _, _ => False

end

section Statements

variable {t : ScopeTable} {globals : List String} {frames : List Frame} {binding : Option String} {e e' : Expr}
  {es es' : List Expr}

/-- A resolved tree has the form of the tree it was made from. -/
theorem Elab.isAssign (h : Elab t globals frames binding e e') : e.isAssign = false ∧ e'.isAssign = false := by
  cases e with
  | number =>
    obtain rfl := h
    exact ⟨rfl, rfl⟩
  | name =>
    obtain ⟨v, -, rfl⟩ := h
    exact ⟨rfl, rfl⟩
  | call =>
    obtain ⟨_, _, -, -, rfl⟩ := h
    exact ⟨rfl, rfl⟩
  | lambda =>
    obtain ⟨_, _, _, _, _, -, -, -, -, rfl⟩ := h
    exact ⟨rfl, rfl⟩
  | block =>
    obtain ⟨_, _, -, -, -, -, rfl⟩ := h
    exact ⟨rfl, rfl⟩
  | assign => cases h
  | cond =>
    obtain ⟨_, _, _, -, -, -, rfl⟩ := h
    exact ⟨rfl, rfl⟩

theorem elabStatements_result : ElabStatements t globals frames [e] es' ↔
    ∃ e', Elab t globals frames none e e' ∧ es' = [e'] := by
  rw [ElabStatements]

theorem elabStatements_assign {span : Span} {x : String} {value : Expr} {var : Option Var} (h : Expr.BlockForm es) :
    ElabStatements t globals frames (.assign span x value var :: es) es' ↔
      ∃ s value' rest', slot? x frames = some s ∧ Elab t globals (mark x .defining frames) (some x) value value' ∧
        ElabStatements t globals (mark x .defined frames) es rest' ∧
        es' = .assign span x value' (some (.slot s)) :: rest' := by
  cases h <;> rfl

theorem ElabStatements.blockForm (h : ElabStatements t globals frames es es') : Expr.BlockForm es := by
  induction es generalizing frames es' with
  | nil => cases h
  | cons e es ih =>
    cases es with
    | nil =>
      obtain ⟨e', he, -⟩ := elabStatements_result.1 h
      exact .result he.isAssign.1
    | cons e₁ es =>
      cases e with
      | assign span x value var =>
        obtain ⟨s, value', rest', -, -, hrest, -⟩ := h
        exact .assign (ih hrest)
      | number | name | call | lambda | block | cond => cases h

theorem ElabStatements.ne_nil (h : ElabStatements t globals frames es es') : es' ≠ [] := by
  cases h.blockForm with
  | result =>
    obtain ⟨e', -, rfl⟩ := elabStatements_result.1 h
    simp
  | assign hform =>
    obtain ⟨s, value', rest', -, -, -, rfl⟩ := (elabStatements_assign hform).1 h
    simp

end Statements

/-! ## Names and frames -/

section Names

variable {t t' : ScopeTable} {globals : List String} {x : String} {frames : List Frame} {v : Var} {ids : List Nat}

@[simp] theorem bound_cons {frame : Frame} : Bound x (frame :: frames) = (frame.declares x || Bound x frames) :=
  List.any_cons

theorem RefersCapture.grow {id : Nat} (hg : t.Grows ids t') (h : RefersCapture t id x v) : RefersCapture t' id x v := by
  obtain ⟨i, s, c, hs, hc, hx, hv⟩ := h
  obtain ⟨s', hs', hext, -⟩ := hg.scope hs
  exact ⟨i, s', c, hs', hext.capture hc, hx, hv⟩

/-- A place stays good when the table grows. -/
theorem Refers.grow (hg : t.Grows ids t') : ∀ {frames : List Frame}, Refers t globals x frames v →
    Refers t' globals x frames v
  | [], h => h
  | .lambda id params _ :: outer, h => by
    rw [Refers] at h ⊢
    cases hi : params.idxOf? x with
    | some i => rwa [hi] at h
    | none =>
      rw [hi] at h
      dsimp only at h ⊢
      split
      · next hb => exact RefersCapture.grow hg (by rwa [if_pos hb] at h)
      · next hb => rwa [if_neg hb] at h
  | .block _ locals :: outer, h => by
    rw [Refers] at h ⊢
    cases hl : locals.find? (·.name == x) with
    | some l => rwa [hl] at h
    | none =>
      rw [hl] at h
      exact h.grow hg

theorem CaptureValid.grow {params : List String} {binding : Option String} {c : Capture} (hg : t.Grows ids t')
    (h : CaptureValid t globals params binding frames c) : CaptureValid t' globals params binding frames c :=
  ⟨h.notParam, h.itself, fun v hv => ⟨(h.parent v hv).1, (h.parent v hv).2.grow hg⟩⟩

theorem BlockValid.grow {owner : Nat} {locals : List BlockLocal} (hg : t.Grows ids t')
    (h : BlockValid t frames owner locals) : BlockValid t' frames owner locals where
  outer_ne := h.outer_ne
  owner_eq := h.owner_eq
  scope := by
    obtain ⟨s, hs, hl⟩ := h.scope
    obtain ⟨s', hs', hext, -⟩ := hg.scope hs
    exact ⟨s', hs', fun n hn => (hext.locals.map _).subset (hl hn)⟩
  names := h.names
  nodup := h.nodup
  fresh := h.fresh

/-- A lambda stays valid when the table grows and its own captures stay as they are. -/
theorem LambdaValid.grow {id : Nat} {params : List String} {binding : Option String} {s s' : Scope}
    (hg : t.Grows ids t') (hs' : t'[id]? = some s') (hc : s'.captures = s.captures)
    (h : LambdaValid t globals frames id params binding s) : LambdaValid t' globals frames id params binding s' := by
  obtain ⟨s'', hs'', hext, -⟩ := hg.scope h.scope
  obtain rfl : s' = s'' := Option.some.inj (hs'.symm.trans hs'')
  refine ⟨hs', hext.params.trans h.params_eq, hext.parent.trans h.parent_eq, fun c hmem => ?_, h.defining, h.inside⟩
  exact (h.captures c (hc ▸ hmem)).grow hg

/-- A declared name does not stand for a global one. -/
theorem Refers.not_global {i : Nat} : ∀ {frames : List Frame}, Bound x frames = true →
    ¬ Refers t globals x frames (.global i)
  | [], hb => by cases hb
  | .lambda id params binding :: outer, hb => by
    intro h
    rw [Refers] at h
    cases hi : params.idxOf? x with
    | some j => rw [hi] at h; cases h
    | none =>
      have hx : x ∉ params := List.idxOf?_eq_none_iff.1 hi
      have hbo : Bound x outer = true := by simpa [declares, hx] using hb
      rw [hi] at h
      obtain ⟨_, _, _, _, _, _, hv⟩ : RefersCapture t id x (.global i) := by simpa [hbo] using h
      cases hv
  | .block owner locals :: outer, hb => by
    intro h
    rw [Refers] at h
    cases hl : locals.find? (·.name == x) with
    | some l => rw [hl] at h; cases h.2
    | none =>
      rw [hl] at h
      have hx : locals.any (·.name == x) = false := by
        rw [List.any_eq_false]
        exact List.find?_eq_none.1 hl
      have hbo : Bound x outer = true := by simpa [declares, hx] using hb
      exact not_global hbo h

/-- A name that no frame declares stands for a global one. -/
theorem refers_iff_global : ∀ {frames : List Frame}, Bound x frames = false →
    (Refers t globals x frames v ↔ RefersGlobal globals x v)
  | [], _ => Iff.rfl
  | .lambda id params binding :: outer, hb => by
    obtain ⟨hx, hbo⟩ : x ∉ params ∧ Bound x outer = false := by simpa [declares] using hb
    rw [Refers, List.idxOf?_eq_none_iff.2 hx]
    simp [hbo]
  | .block owner locals :: outer, hb => by
    obtain ⟨hx, hbo⟩ : (∀ l ∈ locals, ¬ l.name = x) ∧ Bound x outer = false := by simpa [declares] using hb
    have hl : locals.find? (·.name == x) = none := List.find?_eq_none.2 (by simpa using hx)
    rw [Refers, hl]
    exact refers_iff_global hbo

end Names

end ClosureLang
