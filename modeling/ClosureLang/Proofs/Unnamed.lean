import ClosureLang.Proofs.Compilation

/-!
# Trees, tables and code without their names

A resolved tree keeps the names of its source, and so does the table of its scopes, but the compiler reads the places of
names only. The names end up in the labels of routines and nowhere else in the code.
-/

namespace ClosureLang

/-- A scope with its names taken out. -/
def Scope.unnamed (s : Scope) : Scope where
  name := none
  parent := s.parent
  params := s.params.map fun _ => ""
  locals := s.locals.map ({ · with name := "" })
  captures := s.captures.map ({ · with name := "" })

theorem Scope.frameSize_unnamed (s : Scope) : s.unnamed.frameSize = s.frameSize := by
  simp [Scope.unnamed, Scope.frameSize]

theorem Scope.addLocal_unnamed (x : String) (s : Scope) : (s.addLocal x).unnamed = s.unnamed.addLocal "" := by
  simp [addLocal, unnamed, frameSize]

theorem Scope.addCapture_unnamed (x : String) (source : CaptureSource) (s : Scope) :
    (s.addCapture x source).unnamed = s.unnamed.addCapture "" source := by
  simp [addCapture, unnamed, frameSize]

/-- The scopes of a table without their names. -/
def ScopeTable.unnamed (t : ScopeTable) : ScopeTable := t.map Scope.unnamed

namespace Expr

mutual

/-- A resolved tree without its names. -/
def unnamed : Expr → Expr
  | number span value => number span value
  | name span _ var => name span "" var
  | call span callee args => call span callee.unnamed (unnamedAll args)
  | lambda span _ body frame _ => lambda span [] body.unnamed frame none
  | block span statements => block span (unnamedAll statements)
  | assign span _ value var => assign span "" value.unnamed var
  | cond span test onTrue onFalse => cond span test.unnamed onTrue.unnamed onFalse.unnamed

def unnamedAll : List Expr → List Expr
  | [] => []
  | e :: es => e.unnamed :: unnamedAll es

end

end Expr

mutual

/-- Code without the names of its routines. -/
def Code.unnamed : Code → Code
  | .const value => .const value
  | .load offset => .load offset
  | .global index => .global index
  | .store slot value => .store slot value.unnamed
  | .block stores result => .block (Code.unnamedAll stores) result.unnamed
  | .cond test onTrue onFalse line => .cond test.unnamed onTrue.unnamed onFalse.unnamed line
  | .closure routine => .closure routine.unnamed
  | .call callee args line => .call callee.unnamed (Code.unnamedAll args) line

def Code.unnamedAll : List Code → List Code
  | [] => []
  | c :: cs => c.unnamed :: Code.unnamedAll cs

def Routine.unnamed : Routine → Routine
  | ⟨_, arity, frameSize, captures, body⟩ => ⟨none, arity, frameSize, captures, body.unnamed⟩

end

/-- A program without the names of its routines. -/
def Program.unnamed (p : Program) : Program := ⟨p.main.unnamed, p.globals⟩

/-! ## Tables -/

namespace ScopeTable

variable {t t' : ScopeTable}

theorem size_unnamed (t : ScopeTable) : t.unnamed.size = t.size := Array.size_map

theorem getD_unnamed (t : ScopeTable) (id : Nat) : (t.getD id default).unnamed = t.unnamed.getD id default := by
  rw [Array.getD_eq_getD_getElem?, Array.getD_eq_getD_getElem?, unnamed, Array.getElem?_map]
  cases t[id]? <;> rfl

theorem frameSize_eq (h : t.unnamed = t'.unnamed) (id : Nat) :
    (t.getD id default).frameSize = (t'.getD id default).frameSize := by
  rw [← Scope.frameSize_unnamed, getD_unnamed, h, ← getD_unnamed, Scope.frameSize_unnamed]

theorem unnamed_modify (t : ScopeTable) (id : Nat) {f g : Scope → Scope} (hf : ∀ s, (f s).unnamed = g s.unnamed) :
    unnamed (t.modify id f) = t.unnamed.modify id g := by
  apply Array.ext_getElem?
  intro i
  simp only [unnamed, Array.getElem?_map, Array.getElem?_modify]
  split
  · cases t[i]? <;> simp [hf]
  · rfl

theorem unnamed_addLocal (t : ScopeTable) (id : Nat) (x : String) :
    unnamed (t.modify id (·.addLocal x)) = t.unnamed.modify id (·.addLocal "") :=
  t.unnamed_modify id (g := (·.addLocal "")) (Scope.addLocal_unnamed x)

theorem unnamed_addCapture (t : ScopeTable) (id : Nat) (x : String) (source : CaptureSource) :
    unnamed (t.modify id (·.addCapture x source)) = t.unnamed.modify id (·.addCapture "" source) :=
  t.unnamed_modify id (g := (·.addCapture "" source)) (Scope.addCapture_unnamed x source)

end ScopeTable

/-! ## Code -/

namespace ScopeTable

variable {t : ScopeTable} {frame : Nat} {span : Span}

theorem offset_unnamed {v : Var} {n : Int} (h : t.offset frame span v = .ok n) :
    t.unnamed.offset frame span v = .ok n := by
  cases v with
  | arg | slot | global => exact h
  | captured owner index =>
    rw [offset] at h ⊢
    split at h
    · cases h
    next howner =>
    rw [if_neg howner, unnamed, Array.getElem?_map]
    cases hs : t[owner]? with
    | none => simp [hs] at h
    | some s =>
      rw [hs] at h
      dsimp only [Option.map_some, Scope.unnamed] at h ⊢
      rw [List.getElem?_map]
      cases hc : s.captures[index]? with
      | none => simp [hc] at h
      | some c => simpa [hc] using h

theorem captureLoad_unnamed {parent : Option Nat} {c : Capture} {l : CaptureLoad}
    (h : t.captureLoad parent span c = .ok l) : t.unnamed.captureLoad parent span { c with name := "" } = .ok l := by
  obtain ⟨name, source, slot⟩ := c
  cases source with
  | itself => exact h
  | parent var =>
    cases parent with
    | none => cases h
    | some parent =>
      obtain ⟨n, hn, h⟩ := exists_of_bind_eq_ok h
      simp only [captureLoad, offset_unnamed hn]
      exact h

theorem layout_unnamed {s : Scope} {loads : List CaptureLoad} (h : t.layout frame span = .ok (s, loads)) :
    t.unnamed.layout frame span = .ok (s.unnamed, loads) := by
  rw [layout] at h ⊢
  rw [unnamed, Array.getElem?_map]
  cases hs : t[frame]? with
  | none => simp [hs] at h
  | some s₁ =>
    rw [hs] at h
    obtain ⟨loads₁, hloads, h⟩ := exists_of_bind_eq_ok h
    cases h
    have hmap : ∀ {captures : List Capture} {loads : List CaptureLoad},
        captures.mapM (t.captureLoad s.parent span) = .ok loads →
        (captures.map ({ · with name := "" })).mapM (t.unnamed.captureLoad s.parent span) = .ok loads := by
      intro captures
      induction captures with
      | nil => exact id
      | cons c captures ih =>
        intro loads h
        rw [List.mapM_cons] at h
        obtain ⟨l, hl, h⟩ := exists_of_bind_eq_ok h
        obtain ⟨ls, hls, h⟩ := exists_of_bind_eq_ok h
        rw [List.map_cons, List.mapM_cons, captureLoad_unnamed hl, ih hls]
        exact h
    dsimp only [Option.map_some]
    rw [← unnamed, Scope.unnamed, hmap hloads]
    rfl

end ScopeTable

theorem Routine.ofScope_unnamed (s : Scope) (loads : List CaptureLoad) (body : Code) :
    (ofScope s loads body).unnamed = ofScope s.unnamed loads body.unnamed := by
  simp [ofScope, Routine.unnamed, Scope.unnamed, Scope.arity, Scope.frameSize]

namespace Expr

theorem span_unnamed (e : Expr) : e.unnamed.span = e.span := by cases e <;> rfl

mutual

/-- The code of a tree without names is its code without names. -/
theorem compile_unnamed {t : ScopeTable} {frame : Nat} (e : Expr) {c : Code} (h : e.compile t frame = .ok c) :
    e.unnamed.compile t.unnamed frame = .ok c.unnamed := by
  cases e with
  | number =>
    cases h
    rfl
  | name span x var =>
    rw [unnamed]
    rcases var with _ | v
    · cases h
    cases v with
    | global =>
      cases h
      rfl
    | arg | slot | captured =>
      obtain ⟨n, hn, h⟩ := exists_of_bind_eq_ok h
      cases h
      simp only [compile, ScopeTable.offset_unnamed hn]
      rfl
  | call span callee args =>
    rw [compile] at h
    obtain ⟨c₁, hc, h⟩ := exists_of_bind_eq_ok h
    obtain ⟨cs, hcs, h⟩ := exists_of_bind_eq_ok h
    cases h
    rw [unnamed, compile, compile_unnamed callee hc, compileAll_unnamed args hcs]
    rfl
  | lambda span params body id label =>
    rcases id with _ | id
    · cases h
    rw [compile] at h
    obtain ⟨⟨s, loads⟩, hlayout, h⟩ := exists_of_bind_eq_ok h
    obtain ⟨c₁, hc, h⟩ := exists_of_bind_eq_ok h
    cases h
    rw [unnamed, compile, span_unnamed, ScopeTable.layout_unnamed hlayout]
    simp only [bind, Except.bind, compile_unnamed body hc]
    rw [Code.unnamed, Routine.ofScope_unnamed]
    rfl
  | block span statements =>
    rw [compile] at h
    obtain ⟨⟨stores, result⟩, hs, h⟩ := exists_of_bind_eq_ok h
    cases h
    rw [unnamed, compile, compileStatements_unnamed statements hs]
    rfl
  | assign => cases h
  | cond span test onTrue onFalse =>
    rw [compile] at h
    obtain ⟨a, ha, h⟩ := exists_of_bind_eq_ok h
    obtain ⟨b, hb, h⟩ := exists_of_bind_eq_ok h
    obtain ⟨d, hd, h⟩ := exists_of_bind_eq_ok h
    cases h
    rw [unnamed, compile, compile_unnamed test ha, compile_unnamed onTrue hb, compile_unnamed onFalse hd]
    rfl

theorem compileAll_unnamed {t : ScopeTable} {frame : Nat} (es : List Expr) {cs : List Code}
    (h : compileAll t frame es = .ok cs) : compileAll t.unnamed frame (unnamedAll es) = .ok (Code.unnamedAll cs) := by
  cases es with
  | nil =>
    cases h
    rfl
  | cons e es =>
    rw [compileAll] at h
    obtain ⟨c, hc, h⟩ := exists_of_bind_eq_ok h
    obtain ⟨cs, hcs, h⟩ := exists_of_bind_eq_ok h
    cases h
    rw [unnamedAll, compileAll, compile_unnamed e hc, compileAll_unnamed es hcs]
    rfl

theorem compileStatements_unnamed {t : ScopeTable} {frame : Nat} {span : Span} (es : List Expr) {stores : List Code}
    {result : Code} (h : compileStatements t frame span es = .ok (stores, result)) :
    compileStatements t.unnamed frame span (unnamedAll es) = .ok (Code.unnamedAll stores, result.unnamed) := by
  match es with
  | [] => cases h
  | [e] =>
    rw [compileStatements] at h
    obtain ⟨c, hc, h⟩ := exists_of_bind_eq_ok h
    cases h
    rw [unnamedAll, unnamedAll, compileStatements, compile_unnamed e hc]
    rfl
  | e :: e₁ :: es =>
    cases e with
    | assign aspan x value var =>
      rcases var with _ | v
      · cases h
      cases v with
      | arg | captured | global => cases h
      | slot n =>
        rw [compileStatements] at h
        · obtain ⟨c, hc, h⟩ := exists_of_bind_eq_ok h
          obtain ⟨⟨stores, result⟩, hs, h⟩ := exists_of_bind_eq_ok h
          cases h
          have hrest := compileStatements_unnamed (e₁ :: es) hs
          rw [unnamedAll, unnamed, compileStatements, compile_unnamed value hc, hrest]
          · rfl
          · simp [unnamedAll]
        · simp
    | number | name | call | lambda | block | cond => cases h

end

theorem toProgram_unnamed {t : ScopeTable} {globals : Prelude} {e : Expr} {p : Program}
    (h : e.toProgram t globals = .ok p) : e.unnamed.toProgram t.unnamed globals = .ok p.unnamed := by
  rw [toProgram] at h
  obtain ⟨⟨s, loads⟩, hlayout, h⟩ := exists_of_bind_eq_ok h
  obtain ⟨c, hc, h⟩ := exists_of_bind_eq_ok h
  cases h
  rw [toProgram, span_unnamed, ScopeTable.layout_unnamed hlayout]
  simp only [bind, Except.bind, compile_unnamed e hc]
  rw [Program.unnamed, Routine.ofScope_unnamed]
  rfl

end Expr

end ClosureLang
