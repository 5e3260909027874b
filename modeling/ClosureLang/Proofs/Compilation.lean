import ClosureLang.Code.Compiler
import ClosureLang.Proofs.Activation
import ClosureLang.Proofs.ScopeTables

/-!
# Resolved trees have code

A place that a name was resolved to is a cell of the frame around it, so the tree of a resolved program can be compiled,
and its code keeps to its frames.
-/

namespace ClosureLang

open ClosureLang.Frame

variable {t : ScopeTable} {globals : List String} {frames : List Frame} {x : String} {v : Var}

namespace ScopeTable

/-- The offset of a place from the base of the frame that it is in. -/
def place (t : ScopeTable) : Var → Int
  | .arg i => Var.argOffset i
  | .slot s => s
  | .captured id i => (((t[id]?.bind (·.captures[i]?)).map (·.slot)).getD 0 : Nat)
  | .global _ => 0

/-- How a capture is filled when its closure is entered. -/
def load (t : ScopeTable) (c : Capture) : CaptureLoad :=
  match c.source with
  | .itself => ⟨c.slot, .itself⟩
  | .parent var => ⟨c.slot, .frame (t.place var)⟩

/-- The place is an argument or a slot of the frame, and the compiler finds it. -/
structure Reads (t : ScopeTable) (frame : Nat) (v : Var) : Prop where
  inFrame : ∀ {s : Scope}, t[frame]? = some s → InFrame s.arity s.frameSize (t.place v)
  offset : ∀ span, t.offset frame span v = .ok (t.place v)

end ScopeTable

/-- The code that gets the value at a place. -/
def Var.access (t : ScopeTable) : Var → Code
  | .global i => .global i
  | v => .load (t.place v)

/-! ## Places -/

theorem InFrame.slot {arity size n : Nat} (h : n < size) : InFrame arity size n :=
  .inl ⟨by omega, by omega⟩

theorem Scope.Has.reads (hd : t.Dense) {id : Nat} {s : Scope} (hs : t[id]? = some s) (h : s.Has id v) :
    t.Reads id v := by
  cases v with
  | arg i =>
    obtain ⟨hpos, hlt⟩ := h
    refine ⟨fun hs' => .inr ?_, fun span => rfl⟩
    cases hs.symm.trans hs'
    simp only [ScopeTable.place, Var.argOffset]
    omega
  | slot n =>
    obtain ⟨l, hl, rfl⟩ := h
    refine ⟨fun hs' => ?_, fun span => rfl⟩
    cases hs.symm.trans hs'
    exact .slot ((hd hs).lt (List.mem_append_left _ (List.mem_map_of_mem hl)))
  | captured owner i =>
    obtain ⟨rfl, hi⟩ := h
    have hc : s.captures[i]? = some s.captures[i] := List.getElem?_eq_getElem hi
    have hplace : t.place (.captured owner i) = s.captures[i].slot := by simp [ScopeTable.place, hs, hc]
    refine ⟨fun hs' => ?_, fun span => ?_⟩
    · cases hs.symm.trans hs'
      rw [hplace]
      exact .slot ((hd hs).lt (List.mem_append_right _ (List.mem_map_of_mem (List.getElem_mem hi))))
    · rw [hplace, ScopeTable.offset, if_neg (by simp), hs]
      dsimp only
      rw [hc]
  | global i => exact h.elim

/-- A name stands for a global or for a cell of the innermost frame. -/
theorem Refers.reads (hd : t.Dense) (hv : FramesValid t globals frames) (h : Refers t globals x frames v) :
    (∃ i, v = .global i) ∨ t.Reads (innermost frames) v := by
  rcases h.has hv with ⟨i, -, hi⟩ | ⟨s, hs, hhas⟩
  · exact .inl ⟨i, hi⟩
  · exact .inr (hhas.reads hd hs)

theorem Refers.compile (hd : t.Dense) (hv : FramesValid t globals frames) (h : Refers t globals x frames v)
    (span : Span) : (Expr.name span x (some v)).compile t (innermost frames) = .ok (v.access t) := by
  rcases h.reads hd hv with ⟨i, rfl⟩ | hreads
  · rfl
  · cases v with
    | global i => rfl
    | arg | slot | captured =>
      simp only [Expr.compile, hreads.offset span]
      rfl

theorem Refers.within (hd : t.Dense) (hv : FramesValid t globals frames) (h : Refers t globals x frames v) {s : Scope}
    (hs : t[innermost frames]? = some s) : (v.access t).Within s.arity s.frameSize := by
  rcases h.reads hd hv with ⟨i, rfl⟩ | hreads
  · trivial
  · cases v with
    | global i => trivial
    | arg | slot | captured => exact hreads.inFrame hs

/-! ## Layout -/

theorem exists_of_bind_eq_ok {α β ε : Type} {x : Except ε α} {f : α → Except ε β} {b : β} (h : x >>= f = .ok b) :
    ∃ a, x = .ok a ∧ f a = .ok b := by
  cases x with
  | error e => cases h
  | ok a => exact ⟨a, rfl, h⟩

theorem mapM_eq_ok {α β ε : Type} {f : α → Except ε β} {g : α → β} {l : List α} (h : ∀ a ∈ l, f a = .ok (g a)) :
    l.mapM f = .ok (l.map g) := by
  induction l with
  | nil => rfl
  | cons a l ih =>
    rw [List.mapM_cons, h a List.mem_cons_self, ih fun b hb => h b (List.mem_cons_of_mem _ hb)]
    rfl

theorem ScopeTable.Nested.layout (hd : t.Dense) {id : Nat} {s : Scope} (h : t.Nested id s) (hs : t[id]? = some s)
    (span : Span) : t.layout id span = .ok (s, s.captures.map t.load) := by
  have hloads : ∀ c ∈ s.captures, t.captureLoad s.parent span c = .ok (t.load c) := by
    intro c hc
    unfold ScopeTable.captureLoad ScopeTable.load
    cases hsource : c.source with
    | itself => rfl
    | parent var =>
      obtain ⟨parent, outer, hparent, houter, hhas⟩ := h.sources c hc var hsource
      rw [hparent]
      dsimp only
      rw [(hhas.reads hd houter).offset span]
      rfl
  rw [ScopeTable.layout, hs]
  dsimp only
  rw [mapM_eq_ok hloads]
  rfl

section Lambda

variable {id : Nat} {names : List String} {binding : Option String} {s : Scope}

theorem LambdaValid.layout (hd : t.Dense) (hv : FramesValid t globals frames)
    (h : LambdaValid t globals frames id names binding s) (span : Span) :
    t.layout id span = .ok (s, s.captures.map t.load) := (h.nested hv).layout hd h.scope span

/-- A new closure finds what it captures in the frame that makes it. -/
theorem LambdaValid.sources (hd : t.Dense) (hv : FramesValid t globals frames)
    (h : LambdaValid t globals frames id names binding s) {outer : Scope} (hs : t[innermost frames]? = some outer)
    (body : Code) :
    ∀ offset ∈ (Routine.ofScope s (s.captures.map t.load) body).sources,
      InFrame outer.arity outer.frameSize offset := by
  intro offset hmem
  obtain ⟨load, hload, horigin⟩ := List.mem_filterMap.1 hmem
  obtain ⟨c, hc, rfl⟩ := List.mem_map.1 hload
  rw [ScopeTable.load] at horigin
  cases hsource : c.source with
  | itself => rw [hsource] at horigin; cases horigin
  | parent var =>
    rw [hsource] at horigin
    cases horigin
    obtain ⟨outer', houter, hhas⟩ := (h.captures c hc).has hv hsource
    exact (hhas.reads hd houter).inFrame hs

theorem ScopeTable.slot_load (t : ScopeTable) (c : Capture) : (t.load c).slot = c.slot := by
  rw [load]
  split <;> rfl

theorem LambdaValid.fits (hd : t.Dense) (h : LambdaValid t globals frames id names binding s) {body : Code}
    (hbody : body.Within s.arity s.frameSize) : (Routine.ofScope s (s.captures.map t.load) body).Fits where
  sized := Int.natCast_nonneg _
  captures load hload := by
    obtain ⟨c, hc, rfl⟩ := List.mem_map.1 hload
    rw [t.slot_load c]
    have hlt : c.slot < s.frameSize :=
      (hd h.scope).lt (List.mem_append_right _ (List.mem_map_of_mem hc))
    exact ⟨Int.natCast_nonneg _, Int.ofNat_lt.2 hlt⟩
  body := hbody

end Lambda

/-! ## Trees -/

theorem slot?_lt (hd : t.Dense) (hv : FramesValid t globals frames) {s : Scope} (hs : t[innermost frames]? = some s)
    {n : Nat} (hn : slot? x frames = some n) : n < s.frameSize := by
  obtain ⟨s', hs', l, hl, hslot⟩ := slot?_has hv hn
  cases hs'.symm.trans hs
  obtain rfl : n = l.slot := Int.ofNat_inj.1 hslot
  exact (hd hs).lt (List.mem_append_left _ (List.mem_map_of_mem hl))

theorem Var.every_access (t : ScopeTable) (v : Var) : (v.access t).Every Routine.Fits := by
  cases v <;> trivial

mutual

/-- A resolved tree has code, which keeps to the frame around it. -/
theorem compile_exists {t : ScopeTable} {globals : List String} (hd : t.Dense) (e : Expr) {frames : List Frame}
    {binding : Option String} {e' : Expr} {s : Scope} (h : Elab t globals frames binding e e')
    (hv : FramesValid t globals frames) (hs : t[innermost frames]? = some s) :
    ∃ c, e'.compile t (innermost frames) = .ok c ∧ c.Within s.arity s.frameSize ∧ c.Every Routine.Fits := by
  cases e with
  | number span value =>
    obtain rfl := h
    exact ⟨.const (.number value), rfl, trivial, trivial⟩
  | name span x _ =>
    obtain ⟨v, hrefers, rfl⟩ := h
    exact ⟨v.access t, hrefers.compile hd hv span, hrefers.within hd hv hs, v.every_access t⟩
  | call span callee args =>
    obtain ⟨callee', args', hcallee, hargs, rfl⟩ := h
    obtain ⟨f, hf, hfw, hfe⟩ := compile_exists hd callee hcallee hv hs
    obtain ⟨cs, hcs, hcsw, hcse⟩ := compileAll_exists hd args hargs hv hs
    exact ⟨.call f cs span.line, by rw [Expr.compile, hf, hcs]; rfl, ⟨hfw, hcsw⟩, hfe, hcse⟩
  | lambda span params body _ label =>
    obtain ⟨params', names, id, s', body', -, hlambda, -, hbody, rfl⟩ := h
    obtain ⟨c, hc, hcw, hce⟩ := compile_exists hd body hbody ⟨⟨s', hlambda⟩, hv⟩ hlambda.scope
    refine ⟨.closure (.ofScope s' (s'.captures.map t.load) c), ?_, hlambda.sources hd hv hs c, ?_⟩
    · have hcode : body'.compile t id = .ok c := hc
      rw [Expr.compile, hlambda.layout hd hv, hcode]
      rfl
    · exact Routine.every_iff.2 ⟨hlambda.fits hd hcw, hce⟩
  | block span statements =>
    obtain ⟨locals, statements', hblock, -, -, hstatements, rfl⟩ := h
    obtain ⟨stores, result, hc, hw, he⟩ := compileStatements_exists hd span statements hstatements ⟨hblock, hv⟩ hs
    have hcode : Expr.compileStatements t (innermost frames) span statements' = .ok (stores, result) := hc
    exact ⟨.block stores result, by rw [Expr.compile, hcode]; rfl, hw, he⟩
  | assign => cases h
  | cond span test onTrue onFalse =>
    obtain ⟨test', onTrue', onFalse', htest, htrue, hfalse, rfl⟩ := h
    obtain ⟨c, hc, hcw, hce⟩ := compile_exists hd test htest hv hs
    obtain ⟨c₁, hc₁, hcw₁, hce₁⟩ := compile_exists hd onTrue htrue hv hs
    obtain ⟨c₂, hc₂, hcw₂, hce₂⟩ := compile_exists hd onFalse hfalse hv hs
    exact ⟨.cond c c₁ c₂ span.line, by rw [Expr.compile, hc, hc₁, hc₂]; rfl, ⟨hcw, hcw₁, hcw₂⟩, hce, hce₁, hce₂⟩

theorem compileAll_exists {t : ScopeTable} {globals : List String} (hd : t.Dense) (es : List Expr)
    {frames : List Frame} {es' : List Expr} {s : Scope} (h : ElabAll t globals frames es es')
    (hv : FramesValid t globals frames) (hs : t[innermost frames]? = some s) :
    ∃ cs, Expr.compileAll t (innermost frames) es' = .ok cs ∧ Code.AllWithin s.arity s.frameSize cs ∧
      Code.EveryAll Routine.Fits cs := by
  cases es with
  | nil =>
    obtain rfl := h
    exact ⟨[], rfl, trivial, trivial⟩
  | cons e es =>
    obtain ⟨e', rest', he, hes, rfl⟩ := h
    obtain ⟨c, hc, hcw, hce⟩ := compile_exists hd e he hv hs
    obtain ⟨cs, hcs, hcsw, hcse⟩ := compileAll_exists hd es hes hv hs
    exact ⟨c :: cs, by rw [Expr.compileAll, hc, hcs]; rfl, ⟨hcw, hcsw⟩, hce, hcse⟩

theorem compileStatements_exists {t : ScopeTable} {globals : List String} (hd : t.Dense) (span : Span)
    (es : List Expr) {frames : List Frame} {es' : List Expr} {s : Scope} (h : ElabStatements t globals frames es es')
    (hv : FramesValid t globals frames) (hs : t[innermost frames]? = some s) :
    ∃ stores result, Expr.compileStatements t (innermost frames) span es' = .ok (stores, result) ∧
      (Code.AllWithin s.arity s.frameSize stores ∧ result.Within s.arity s.frameSize) ∧
      Code.EveryAll Routine.Fits stores ∧ result.Every Routine.Fits := by
  cases h.blockForm with
  | @result e he =>
    obtain ⟨e', hresult, rfl⟩ := elabStatements_result.1 h
    obtain ⟨c, hc, hcw, hce⟩ := compile_exists hd e hresult hv hs
    exact ⟨[], c, by rw [Expr.compileStatements, hc]; rfl, ⟨trivial, hcw⟩, trivial, hce⟩
  | @assign aspan x value var es hform =>
    obtain ⟨n, value', rest', hslot, hvalue, hrest, rfl⟩ := (elabStatements_assign hform).1 h
    have hmark (p : Progress) := (framesValid_mark x p).2 hv
    have hinner (p : Progress) : innermost (mark x p frames) = innermost frames := innermost_mark x p frames
    obtain ⟨c, hc, hcw, hce⟩ := compile_exists hd value hvalue (hmark .defining) ((hinner .defining).symm ▸ hs)
    obtain ⟨stores, result, hes, ⟨hsw, hrw⟩, hse, hre⟩ :=
      compileStatements_exists hd span es hrest (hmark .defined) ((hinner .defined).symm ▸ hs)
    rw [hinner] at hc hes
    refine ⟨.store n c :: stores, result, ?_, ⟨⟨⟨by omega, ?_, hcw⟩, hsw⟩, hrw⟩, ⟨hce, hse⟩, hre⟩
    · obtain ⟨e₁, rest₁, rfl⟩ := List.exists_cons_of_ne_nil hrest.ne_nil
      rw [Expr.compileStatements, hc, hes]
      · rfl
      · simp
    · exact Int.ofNat_lt.2 (slot?_lt hd hv hs hslot)

end

/-! ## Programs -/

/-- A resolved program can be compiled. Its code keeps to its frames. -/
theorem ResolvedProgram.program {e e' : Expr} (h : ResolvedProgram globals e e' t) (p : Prelude) :
    ∃ s c, t[0]? = some s ∧ e'.compile t 0 = .ok c ∧ (Routine.ofScope s [] c).arity = 0 ∧
      (Routine.ofScope s [] c).Every Routine.Fits ∧ e'.toProgram t p = .ok ⟨.ofScope s [] c, p⟩ := by
  obtain ⟨s, hmain⟩ := h.main
  have hv : FramesValid t globals [] := trivial
  obtain ⟨c, hc, hcw, hce⟩ := compile_exists h.dense e h.tree ⟨⟨s, hmain⟩, hv⟩ hmain.scope
  have hcode : e'.compile t 0 = .ok c := hc
  have hlayout := hmain.layout h.dense hv e'.span
  have hfits := hmain.fits h.dense hcw
  rw [hmain.captures_main, List.map_nil] at hlayout hfits
  refine ⟨s, c, hmain.scope, hcode, ?_, Routine.every_iff.2 ⟨hfits, hce⟩, ?_⟩
  · rw [Routine.ofScope, Scope.arity, hmain.params_eq]
    rfl
  · rw [Expr.toProgram, hlayout, hcode]
    rfl

/-- Whatever is resolved can be compiled, with the table of its own scopes and the prelude that its names were looked up
in. What a tree has filled in before does not matter. Every scope of the table has a layout. -/
theorem Resolver.program_compiles {globals : Prelude} {e e' : Expr} {r : Resolver}
    (h : (Resolver.new globals.names).program e = .done e' r) :
    (∃ p, e'.toProgram r.scopes globals = .ok p ∧ p.globals = globals) ∧
      (∀ id s span, r.scopes[id]? = some s → ∃ loads, r.scopes.layout id span = .ok (s, loads)) ∧
      ∀ n ∈ e'.nodes (some 0), n.2.Annotated r.scopes globals.names n.1 := by
  have hdescribes := program_describes h
  obtain ⟨s, c, -, -, -, -, hprogram⟩ := (program_sound h).program globals
  refine ⟨⟨_, hprogram, rfl⟩, fun id s span hs => ?_, hdescribes.nodes⟩
  exact ⟨s.captures.map r.scopes.load, (hdescribes.nested id s hs).layout hdescribes.dense hs span⟩

/-- `{ f = n -> (() -> f(n, add)); f }`, with marks left over from elsewhere. -/
def staleMarks : Expr :=
  let x (name : String) : Expr := .name default name (some (.captured 9 9))
  .block default
    [.assign default "f" (.lambda default [x "n"]
        (.lambda default [] (.call default (x "f") [x "n", x "add"]) (some 7) none) (some 7) (some "g"))
        (some (.global 30)),
      x "f"]

/-- Whether the walk came to its end. -/
def Resolution.isDone {α : Type} : Resolution α → Bool
  | done _ _ => true
  | failed _ _ _ => false

theorem Resolver.program_compiles_staleMarks :
    ∃ e' r p, (Resolver.new Prelude.standard.names).program staleMarks = .done e' r ∧
      e'.toProgram r.scopes .standard = .ok p := by
  have hdone : ((Resolver.new Prelude.standard.names).program staleMarks).isDone := by cbv
  cases h : (Resolver.new Prelude.standard.names).program staleMarks with
  | failed e' error r => rw [h] at hdone; cases hdone
  | done e' r =>
    obtain ⟨⟨p, hp, -⟩, -, -⟩ := program_compiles h
    exact ⟨e', r, p, rfl, hp⟩

end ClosureLang
