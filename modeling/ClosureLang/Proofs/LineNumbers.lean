import ClosureLang.Proofs.Compilation
import ClosureLang.Proofs.FirstTokens
import ClosureLang.Proofs.Places

/-!
# Lines of calls and conditions

The line of a node is that of the token it starts with. Lines count from one, no pass changes the line of a node, and
each call and condition of compiled code has the line of the node it stands for. So the code of a source has no line
zero, which in an error stands for a line that is not known yet.
-/

namespace ClosureLang

/-! ## Tokens -/

theorem Token.line_pos {source : String} {tokens : List Token} (h : Token.ofSource source = .ok tokens) :
    ∀ t ∈ tokens, 0 < t.span.line := by
  have hcounts := Token.ofSource_countsUpTo source
  rw [h] at hcounts
  exact fun t ht => (hcounts t ht).line_pos

/-! ## Trees -/

namespace Expr

mutual

/-- The lines of the calls and conditions of a tree, those inside its lambdas included. -/
def lines : Expr → List Nat
  | number .. | name .. => []
  | call span callee args => span.line :: (callee.lines ++ linesAll args)
  | lambda _ _ body _ _ => body.lines
  | block _ statements => linesAll statements
  | assign _ _ value _ => value.lines
  | cond span test onTrue onFalse => span.line :: (test.lines ++ (onTrue.lines ++ onFalse.lines))

def linesAll : List Expr → List Nat
  | [] => []
  | e :: es => e.lines ++ linesAll es

end

mutual

theorem lines_bare (e : Expr) : e.bare.lines = e.lines := by
  cases e with
  | number | name => rfl
  | call span callee args => rw [bare, lines, lines, lines_bare callee, linesAll_bareAll args]
  | lambda span params body frame label => exact lines_bare body
  | block span statements => exact linesAll_bareAll statements
  | assign span x value var => exact lines_bare value
  | cond span test onTrue onFalse =>
    rw [bare, lines, lines, lines_bare test, lines_bare onTrue, lines_bare onFalse]

theorem linesAll_bareAll (es : List Expr) : linesAll (bareAll es) = linesAll es := by
  cases es with
  | nil => rfl
  | cons e es => rw [bareAll, linesAll, linesAll, lines_bare e, linesAll_bareAll es]

end

end Expr

/-- Names are resolved without a change of lines. -/
theorem Resolver.lines_program {globals : List String} {e e' : Expr} {r : Resolver}
    (h : (Resolver.new globals).program e = .done e' r) : e'.lines = e.lines := by
  obtain ⟨hmain, -, htree⟩ := program_sound h
  obtain ⟨-, hbare⟩ := Expr.resolved_placed e htree ⟨hmain, trivial⟩ (by simp)
  rw [← Expr.lines_bare, hbare, Expr.lines_bare]

/-! ## Reading -/

namespace Expr

variable {T : Token → Prop}

mutual

theorem Begins.lines (e : Expr) (h : e.Begins T) : ∀ l ∈ e.lines, ∃ t, T t ∧ l = t.span.line := by
  obtain ⟨t, ht, hline, -⟩ := h.span
  have hparts := h.parts
  cases e with
  | number | name => exact nofun
  | call span callee args =>
    obtain ⟨hcallee, hargs⟩ := List.forall_mem_cons.1 hparts
    refine List.forall_mem_cons.2 ⟨⟨t, ht, hline⟩, List.forall_mem_append.2 ⟨?_, ?_⟩⟩
    · exact hcallee.lines
    · exact linesAll_of_begins args hargs
  | lambda span params body frame label =>
    obtain ⟨-, hbody⟩ := List.forall_mem_append.1 hparts
    exact (List.forall_mem_singleton.1 hbody).lines
  | block span statements => exact linesAll_of_begins statements hparts
  | assign span x value var => exact (List.forall_mem_singleton.1 hparts).lines
  | cond span test onTrue onFalse =>
    obtain ⟨htest, hbranches⟩ := List.forall_mem_cons.1 hparts
    obtain ⟨hTrue, hFalse⟩ := List.forall_mem_cons.1 hbranches
    refine List.forall_mem_cons.2 ⟨⟨t, ht, hline⟩, List.forall_mem_append.2 ⟨htest.lines, ?_⟩⟩
    exact List.forall_mem_append.2 ⟨hTrue.lines, (List.forall_mem_singleton.1 hFalse).lines⟩

theorem linesAll_of_begins (es : List Expr) (h : ∀ e ∈ es, e.Begins T) :
    ∀ l ∈ linesAll es, ∃ t, T t ∧ l = t.span.line := by
  cases es with
  | nil => exact nofun
  | cons e es =>
    obtain ⟨he, hes⟩ := List.forall_mem_cons.1 h
    exact List.forall_mem_append.2 ⟨he.lines, linesAll_of_begins es hes⟩

end

/-- The lines of a tree are lines of its tokens. -/
theorem lines_ofTokens {tokens : List Token} {e : Expr} (h : Expr.ofTokens tokens = .ok e) {P : Nat → Prop}
    (hP : ∀ t ∈ tokens, P t.span.line) : ∀ l ∈ e.lines, P l := by
  have hne : tokens ≠ [] := by
    rintro rfl
    cases h
  have hbegins := ofTokens_begins hne hP
  rw [h] at hbegins
  intro l hl
  obtain ⟨t, ht, rfl⟩ := Begins.lines e hbegins l hl
  exact ht

/-- In a text with fewer than `2 ^ 32 - 1` characters, the lines of calls and conditions fit in 32 bits. -/
theorem lines_lt_of_length {source : String} {tokens : List Token} {e : Expr} (hlength : source.length < 2 ^ 32 - 1)
    (htokens : Token.ofSource source = .ok tokens) (h : Expr.ofTokens tokens = .ok e) : ∀ l ∈ e.lines, l < 2 ^ 32 := by
  have hcounts := Token.ofSource_countsUpTo_of_length hlength
  rw [htokens] at hcounts
  exact lines_ofTokens h fun t ht => Nat.lt_of_le_pred (by decide) (hcounts t ht).line_le

end Expr

/-! ## Code -/

namespace Code

mutual

/-- The lines of the calls and conditions of code. Routines have their own. -/
def lines : Code → List Nat
  | const _ | load _ | global _ | closure _ => []
  | store _ value => value.lines
  | block stores result => linesAll stores ++ result.lines
  | cond test onTrue onFalse line => line :: (test.lines ++ (onTrue.lines ++ onFalse.lines))
  | call callee args line => line :: (callee.lines ++ linesAll args)

def linesAll : List Code → List Nat
  | [] => []
  | c :: cs => c.lines ++ linesAll cs

end

theorem forall_mem_linesAll {P : Nat → Prop} {cs : List Code} :
    (∀ l ∈ linesAll cs, P l) ↔ ∀ c ∈ cs, ∀ l ∈ c.lines, P l := by
  induction cs with
  | nil => exact ⟨nofun, nofun⟩
  | cons c cs ih => rw [linesAll, List.forall_mem_append, ih, List.forall_mem_cons]

end Code

/-- The calls and conditions of a routine stand on lines with the property. -/
def Routine.OnLines (P : Nat → Prop) (r : Routine) : Prop := ∀ l ∈ r.body.lines, P l

/-- So do those of code and of all routines in it. -/
structure Code.OnLines (P : Nat → Prop) (c : Code) : Prop where
  own : ∀ l ∈ c.lines, P l
  routines : c.Every (Routine.OnLines P)

/-- So do those of several pieces of code. -/
structure Code.AllOnLines (P : Nat → Prop) (cs : List Code) : Prop where
  own : ∀ l ∈ Code.linesAll cs, P l
  routines : Code.EveryAll (Routine.OnLines P) cs

/-! ## Compilation -/

mutual

/-- The code stands for the tree node by node, and each call and condition has the line of its own node. -/
inductive Code.Mirrors : Code → Expr → Prop where
  | number {span : Span} {value : Float} : Mirrors (.const (.number value)) (.number span value)
  | global {index : Nat} {span : Span} {x : String} : Mirrors (.global index) (.name span x (some (.global index)))
  | load {offset : Int} {span : Span} {x : String} {var : Var} : Mirrors (.load offset) (.name span x (some var))
  | call {c : Code} {cs : List Code} {span : Span} {callee : Expr} {args : List Expr} (hcallee : Mirrors c callee)
      (hargs : MirrorsAll cs args) : Mirrors (.call c cs span.line) (.call span callee args)
  | closure {routine : Routine} {span : Span} {params : List Expr} {body : Expr} {frame : Option Nat}
      {label : Option String} (hbody : Mirrors routine.body body) :
      Mirrors (.closure routine) (.lambda span params body frame label)
  | block {stores : List Code} {result : Code} {span : Span} {statements : List Expr}
      (h : MirrorsBlock stores result statements) : Mirrors (.block stores result) (.block span statements)
  | cond {c₁ c₂ c₃ : Code} {span : Span} {test onTrue onFalse : Expr} (htest : Mirrors c₁ test)
      (hTrue : Mirrors c₂ onTrue) (hFalse : Mirrors c₃ onFalse) :
      Mirrors (.cond c₁ c₂ c₃ span.line) (.cond span test onTrue onFalse)

inductive Code.MirrorsAll : List Code → List Expr → Prop where
  | nil : MirrorsAll [] []
  | cons {c : Code} {cs : List Code} {e : Expr} {es : List Expr} (h : Mirrors c e) (hs : MirrorsAll cs es) :
      MirrorsAll (c :: cs) (e :: es)

/-- The stores and the result stand for the statements of a block, a store for the value that is assigned. -/
inductive Code.MirrorsBlock : (stores : List Code) → (result : Code) → List Expr → Prop where
  | result {c : Code} {e : Expr} (h : Mirrors c e) : MirrorsBlock [] c [e]
  | store {slot : Int} {c result : Code} {stores : List Code} {span : Span} {x : String} {value : Expr}
      {var : Option Var} {es : List Expr} (h : Mirrors c value) (hs : MirrorsBlock stores result es) :
      MirrorsBlock (.store slot c :: stores) result (.assign span x value var :: es)

end

namespace Expr

open Code (Mirrors MirrorsAll MirrorsBlock)

mutual

/-- Each call and condition of compiled code carries the line of the node that it was made from. -/
theorem compile_mirrors {t : ScopeTable} {frame : Nat} (e : Expr) {c : Code} (h : e.compile t frame = .ok c) :
    Mirrors c e := by
  cases e with
  | number =>
    cases h
    exact .number
  | name span x var =>
    rcases var with _ | v
    · cases h
    cases v with
    | global =>
      cases h
      exact .global
    | arg | slot | captured =>
      obtain ⟨n, -, h⟩ := exists_of_bind_eq_ok h
      cases h
      exact .load
  | call span callee args =>
    rw [compile] at h
    obtain ⟨c₁, hc, h⟩ := exists_of_bind_eq_ok h
    obtain ⟨cs, hcs, h⟩ := exists_of_bind_eq_ok h
    cases h
    exact .call (compile_mirrors callee hc) (compileAll_mirrors args hcs)
  | lambda span params body id label =>
    rcases id with _ | id
    · cases h
    rw [compile] at h
    obtain ⟨⟨s, loads⟩, -, h⟩ := exists_of_bind_eq_ok h
    obtain ⟨c₁, hc, h⟩ := exists_of_bind_eq_ok h
    cases h
    exact .closure (compile_mirrors body hc)
  | block span statements =>
    rw [compile] at h
    obtain ⟨⟨stores, result⟩, hs, h⟩ := exists_of_bind_eq_ok h
    cases h
    exact .block (compileStatements_mirrors statements hs)
  | assign => cases h
  | cond span test onTrue onFalse =>
    rw [compile] at h
    obtain ⟨c₁, htest, h⟩ := exists_of_bind_eq_ok h
    obtain ⟨c₂, hTrue, h⟩ := exists_of_bind_eq_ok h
    obtain ⟨c₃, hFalse, h⟩ := exists_of_bind_eq_ok h
    cases h
    exact .cond (compile_mirrors test htest) (compile_mirrors onTrue hTrue) (compile_mirrors onFalse hFalse)

theorem compileAll_mirrors {t : ScopeTable} {frame : Nat} (es : List Expr) {cs : List Code}
    (h : compileAll t frame es = .ok cs) : MirrorsAll cs es := by
  cases es with
  | nil =>
    cases h
    exact .nil
  | cons e es =>
    rw [compileAll] at h
    obtain ⟨c, hc, h⟩ := exists_of_bind_eq_ok h
    obtain ⟨cs, hcs, h⟩ := exists_of_bind_eq_ok h
    cases h
    exact .cons (compile_mirrors e hc) (compileAll_mirrors es hcs)

theorem compileStatements_mirrors {t : ScopeTable} {frame : Nat} {span : Span} (es : List Expr) {stores : List Code}
    {result : Code} (h : compileStatements t frame span es = .ok (stores, result)) : MirrorsBlock stores result es := by
  match es with
  | [] => cases h
  | [e] =>
    rw [compileStatements] at h
    obtain ⟨c, hc, h⟩ := exists_of_bind_eq_ok h
    cases h
    exact .result (compile_mirrors e hc)
  | e :: e₁ :: es =>
    -- Before the last statement, only an assignment to a slot has code.
    cases e with
    | assign aspan x value var =>
      rcases var with _ | v
      · cases h
      cases v with
      | arg | captured | global => cases h
      | slot n =>
        rw [compileStatements] at h
        · obtain ⟨c, hc, h⟩ := exists_of_bind_eq_ok h
          obtain ⟨⟨stores, result⟩, hs, h⟩ := exists_of_bind_eq_ok h
          cases h
          exact .store (compile_mirrors value hc) (compileStatements_mirrors (e₁ :: es) hs)
        · exact nofun
    | number | name | call | lambda | block | cond => cases h

end

end Expr

namespace Code

variable {P : Nat → Prop}

mutual

/-- So code is on the lines of the tree that it mirrors, and so are the routines in it. -/
theorem Mirrors.onLines {c : Code} {e : Expr} (h : c.Mirrors e) (he : ∀ l ∈ e.lines, P l) : c.OnLines P := by
  cases h with
  | number | global | load => exact ⟨List.forall_mem_nil _, trivial⟩
  | call hcallee hargs =>
    obtain ⟨hline, he⟩ := List.forall_mem_cons.1 he
    obtain ⟨he, hes⟩ := List.forall_mem_append.1 he
    have hcallee := hcallee.onLines he
    have hargs := hargs.onLines hes
    refine ⟨List.forall_mem_cons.2 ⟨hline, ?_⟩, hcallee.routines, hargs.routines⟩
    exact List.forall_mem_append.2 ⟨hcallee.own, hargs.own⟩
  | closure hbody =>
    have hbody := hbody.onLines he
    exact ⟨List.forall_mem_nil _, Routine.every_iff.2 ⟨hbody.own, hbody.routines⟩⟩
  | block h =>
    obtain ⟨hstores, hresult⟩ := h.onLines he
    exact ⟨List.forall_mem_append.2 ⟨hstores.own, hresult.own⟩, hstores.routines, hresult.routines⟩
  | cond htest hTrue hFalse =>
    obtain ⟨hline, he⟩ := List.forall_mem_cons.1 he
    obtain ⟨he₁, he⟩ := List.forall_mem_append.1 he
    obtain ⟨he₂, he₃⟩ := List.forall_mem_append.1 he
    have htest := htest.onLines he₁
    have hTrue := hTrue.onLines he₂
    have hFalse := hFalse.onLines he₃
    refine ⟨List.forall_mem_cons.2 ⟨hline, ?_⟩, htest.routines, hTrue.routines, hFalse.routines⟩
    exact List.forall_mem_append.2 ⟨htest.own, List.forall_mem_append.2 ⟨hTrue.own, hFalse.own⟩⟩

theorem MirrorsAll.onLines {cs : List Code} {es : List Expr} (h : MirrorsAll cs es)
    (hes : ∀ l ∈ Expr.linesAll es, P l) : AllOnLines P cs := by
  cases h with
  | nil => exact ⟨List.forall_mem_nil _, trivial⟩
  | cons h hs =>
    obtain ⟨he, hes⟩ := List.forall_mem_append.1 hes
    have hc := h.onLines he
    have hcs := hs.onLines hes
    exact ⟨List.forall_mem_append.2 ⟨hc.own, hcs.own⟩, hc.routines, hcs.routines⟩

theorem MirrorsBlock.onLines {stores : List Code} {result : Code} {es : List Expr} (h : MirrorsBlock stores result es)
    (hes : ∀ l ∈ Expr.linesAll es, P l) : AllOnLines P stores ∧ result.OnLines P := by
  cases h with
  | result h =>
    obtain ⟨he, -⟩ := List.forall_mem_append.1 hes
    exact ⟨⟨List.forall_mem_nil _, trivial⟩, h.onLines he⟩
  | store h hs =>
    obtain ⟨he, hes⟩ := List.forall_mem_append.1 hes
    have hc := h.onLines he
    obtain ⟨hstores, hresult⟩ := hs.onLines hes
    exact ⟨⟨List.forall_mem_append.2 ⟨hc.own, hstores.own⟩, hc.routines, hstores.routines⟩, hresult⟩

end

end Code

end ClosureLang
