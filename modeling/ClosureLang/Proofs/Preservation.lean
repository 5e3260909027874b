import ClosureLang.Proofs.Agreement
import ClosureLang.Proofs.Limits

/-!
# Programs keep their meaning

The code of a resolved program and the evaluator go in step: at each depth both have results, and the value stands for
the meaning, or both stop for the same reason. So a program that runs computes what its tree means, unless a limit of
the machine cuts it off, and none of the errors that bad code could cause ever arises.
-/

namespace ClosureLang

open ClosureLang.Frame
open Machine (Callee)

/-! ## Outcomes -/

section Outcomes

variable {α β γ δ : Type} {P : α → β → Prop} {Q : γ → δ → Prop} {x : Except RuntimeError α} {y : Except Stop β}

/-- Both have results that belong together, or both stop for the same reason. -/
def Corresponds (P : α → β → Prop) : Except RuntimeError α → Except Stop β → Prop
  | .ok a, .ok b => P a b
  | .error e, .error stop => stop.kind = some e.problem.kind
  | _, _ => False

theorem Corresponds.bind {f : α → Except RuntimeError γ} {g : β → Except Stop δ} (h : Corresponds P x y)
    (hf : ∀ a b, P a b → Corresponds Q (f a) (g b)) : Corresponds Q (x >>= f) (y >>= g) := by
  cases x <;> cases y
  case error.error => exact h
  case ok.ok => exact hf _ _ h
  all_goals exact h.elim

theorem Corresponds.map {f : α → γ} {Q : γ → β → Prop} (h : Corresponds P x y) (hf : ∀ a b, P a b → Q (f a) b) :
    Corresponds Q (x >>= fun a => pure (f a)) y := by
  cases x <;> cases y
  case error.error => exact h
  case ok.ok => exact hf _ _ h
  all_goals exact h.elim

theorem Corresponds.mono {P' : α → β → Prop} (h : Corresponds P x y) (hP : ∀ a b, P a b → P' a b) :
    Corresponds P' x y := by
  cases x <;> cases y
  case error.error => exact h
  case ok.ok => exact hP _ _ h
  all_goals exact h.elim

theorem Corresponds.mapError {g : RuntimeError → RuntimeError} (hg : ∀ e, (g e).problem = e.problem)
    (h : Corresponds P x y) : Corresponds P (x.mapError g) y := by
  cases x <;> cases y
  case error.error e stop =>
    have hkind : stop.kind = some e.problem.kind := h
    exact hkind.trans (by rw [hg])
  case ok.ok => exact h
  all_goals exact h.elim

end Outcomes

variable {t : ScopeTable} {globals : List String} {frames : List Frame} {ρ : Env} {σ : Slots}

/-! ## Calls -/

theorem Builtin.apply_corresponds (b : Builtin) {ws : List Value} {ds : List Meaning}
    (h : List.Forall₂ (Related t globals) ws ds) (hlen : ds.length = 1 ∨ ds.length = 2) :
    Corresponds (Related t globals) ((b.apply ws).mapError (RuntimeError.of · 0)) (b.denote ds) := by
  rcases h with _ | ⟨h₁, _ | ⟨h₂, _ | _⟩⟩
  · simp at hlen
  · cases h₁ <;> cases b <;> first | exact .number _ | exact .boolean _ | rfl
  · cases h₁ <;> cases h₂ <;> cases b <;>
      simp only [apply, apply₂, applyToNumbers, applyToBooleans, denote] <;>
      (try split) <;> first | exact .number _ | exact .boolean _ | rfl
  · simp at hlen

/-- Bodies give corresponding outcomes wherever the frame agrees with the environment. -/
def InStep (t : ScopeTable) (globals : List String) (body : Body) (eval : Expr → Env → Except Stop Meaning) : Prop :=
  ∀ {frames : List Frame} {e e' : Expr} {c : Code} {ρ : Env} {args : List Value} {σ : Slots},
    FramesValid t globals frames → Elab t globals frames none e e' → e'.compile t (innermost frames) = .ok c →
    Agrees t globals frames ρ args σ →
    Corresponds (fun r d => Related t globals r.1 d) (body args c σ) (eval e ρ)

/-- Both can go one level deeper, in step, or neither can. -/
def DeeperInStep (t : ScopeTable) (globals : List String) :
    Option Body → Option (Expr → Env → Except Stop Meaning) → Prop
  | none, none => True
  | some body, some eval => InStep t globals body eval
  | _, _ => False

/-- Functions can be called on both sides, and take as many arguments. -/
theorem Related.callable {w : Value} {f : Meaning} (h : Related t globals w f) :
    (Callee.ofValue? w = none ∧ f.arity? = none) ∨
      ∃ callee, Callee.ofValue? w = some callee ∧ f.arity? = some callee.arity := by
  cases h with
  | number | boolean => exact .inl ⟨rfl, rfl⟩
  | builtin b => exact .inr ⟨.builtin b, rfl, rfl⟩
  | closure valid lambda =>
    refine .inr ⟨_, rfl, ?_⟩
    simp only [Meaning.arity?, Callee.arity, Routine.ofScope, Scope.arity, lambda.params_eq]

theorem enter_corresponds (hd : t.Dense) {body : Body} {eval : Expr → Env → Except Stop Meaning}
    (hrun : InStep t globals body eval) {w : Value} {f : Meaning} (hf : Related t globals w f) {callee : Callee}
    (hc : Callee.ofValue? w = some callee) {ws : List Value} {ds : List Meaning}
    (hargs : List.Forall₂ (Related t globals) ws ds) (harity : ws.length = callee.arity) :
    Corresponds (Related t globals) (Activation.enter body callee ws) (f.apply (some eval) ds) := by
  have hlen := hargs.length_eq
  cases hf with
  | number | boolean => cases hc
  | builtin b =>
    cases hc
    refine b.apply_corresponds hargs ?_
    rw [← hlen, harity]
    cases b <;> simp [Callee.arity, Builtin.arity]
  | @closure frames id params self s e e' code captured env valid lambda tree compiled length bound captures free =>
    cases hc
    have hparams : ws.length = params.length := by
      rw [harity, ← lambda.params_eq]
      rfl
    have hcaptured : Captured t globals env (capturedNames s.captures) captured :=
      ⟨length, fun hx hw => (bound _ (List.mem_of_getElem? hx)).imp fun _ hd => ⟨hd, captures hx hw hd⟩⟩
    obtain ⟨σ, hσ, hagrees⟩ := Agrees.enter hd lambda
      (.closure valid lambda tree compiled length bound captures free) hcaptured free (hlen ▸ hparams) hparams
      fun {i w d} hw hd => by
        obtain ⟨hi, rfl⟩ := List.getElem?_eq_some_iff.1 hw
        obtain ⟨hi', rfl⟩ := List.getElem?_eq_some_iff.1 hd
        exact hargs.get hi hi'
    rw [Activation.enter]
    simp only [Routine.ofScope] at hσ ⊢
    rw [hσ]
    have hframes : FramesValid t globals (.lambda id params self :: frames) := ⟨⟨s, lambda⟩, valid⟩
    exact (hrun hframes tree compiled hagrees).map fun _ _ h => h

theorem call_corresponds (hd : t.Dense) {a : Activation} {deeper : Option (Expr → Env → Except Stop Meaning)}
    (hdeeper : DeeperInStep t globals a.deeper deeper) {w : Value} {f : Meaning} (hf : Related t globals w f)
    {callee : Callee} (hc : Callee.ofValue? w = some callee) {ws : List Value} {ds : List Meaning}
    (hargs : List.Forall₂ (Related t globals) ws ds) (line : Nat) :
    Corresponds (Related t globals) (a.call callee ws line)
      (if ds.length ≠ callee.arity then .error .arityMismatch else f.apply deeper ds) := by
  rw [Activation.call, ← hargs.length_eq]
  split
  case isTrue => rfl
  case isFalse harity =>
  cases hbody : a.deeper with
  | none =>
    cases deeper with
    | none => rfl
    | some eval => rw [hbody] at hdeeper; exact hdeeper.elim
  | some body =>
    rw [hbody] at hdeeper
    cases deeper with
    | none => exact hdeeper.elim
    | some eval =>
      exact (enter_corresponds hd hdeeper hf hc hargs (by simpa using harity)).mapError fun e => by simp

/-! ## Trees -/

/-- The code for a name gets what the name stands for. -/
theorem Agrees.access {a : Activation} (hglobals : a.globals = Prelude.standard) {x : String} {v : Var}
    (h : Agrees t Prelude.standard.names frames ρ a.args σ) (hx : Refers t Prelude.standard.names x frames v) :
    ∃ w, a.eval (v.access t) σ = .ok (w, σ) ∧ Stands t Prelude.standard.names ρ x w := by
  cases v with
  | global i =>
    have hb : Bound x frames = false := by
      cases hb : Bound x frames with
      | false => rfl
      | true => exact absurd hx (Refers.not_global hb)
    obtain ⟨j, hj, hij⟩ := (refers_iff_global hb).1 hx
    cases hij
    obtain ⟨w, hw, hstands⟩ := standard_stands hj
    refine ⟨w, ?_, by rwa [Stands, h.free hb]⟩
    rw [Var.access, Activation.eval, hglobals, hw]
  | arg | slot | captured =>
    obtain ⟨w, hw, hstands⟩ := h.cells hx (by simp)
    refine ⟨w, ?_, hstands⟩
    rw [Var.access, Activation.eval, Activation.load, hw]
    · rfl
    · simp

/-- Stores one after the other, with what follows them. -/
theorem Activation.evalAll_store {α : Type} (a : Activation) (n : Nat) (c : Code) (stores : List Code) (σ : Slots)
    (k : Slots → Except RuntimeError α) :
    a.evalAll (.store n c :: stores) σ >>= k =
      a.eval c σ >>= fun r => a.evalAll stores (r.2.set n r.1) >>= k := by
  rw [evalAll, eval]
  simp only [bind_assoc, pure_bind, Int.toNat_natCast]

mutual

/-- Code of a resolved tree and the evaluator go in step. The slots that are in use keep their values. -/
theorem eval_corresponds {t : ScopeTable} (hd : t.Dense) {a : Activation} (hglobals : a.globals = Prelude.standard)
    {deeper : Option (Expr → Env → Except Stop Meaning)}
    (hdeeper : DeeperInStep t Prelude.standard.names a.deeper deeper) (e : Expr) {frames : List Frame}
    {binding : Option String} {e' : Expr} {c : Code} {ρ : Env} {σ : Slots}
    (h : Elab t Prelude.standard.names frames binding e e') (hc : e'.compile t (innermost frames) = .ok c)
    (hv : FramesValid t Prelude.standard.names frames) (hag : Agrees t Prelude.standard.names frames ρ a.args σ) :
    Corresponds (fun r d => Related t Prelude.standard.names r.1 d ∧ Keeps t frames σ r.2) (a.eval c σ)
      (e.evalWith deeper binding ρ) := by
  cases e with
  | number span x =>
    obtain rfl := h
    cases hc
    exact ⟨.number x, .refl t frames σ⟩
  | name span x _ =>
    obtain ⟨v, hx, rfl⟩ := h
    rw [hx.compile hd hv span] at hc
    cases hc
    obtain ⟨w, hw, d, hlookup, hrelated⟩ := hag.access hglobals hx
    rw [hw, Expr.evalWith, hlookup]
    exact ⟨hrelated, .refl t frames σ⟩
  | call span callee args =>
    obtain ⟨callee', args', hcallee, hargs, rfl⟩ := h
    obtain ⟨f, hf, hc⟩ := exists_of_bind_eq_ok hc
    obtain ⟨cs, hcs, hc⟩ := exists_of_bind_eq_ok hc
    cases hc
    rw [Activation.eval, Expr.evalWith]
    refine (eval_corresponds hd hglobals hdeeper callee hcallee hf hv hag).bind ?_
    rintro ⟨w, σ₁⟩ d ⟨hw, hk₁⟩
    dsimp only
    rcases hw.callable with ⟨hnone, hnone'⟩ | ⟨found, hfound, harity⟩
    · rw [hnone, hnone']
      rfl
    rw [hfound, harity]
    -- Blocks inside the callee may have used free slots, but none that a name refers to.
    refine (evalArgs_corresponds hd hglobals hdeeper args hargs hcs hv (hag.keeps hv hk₁)).bind ?_
    rintro ⟨ws, σ₂⟩ ds ⟨hws, hk₂⟩
    exact (call_corresponds hd hdeeper hw hfound hws span.line).map fun _ _ h => ⟨h, hk₁.trans hk₂⟩
  | lambda span params body _ label =>
    obtain ⟨params', names, id, s, body', hparams, hlambda, hname, hbody, rfl⟩ := h
    obtain ⟨-, -, -, hnames⟩ := (@Resolver.bindParams_ok_iff 0 [] names params).1 (by rw [hparams])
    obtain rfl : names = Expr.paramNames params := hnames
    obtain ⟨_, hlayout, hc⟩ := exists_of_bind_eq_ok hc
    cases (hlambda.layout hd hv _).symm.trans hlayout
    obtain ⟨code, hcode, hc⟩ := exists_of_bind_eq_ok hc
    cases hc
    obtain ⟨ws, hws, hcaptured⟩ := hag.captured hlambda.captures
    have hsources : a.loadAll σ (Routine.ofScope s (s.captures.map t.load) code).sources = .ok ws := hws
    rw [Activation.eval, hsources, Expr.evalWith, ← hname]
    exact ⟨.ofCaptured hv hlambda hbody hcode hcaptured hag.free, .refl t frames σ⟩
  | block span statements =>
    obtain ⟨locals, statements', hblock, hpending, -, hstatements, rfl⟩ := h
    obtain ⟨⟨stores, result⟩, hcs, hc⟩ := exists_of_bind_eq_ok hc
    cases hc
    rw [Activation.eval, Expr.evalWith]
    exact evalStatements_corresponds hd hglobals hdeeper statements hstatements hcs ⟨hblock, hv⟩
      (hag.block (innermost frames) hpending)
  | assign => cases h
  | cond span test onTrue onFalse =>
    obtain ⟨test', onTrue', onFalse', htest, htrue, hfalse, rfl⟩ := h
    obtain ⟨c₀, hc₀, hc⟩ := exists_of_bind_eq_ok hc
    obtain ⟨c₁, hc₁, hc⟩ := exists_of_bind_eq_ok hc
    obtain ⟨c₂, hc₂, hc⟩ := exists_of_bind_eq_ok hc
    cases hc
    rw [Activation.eval, Expr.evalWith]
    refine (eval_corresponds hd hglobals hdeeper test htest hc₀ hv hag).bind ?_
    rintro ⟨w, σ₁⟩ d ⟨hw, hk₁⟩
    have hag₁ := hag.keeps hv hk₁
    cases hw with
    | number | builtin | closure => rfl
    | boolean b =>
      cases b with
      | true =>
        exact (eval_corresponds hd hglobals hdeeper onTrue htrue hc₁ hv hag₁).mono
          fun _ _ ⟨h, hk₂⟩ => ⟨h, hk₁.trans hk₂⟩
      | false =>
        exact (eval_corresponds hd hglobals hdeeper onFalse hfalse hc₂ hv hag₁).mono
          fun _ _ ⟨h, hk₂⟩ => ⟨h, hk₁.trans hk₂⟩

theorem evalArgs_corresponds {t : ScopeTable} (hd : t.Dense) {a : Activation} (hglobals : a.globals = Prelude.standard)
    {deeper : Option (Expr → Env → Except Stop Meaning)}
    (hdeeper : DeeperInStep t Prelude.standard.names a.deeper deeper) (es : List Expr) {frames : List Frame}
    {es' : List Expr} {cs : List Code} {ρ : Env} {σ : Slots}
    (h : ElabAll t Prelude.standard.names frames es es') (hc : Expr.compileAll t (innermost frames) es' = .ok cs)
    (hv : FramesValid t Prelude.standard.names frames) (hag : Agrees t Prelude.standard.names frames ρ a.args σ) :
    Corresponds (fun r ds => List.Forall₂ (Related t Prelude.standard.names) r.1 ds ∧ Keeps t frames σ r.2)
      (a.evalArgs cs σ) (Expr.evalArgs deeper es ρ) := by
  cases es with
  | nil =>
    obtain rfl := h
    cases hc
    exact ⟨.nil, .refl t frames σ⟩
  | cons e es =>
    obtain ⟨e', rest', he, hes, rfl⟩ := h
    obtain ⟨c, hce, hc⟩ := exists_of_bind_eq_ok hc
    obtain ⟨cs, hcs, hc⟩ := exists_of_bind_eq_ok hc
    cases hc
    rw [Activation.evalArgs, Expr.evalArgs]
    refine (evalArgs_corresponds hd hglobals hdeeper es hes hcs hv hag).bind ?_
    rintro ⟨ws, σ₁⟩ ds ⟨hws, hk₁⟩
    refine (eval_corresponds hd hglobals hdeeper e he hce hv (hag.keeps hv hk₁)).bind ?_
    rintro ⟨w, σ₂⟩ d ⟨hw, hk₂⟩
    exact ⟨.cons hw hws, hk₁.trans hk₂⟩

theorem evalStatements_corresponds {t : ScopeTable} (hd : t.Dense) {a : Activation}
    (hglobals : a.globals = Prelude.standard) {deeper : Option (Expr → Env → Except Stop Meaning)}
    (hdeeper : DeeperInStep t Prelude.standard.names a.deeper deeper) (es : List Expr) {owner : Nat}
    {locals : List BlockLocal} {outer : List Frame} {es' : List Expr} {span : Span} {stores : List Code} {result : Code}
    {ρ : Env} {σ : Slots} (h : ElabStatements t Prelude.standard.names (.block owner locals :: outer) es es')
    (hc : Expr.compileStatements t owner span es' = .ok (stores, result))
    (hv : FramesValid t Prelude.standard.names (.block owner locals :: outer))
    (hag : Agrees t Prelude.standard.names (.block owner locals :: outer) ρ a.args σ) :
    Corresponds (fun r d => Related t Prelude.standard.names r.1 d ∧ Keeps t outer σ r.2)
      (a.evalAll stores σ >>= a.eval result) (Expr.evalStatements deeper es ρ) := by
  -- Outside the block only the slots that were in use before it count.
  have hwider {σ' : Slots} (hk : Keeps t (.block owner locals :: outer) σ σ') : Keeps t outer σ σ' :=
    fun n hn => hk n ((reserved_block hv.1).2 (.inr hn))
  cases h.blockForm with
  | @result e he =>
    obtain ⟨e', hresult, rfl⟩ := elabStatements_result.1 h
    obtain ⟨c, hcode, hc⟩ := exists_of_bind_eq_ok hc
    cases hc
    rw [Activation.evalAll, Expr.evalStatements]
    exact (eval_corresponds hd hglobals hdeeper e hresult hcode hv hag).mono fun _ _ ⟨h, hk⟩ => ⟨h, hwider hk⟩
  | @assign aspan x value var es hform =>
    obtain ⟨n, value', rest', hslot, hvalue, hrest, rfl⟩ := (elabStatements_assign hform).1 h
    obtain ⟨e₁, rest₁, rfl⟩ := List.exists_cons_of_ne_nil hrest.ne_nil
    rw [Expr.compileStatements] at hc
    · obtain ⟨c, hcode, hc⟩ := exists_of_bind_eq_ok hc
      obtain ⟨⟨stores', result'⟩, hcodes, hc⟩ := exists_of_bind_eq_ok hc
      cases hc
      rw [Activation.evalAll_store, Expr.evalStatements_assign hform]
      refine (eval_corresponds hd hglobals hdeeper value hvalue hcode ((framesValid_mark x .defining).2 hv)
        (hag.defining hslot)).bind ?_
      rintro ⟨w, σ₁⟩ d ⟨hw, hk₁⟩
      have hk₁ : Keeps t (.block owner locals :: outer) σ σ₁ := fun m hm => hk₁ m ((reserved_mark x .defining).2 hm)
      have hag₂ := (hag.keeps hv hk₁).assign hd hv hslot hw
      -- The slot that is assigned belongs to this block, so nothing around the block uses it.
      have hk₂ : Keeps t outer σ (σ₁.set n w) := by
        obtain ⟨l, hl, rfl⟩ := Option.map_eq_some_iff.1 hslot
        intro m hm
        have hne : m ≠ l.slot := by
          rintro rfl
          exact hv.1.not_reserved hd (List.mem_map_of_mem (List.mem_of_find?_eq_some hl)) hm
        rw [Slots.set_ne σ₁ w hne, hwider hk₁ m hm]
      exact (evalStatements_corresponds hd hglobals hdeeper es hrest hcodes ((framesValid_mark x .defined).2 hv)
        hag₂).mono fun _ _ ⟨h, hk₃⟩ => ⟨h, hk₂.trans hk₃⟩
    · simp

end

/-! ## Programs -/

/-- At every depth bodies go in step. -/
theorem levels_inStep {t : ScopeTable} (hd : t.Dense) (limit n : Nat) :
    DeeperInStep t Prelude.standard.names (Activation.levels limit Prelude.standard n) (Expr.levels n) := by
  induction n with
  | zero => trivial
  | succ n ih =>
    intro frames e e' c ρ args σ hv h hc hag
    rw [Expr.evalWithin_eq]
    let a : Activation := ⟨limit, Prelude.standard, Activation.levels limit Prelude.standard n, args⟩
    have hcorresponds : Corresponds _ (a.eval c σ) _ := eval_corresponds hd rfl ih e h hc hv hag
    exact hcorresponds.mono fun _ _ => And.left

/-- The code of the program keeps to its frames, and goes in step with the evaluation of the tree. -/
structure Program.Implements (t : ScopeTable) (globals : List String) (e : Expr) (p : Program) : Prop where
  fits : p.Every Routine.Fits
  arity : p.main.arity = 0
  corresponds : ∀ limit, Corresponds (Related t globals) (p.eval limit) (e.evalWithin limit Env.standard)

/-- A resolved program can be compiled, and the result implements its tree. -/
theorem ResolvedProgram.implements {e e' : Expr} (h : ResolvedProgram Prelude.standard.names e e' t) :
    ∃ p, e'.toProgram t Prelude.standard = .ok p ∧ p.Implements t Prelude.standard.names e := by
  obtain ⟨s, c, -, hc, harity, hevery, hprogram⟩ := h.program Prelude.standard
  obtain ⟨s', hmain⟩ := h.main
  refine ⟨_, hprogram, ⟨hevery, Prelude.plain_standard.every⟩, harity, fun limit => ?_⟩
  -- At the start no name refers to a cell, since there is nothing but the prelude.
  have hag : Agrees t Prelude.standard.names [Frame.main] Env.standard [] Slots.empty := by
    refine ⟨fun {x v} hx hglobal => ?_, fun _ => rfl⟩
    obtain ⟨i, -, rfl⟩ := (refers_iff_global (by simp [Frame.main, Bound, declares])).1 hx
    exact absurd rfl (hglobal i)
  rw [Expr.evalWithin_eq, Program.eval]
  let a : Activation := ⟨limit, Prelude.standard, Activation.levels limit Prelude.standard limit, []⟩
  have hcorresponds : Corresponds _ (a.eval c Slots.empty) _ :=
    eval_corresponds h.dense rfl (levels_inStep h.dense limit limit) e h.tree hc ⟨⟨s', hmain⟩, trivial⟩ hag
  exact hcorresponds.map fun _ _ => And.left

/-- How a run ends: with a value that stands for what the tree denotes, with the error for which its evaluation stops,
or because there is no room on the stack. -/
theorem run_outcome {e : Expr} {p : Program} (h : p.Implements t globals e) (m : Machine) :
    Machine.wp (Machine.run p)
      (fun v _ => ∃ d, e.evalWithin m.limits.maxCallDepth Env.standard = .ok d ∧ Related t globals v d)
      (fun err _ => err.problem = .stackFull ∨
        ∃ stop, e.evalWithin m.limits.maxCallDepth Env.standard = .error stop ∧
          stop.kind = some err.problem.kind) m := by
  have hlimit := h.corresponds m.limits.maxCallDepth
  refine Machine.wp_mono (Machine.run_follows h.fits h.arity m) ?_ fun err m' herr => ?_
  · rintro v m' ⟨_, hv, rfl⟩
    rw [hv] at hlimit
    cases he : e.evalWithin m.limits.maxCallDepth Env.standard with
    | ok d => rw [he] at hlimit; exact ⟨d, rfl, hlimit⟩
    | error stop => rw [he] at hlimit; exact hlimit.elim
  · refine herr.imp_right fun herr => ?_
    rw [herr] at hlimit
    cases he : e.evalWithin m.limits.maxCallDepth Env.standard with
    | ok d => rw [he] at hlimit; exact hlimit.elim
    | error stop => rw [he] at hlimit; exact ⟨stop, rfl, hlimit⟩

/-- A program whose names were resolved can be compiled, and none of the faults of the stack arises when it runs. -/
theorem Resolver.program_never_faults {e e' : Expr} {r : Resolver}
    (h : (Resolver.new Prelude.standard.names).program e = .done e' r) :
    ∃ p, e'.toProgram r.scopes Prelude.standard = .ok p ∧
      ∀ (m m' : Machine) (err : RuntimeError), Machine.run p m = .error err m' →
        err.problem.kind ∈
          [.notCallable, .typeMismatch, .arityMismatch, .divisionByZero, RuntimeKind.stackOverflow] := by
  obtain ⟨p, hprogram, hp⟩ := (program_sound h).implements
  refine ⟨p, hprogram, fun m m' err herr => ?_⟩
  rcases Machine.wp_error (run_outcome hp m) herr with hfull | ⟨stop, -, hkind⟩
  · rw [hfull]
    decide
  · cases stop <;> simp_all [Stop.kind]

/-- `{ f = b -> if b then f(not(b)) else add(b, b); f(true) }`, with places filled in that are all wrong. -/
def misplacedNames : Expr :=
  let x (name : String) : Expr := .name default name (some (.slot 99))
  .block default
    [.assign default "f" (.lambda default [x "b"]
        (.cond default (x "b") (.call default (x "f") [.call default (x "not") [x "b"]])
          (.call default (x "add") [x "b", x "b"])) (some 7) none) (some (.global 3)),
      .call default (x "f") [x "true"]]

theorem Resolver.program_never_faults_misplacedNames :
    ∃ e' r p m' err, (Resolver.new Prelude.standard.names).program misplacedNames = .done e' r ∧
      e'.toProgram r.scopes Prelude.standard = .ok p ∧ Machine.run p (Machine.new ⟨4, 32⟩) = .error err m' ∧
      err.problem.kind = .typeMismatch ∧
      err.problem.kind ∈
        [.notCallable, .typeMismatch, .arityMismatch, .divisionByZero, RuntimeKind.stackOverflow] := by
  have hrun : (match (Resolver.new Prelude.standard.names).program misplacedNames with
      | .failed _ _ _ => false
      | .done e' r =>
        match e'.toProgram r.scopes Prelude.standard with
        | .error _ => false
        | .ok p =>
          match Machine.run p (Machine.new ⟨4, 32⟩) with
          | .ok _ _ => false
          | .error err _ => decide (err.problem.kind = .typeMismatch)) = true := by cbv
  cases hresolved : (Resolver.new Prelude.standard.names).program misplacedNames with
  | failed e' error r => rw [hresolved] at hrun; cases hrun
  | done e' r =>
    obtain ⟨p, hprogram, hnever⟩ := program_never_faults hresolved
    simp only [hresolved, hprogram] at hrun
    cases hm : Machine.run p (Machine.new ⟨4, 32⟩) with
    | ok v m' => rw [hm] at hrun; cases hrun
    | error err m' =>
      rw [hm] at hrun
      exact ⟨e', r, p, m', err, rfl, hprogram, hm, of_decide_eq_true hrun, hnever _ _ _ hm⟩

section Limits

variable {e : Expr} {p : Program} {d : Meaning}

/-- A program that has a value computes it, or gives up at a limit. -/
theorem run_evaluates (h : p.Implements t globals e) (he : e.Evaluates d) (m : Machine) :
    Machine.wp (Machine.run p) (fun v _ => Related t globals v d)
      (fun err _ => err.problem.kind = .stackOverflow) m := by
  have hwithin := he.within m.limits.maxCallDepth
  refine Machine.wp_mono (run_outcome h m) ?_ ?_
  · rintro v m' ⟨d', hd', hv⟩
    rcases hwithin with hd | hdeep
    · cases hd.symm.trans hd'
      exact hv
    · cases hdeep.symm.trans hd'
  · rintro err m' (hfull | ⟨stop, hstop, hkind⟩)
    · rw [hfull]
      rfl
    · rcases hwithin with hd | hdeep
      · cases hd.symm.trans hstop
      · cases hdeep.symm.trans hstop
        exact (Option.some.inj hkind).symm

/-- With enough room and depth the program computes its value. -/
theorem run_evaluates_of_limits (h : p.Implements t globals e) (he : e.Evaluates d) :
    ∃ l : Limits, ∀ m : Machine, l.maxCallDepth ≤ m.limits.maxCallDepth → l.maxStack ≤ m.limits.maxStack →
      ∃ v m', Machine.run p m = .ok v m' ∧ Related t globals v d := by
  obtain ⟨depth, hdepth⟩ := he
  obtain ⟨room, hroom⟩ := Machine.settles_run p (Machine.new ⟨depth, 0⟩)
  refine ⟨⟨depth, room⟩, fun m hcalls hstack => ?_⟩
  -- On the machine with just these limits the program neither goes too deep nor runs out of room.
  let m₀ := (Machine.new ⟨depth, 0⟩).under ⟨depth, room⟩ none
  have hok : ∃ v m₁, Machine.run p m₀ = .ok v m₁ := by
    cases hrun : Machine.run p m₀ with
    | ok v m₁ => exact ⟨v, m₁, rfl⟩
    | error err m₁ =>
      have hnotFull := Machine.wp_error (hroom room (Nat.le_refl room) none) hrun
      rcases Machine.wp_error (run_outcome h m₀) hrun with hfull | ⟨stop, hstop, -⟩
      · exact absurd hfull hnotFull
      · cases hdepth.symm.trans hstop
  obtain ⟨v, m₁, hrun⟩ := hok
  have hraised : Machine.Raised (fun problem => problem.kind = .stackOverflow) m₀.limits m.limits :=
    ⟨hstack, rfl, .inr ⟨hcalls, fun _ => rfl⟩⟩
  obtain ⟨m₂, hrun'⟩ := Machine.wp_ok (Machine.carries_run hraised p) hrun
  exact ⟨v, m₂, hrun', Machine.wp_ok (run_evaluates h ⟨depth, hdepth⟩ m) hrun'⟩

end Limits

/-- A program whose names were resolved computes what its tree means. What a run returns stands for what the tree
evaluates to, and if the tree evaluates to something, then a run returns that or gives up at a limit, and it does
return it when both limits are large enough. -/
theorem Resolver.program_preserves_meaning {e e' : Expr} {r : Resolver}
    (h : (Resolver.new Prelude.standard.names).program e = .done e' r) :
    ∃ p, e'.toProgram r.scopes Prelude.standard = .ok p ∧
      (∀ (m m' : Machine) (v : Value), Machine.run p m = .ok v m' →
        ∃ d, e.Evaluates d ∧ Related r.scopes Prelude.standard.names v d) ∧
      ∀ d, e.Evaluates d →
        (∀ m : Machine, (∃ v m', Machine.run p m = .ok v m' ∧ Related r.scopes Prelude.standard.names v d) ∨
          ∃ err m', Machine.run p m = .error err m' ∧ err.problem.kind = .stackOverflow) ∧
        ∃ l : Limits, ∀ m : Machine, l.maxCallDepth ≤ m.limits.maxCallDepth → l.maxStack ≤ m.limits.maxStack →
          ∃ v m', Machine.run p m = .ok v m' ∧ Related r.scopes Prelude.standard.names v d := by
  obtain ⟨p, hprogram, hp⟩ := (program_sound h).implements
  refine ⟨p, hprogram, fun m m' v hrun => ?_, fun d he => ⟨fun m => ?_, ?_⟩⟩
  · obtain ⟨d, hd, hv⟩ := Machine.wp_ok (run_outcome hp m) hrun
    exact ⟨d, ⟨_, hd⟩, hv⟩
  · have hrun := run_evaluates hp he m
    cases hm : Machine.run p m with
    | ok v m' => exact .inl ⟨v, m', rfl, Machine.wp_ok hrun hm⟩
    | error err m' => exact .inr ⟨err, m', rfl, Machine.wp_error hrun hm⟩
  · exact run_evaluates_of_limits hp he

/-- `{ flip = b -> not(b); settle = b -> if b then settle(flip(b)) else flip(b); settle(true) }`: a function that
captures another one and itself. -/
def settledFlip : Expr :=
  let x (name : String) : Expr := .name default name none
  .block default
    [.assign default "flip" (.lambda default [x "b"] (.call default (x "not") [x "b"]) none none) none,
      .assign default "settle" (.lambda default [x "b"]
        (.cond default (x "b") (.call default (x "settle") [.call default (x "flip") [x "b"]])
          (.call default (x "flip") [x "b"])) none none) none,
      .call default (x "settle") [x "true"]]

theorem Resolver.program_preserves_meaning_settledFlip : settledFlip.Evaluates (.boolean true) ∧
    ∃ e' r p, (Resolver.new Prelude.standard.names).program settledFlip = .done e' r ∧
      e'.toProgram r.scopes Prelude.standard = .ok p ∧
      ∃ l : Limits, ∀ m : Machine, l.maxCallDepth ≤ m.limits.maxCallDepth → l.maxStack ≤ m.limits.maxStack →
        ∃ m', Machine.run p m = .ok (.boolean true) m' := by
  have hscoped : settledFlip.WellScoped Prelude.standard.names [] := by
    simp [settledFlip, Expr.WellScoped, Expr.AllWellScoped, Expr.StatementsWellScoped, Expr.assigned, Expr.paramNames,
      Expr.asName?, Expr.isLambda, Reach.Allows, List.lookup, Prelude.standard, Prelude.names, Builtin.all,
      Builtin.name]
  have heval : settledFlip.Evaluates (.boolean true) := ⟨4, rfl⟩
  obtain ⟨e', r, hresolved⟩ := program_succeeds_iff.2 hscoped
  obtain ⟨p, hprogram, -, hmeaning⟩ := program_preserves_meaning hresolved
  obtain ⟨l, hl⟩ := (hmeaning _ heval).2
  refine ⟨heval, e', r, p, hresolved, hprogram, l, fun m hcalls hstack => ?_⟩
  obtain ⟨v, m', hrun, hv⟩ := hl m hcalls hstack
  cases hv
  exact ⟨m', hrun⟩

end ClosureLang
