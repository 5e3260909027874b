import ClosureLang.Proofs.Routines

/-!
# Limits only cut off

A machine never looks at its limits except to give up, and never at its record of calls. So a step that does not give up
goes on in the same way when the limits are raised or calls are recorded. When calls may nest only so deep, there is
always a stack with enough room for all of them.

`Carries` compares a step under one pair of limits with a step under another pair. Two steps are named because the
code of a function runs with fewer levels left on the smaller machine.
-/

namespace ClosureLang.Machine

variable {α β : Type}

/-- The machine with other limits and another record of calls. -/
def under (m : Machine) (limits : Limits) (calls : Option (Array CallEvent)) : Machine := { m with limits, calls }

@[simp] theorem limits_under (m : Machine) (l : Limits) (calls : Option (Array CallEvent)) :
    (m.under l calls).limits = l :=
  rfl

@[simp] theorem stack_under (m : Machine) (l : Limits) (calls : Option (Array CallEvent)) :
    (m.under l calls).stack = m.stack := rfl

@[simp] theorem index?_under (m : Machine) (l : Limits) (calls : Option (Array CallEvent)) (offset : Int) :
    (m.under l calls).index? offset = m.index? offset := rfl

@[simp] theorem accumulator_under (m : Machine) (l : Limits) (calls : Option (Array CallEvent)) :
    (m.under l calls).accumulator = m.accumulator := rfl

/-- Unless it ends in a problem of `Cut`, the step `f` on a machine with the limits `l` ends like the step `g` on the
same machine with the limits `l'` and any record of calls. -/
def Carries (Cut : RuntimeProblem → Prop) (l l' : Limits) (f g : Step α) (m : Machine) : Prop :=
  ∀ calls, wp f (fun a m₁ => m₁.limits = l ∧ ∃ calls₁, g (m.under l' calls) = .ok a (m₁.under l' calls₁))
    (fun e m₁ => Cut e.problem ∨ ∃ calls₁, g (m.under l' calls) = .error e (m₁.under l' calls₁)) m

section Carries

variable {Cut : RuntimeProblem → Prop} {l l' : Limits} {m : Machine}

theorem Carries.pure {a : α} (hm : m.limits = l) : Carries Cut l l' (pure a) (pure a) m :=
  fun calls => ⟨hm, calls, rfl⟩

theorem Carries.throw {e : RuntimeError} : Carries Cut l l' (throw e : Step α) (throw e) m :=
  fun calls => .inr ⟨calls, rfl⟩

theorem Carries.bind {f g : Step β} {h k : β → Step α} (hf : Carries Cut l l' f g m)
    (hh : ∀ b m₁, m₁.limits = l → Carries Cut l l' (h b) (k b) m₁) : Carries Cut l l' (f >>= h) (g >>= k) m := by
  intro calls
  rw [wp_bind]
  refine wp_mono (hf calls) (fun b m₁ ⟨hl, calls₁, hg⟩ => ?_) (fun e m₁ he => ?_)
  · refine wp_mono (hh b m₁ hl calls₁) (fun a m₂ ⟨hl₂, calls₂, hk⟩ => ⟨hl₂, calls₂, ?_⟩) (fun e m₂ he => ?_)
    · simp only [Bind.bind, EStateM.bind, hg, hk]
    · refine he.imp id fun ⟨calls₂, hk⟩ => ⟨calls₂, ?_⟩
      simp only [Bind.bind, EStateM.bind, hg, hk]
  · refine he.imp id fun ⟨calls₁, hg⟩ => ⟨calls₁, ?_⟩
    simp only [Bind.bind, EStateM.bind, hg]

theorem Carries.get_bind {h k : Machine → Step α} (hk : ∀ calls, k (m.under l' calls) = k (m.under l' none))
    (hh : Carries Cut l l' (h m) (k (m.under l' none)) m) : Carries Cut l l' (get >>= h) (get >>= k) m := by
  intro calls
  refine wp_mono (hh calls) (fun a m₁ ⟨hl, calls₁, hg⟩ => ⟨hl, calls₁, ?_⟩)
    (fun e m₁ he => he.imp id fun ⟨calls₁, hg⟩ => ⟨calls₁, ?_⟩)
  · rw [← hk calls] at hg
    exact hg
  · rw [← hk calls] at hg
    exact hg

theorem Carries.adaptExcept {f g : Step α} {adapt : RuntimeError → RuntimeError} (hf : Carries Cut l l' f g m)
    (ha : ∀ e, (adapt e).problem = e.problem) :
    Carries Cut l l' (f.adaptExcept adapt) (g.adaptExcept adapt) m := by
  intro calls
  rw [wp_adaptExcept]
  refine wp_mono (hf calls) (fun a m₁ ⟨hl, calls₁, hg⟩ => ⟨hl, calls₁, ?_⟩) (fun e m₁ he => ?_)
  · simp only [EStateM.adaptExcept, hg]
  · rw [ha]
    refine he.imp id fun ⟨calls₁, hg⟩ => ⟨calls₁, ?_⟩
    simp only [EStateM.adaptExcept, hg]

end Carries

/-! ## Steps that do not look at the limits -/

/-- A step that does not look at the limits and does not change them. It does not give up either. -/
def Blind (f : Step α) : Prop :=
  ∀ m l' calls, wp f (fun a m₁ => m₁.limits = m.limits ∧ ∃ calls₁, f (m.under l' calls) = .ok a (m₁.under l' calls₁))
    (fun e m₁ => e.problem.kind ≠ .stackOverflow ∧ ∃ calls₁, f (m.under l' calls) = .error e (m₁.under l' calls₁)) m

theorem Blind.carries {Cut : RuntimeProblem → Prop} {l l' : Limits} {m : Machine} {f : Step α} (h : Blind f)
    (hm : m.limits = l) : Carries Cut l l' f f m :=
  fun calls => wp_mono (h m l' calls) (fun _ _ ⟨hl, hf⟩ => ⟨hl.trans hm, hf⟩) fun _ _ ⟨_, hf⟩ => .inr hf

theorem blind_bind {f : Step β} {h : β → Step α} (hf : Blind f) (hh : ∀ b, Blind (h b)) : Blind (f >>= h) := by
  intro m l' calls
  rw [wp_bind]
  refine wp_mono (hf m l' calls) (fun b m₁ ⟨hl, calls₁, hg⟩ => ?_) (fun e m₁ ⟨he, calls₁, hg⟩ => ⟨he, calls₁, ?_⟩)
  · refine wp_mono (hh b m₁ l' calls₁) (fun a m₂ ⟨hl₂, calls₂, hk⟩ => ⟨hl₂.trans hl, calls₂, ?_⟩)
      (fun e m₂ ⟨he, calls₂, hk⟩ => ⟨he, calls₂, ?_⟩)
    · simp only [Bind.bind, EStateM.bind, hg, hk]
    · simp only [Bind.bind, EStateM.bind, hg, hk]
  · simp only [Bind.bind, EStateM.bind, hg]

theorem blind_pure (a : α) : Blind (pure a : Step α) := fun _ _ calls => ⟨rfl, calls, rfl⟩

theorem blind_throw {e : RuntimeError} (h : e.problem.kind ≠ .stackOverflow) : Blind (throw e : Step α) :=
  fun _ _ calls => ⟨h, calls, rfl⟩

theorem blind_fault {problem : RuntimeProblem} (h : problem.kind ≠ .stackOverflow) : Blind (fault problem : Step α) :=
  fun _ _ calls => ⟨h, calls, rfl⟩

theorem blind_setAccumulator (v : Value) : Blind (setAccumulator v) := fun _ _ calls => ⟨rfl, calls, rfl⟩

theorem blind_reset : Blind (modify reset) := fun _ _ calls => ⟨rfl, calls, rfl⟩

theorem blind_leave : Blind (modify fun m => { m with depth := m.depth - 1 }) := fun _ _ calls => ⟨rfl, calls, rfl⟩

theorem blind_openFrame (function : String) (argc : Nat) : Blind (openFrame function argc) :=
  fun _ _ _ => ⟨rfl, _, rfl⟩

theorem blind_load (offset : Int) : Blind (load offset) := by
  intro m l' calls
  rw [wp_load, load]
  cases hi : m.index? offset with
  | none => exact ⟨by simp [outOfBounds, RuntimeProblem.kind], calls, by simp only [index?_under, hi]; rfl⟩
  | some i =>
    simp only [index?_under, hi, stack_under]
    cases m.stack.getD i .unset with
    | value v => exact ⟨trivial, calls, rfl⟩
    | unset => exact ⟨by simp [RuntimeProblem.kind], calls, rfl⟩
    | base saved => exact ⟨by simp [RuntimeProblem.kind], calls, rfl⟩

theorem blind_store (offset : Int) (v : Value) : Blind (store offset v) := by
  intro m l' calls
  rw [wp_store, store]
  cases hi : m.index? offset with
  | none => exact ⟨by simp [outOfBounds, RuntimeProblem.kind], calls, by simp only [index?_under, hi]; rfl⟩
  | some i => exact ⟨rfl, calls, by simp only [index?_under, hi]; rfl⟩

theorem blind_loadGlobal (index : Nat) : Blind (loadGlobal index) := by
  intro m l' calls
  have hglobals : (m.under l' calls).globals = m.globals := rfl
  rw [wp_loadGlobal, loadGlobal, hglobals]
  cases m.globals.value? index with
  | none => exact ⟨by simp [RuntimeProblem.kind], calls, rfl⟩
  | some v => exact ⟨rfl, calls, rfl⟩

theorem blind_release (n : Nat) : Blind (release n) := by
  intro m l' calls
  rw [wp_release, release, stack_under]
  split
  · exact ⟨rfl, calls, rfl⟩
  · exact ⟨by simp [RuntimeProblem.kind], calls, rfl⟩

theorem blind_pop : Blind pop := by
  intro m l' calls
  rw [wp_pop, pop, stack_under]
  cases m.stack.back? with
  | none => exact ⟨by simp [RuntimeProblem.kind], calls, rfl⟩
  | some cell => exact ⟨rfl, calls, rfl⟩

theorem blind_closeFrame (line : Nat) : Blind (closeFrame line) := by
  refine blind_bind blind_pop fun cell => ?_
  cases cell with
  | base saved => exact fun _ _ calls => ⟨rfl, calls, rfl⟩
  | value v => exact blind_throw (by simp [RuntimeProblem.kind])
  | unset => exact blind_throw (by simp [RuntimeProblem.kind])

theorem blind_loadAll (offsets : List Int) : Blind (loadAll offsets) := by
  induction offsets with
  | nil => exact blind_pure []
  | cons offset offsets ih =>
    rw [loadAll]
    exact blind_bind (blind_load offset) fun v => blind_bind ih fun vs => blind_pure _

theorem blind_result {result : Except RuntimeProblem Value}
    (h : ∀ problem, result = .error problem → problem.kind ≠ .stackOverflow) :
    Blind (match result with
      | .ok v => return v
      | .error problem => fault problem) := by
  cases result with
  | ok v => exact blind_pure v
  | error problem => exact blind_fault (h problem rfl)

theorem blind_applyBuiltin (b : Builtin) : Blind (applyBuiltin b) := by
  rw [applyBuiltin]
  refine blind_bind (blind_load _) fun v => ?_
  split
  · rw [pure_bind]
    exact blind_result fun problem h => by simp [Builtin.kind_of_apply₁_error h]
  · refine blind_bind (blind_load _) fun w => ?_
    rw [pure_bind]
    exact blind_result fun problem h => by rcases Builtin.kind_of_apply₂_error h with hk | hk <;> simp [hk]

theorem blind_fillCaptures (itself : Value) (loads : List CaptureLoad) (captured : List Value) :
    Blind (fillCaptures itself loads captured) := by
  induction loads generalizing captured with
  | nil => exact blind_pure ()
  | cons load loads ih =>
    obtain ⟨slot, origin⟩ := load
    cases origin with
    | itself =>
      rw [fillCaptures]
      exact blind_bind (blind_store slot itself) fun _ => ih captured
    | frame offset =>
      cases captured with
      | nil => exact blind_fault (by simp [RuntimeProblem.kind])
      | cons v captured =>
        rw [fillCaptures]
        exact blind_bind (blind_store slot v) fun _ => ih captured

/-! ## Steps that can give up -/

/-- The limits `l'` are those of `l` or above, and problems that come from a limit which is not the same are in `Cut`.
-/
structure Raised (Cut : RuntimeProblem → Prop) (l l' : Limits) : Prop where
  stack : l.maxStack ≤ l'.maxStack
  full : Cut .stackFull
  depth : l.maxCallDepth = l'.maxCallDepth ∨ l.maxCallDepth ≤ l'.maxCallDepth ∧ ∀ limit, Cut (.callsTooDeep limit)

section Raised

variable {Cut : RuntimeProblem → Prop} {l l' : Limits} {m : Machine}

theorem carries_push (hr : Raised Cut l l') (cell : Cell) (hm : m.limits = l) :
    Carries Cut l l' (push cell) (push cell) m := by
  have hstack := hr.stack
  intro calls
  rw [wp_push]
  split
  · next h =>
    have h' : m.stack.size < l'.maxStack := by
      rw [hm] at h
      omega
    exact ⟨hm, calls, by rw [push, stack_under, limits_under, if_pos h']; rfl⟩
  · exact .inl hr.full

theorem carries_reserve (hr : Raised Cut l l') (n : Nat) (hm : m.limits = l) :
    Carries Cut l l' (reserve n) (reserve n) m := by
  have hstack := hr.stack
  intro calls
  rw [wp_reserve]
  split
  · next h =>
    have h' : n ≤ l'.maxStack - m.stack.size := by
      rw [hm] at h
      omega
    refine ⟨hm, calls, ?_⟩
    unfold reserve
    dsimp only
    rw [stack_under, limits_under, if_pos h']
    rfl
  · exact .inl hr.full

theorem carries_grow (hr : Raised Cut l l') (delta : Int) (hm : m.limits = l) :
    Carries Cut l l' (grow delta) (grow delta) m := by
  unfold grow
  split
  · exact carries_reserve hr _ hm
  · exact (blind_release _).carries hm

/-- What runs one level deeper carries over, and where nothing does, calls give up. -/
def DeeperCarries (Cut : RuntimeProblem → Prop) (l l' : Limits) : Deeper → Deeper → Prop
  | none, none => l.maxCallDepth = l'.maxCallDepth ∨ ∀ limit, Cut (.callsTooDeep limit)
  | none, some _ => ∀ limit, Cut (.callsTooDeep limit)
  | some run, some run' => ∀ c m, m.limits = l → Carries Cut l l' (run c) (run' c) m
  | some _, none => False

theorem carries_runCallee (hr : Raised Cut l l') {run run' : Code → Step Unit}
    (hrun : ∀ c m, m.limits = l → Carries Cut l l' (run c) (run' c) m) (callee : Callee) (hm : m.limits = l) :
    Carries Cut l l' (runCallee run callee) (runCallee run' callee) m := by
  cases callee with
  | builtin b => exact Blind.carries (blind_bind (blind_applyBuiltin b) fun v => blind_setAccumulator v) hm
  | closure routine captured =>
    refine .bind (carries_grow hr _ hm) fun _ m₁ hm₁ => ?_
    refine .bind ((blind_fillCaptures _ _ _).carries hm₁) fun _ m₂ hm₂ => ?_
    exact .bind (hrun _ _ hm₂) fun _ m₃ hm₃ => carries_grow hr _ hm₃

theorem carries_call (hr : Raised Cut l l') {deeper deeper' : Deeper} (hd : DeeperCarries Cut l l' deeper deeper')
    (callee : Callee) (argc line : Nat) (hm : m.limits = l) :
    Carries Cut l l' (call deeper callee argc line) (call deeper' callee argc line) m := by
  unfold call
  by_cases harity : argc ≠ callee.arity
  · rw [if_pos harity, if_pos harity]
    exact .throw
  rw [if_neg harity, if_neg harity]
  dsimp only
  match deeper, deeper', hd with
  | none, none, hd =>
    rcases hd with heq | hcut
    · refine .get_bind (fun _ => rfl) ?_
      rw [hm, limits_under, heq]
      exact .throw
    · exact fun _ => .inl (hcut _)
  | none, some run', hd => exact fun _ => .inl (hd _)
  | some run, some run', hd =>
    refine .get_bind (fun _ => rfl) ?_
    refine .bind ((carries_push hr _ hm).adaptExcept fun e => e.problem_atLine line) fun _ m₁ hm₁ => ?_
    refine .bind ((blind_openFrame _ _).carries hm₁) fun _ m₂ hm₂ => ?_
    refine .bind ((carries_runCallee hr hd callee hm₂).adaptExcept fun e => e.problem_atLine line) fun _ m₃ hm₃ => ?_
    refine .bind ((blind_closeFrame line).carries hm₃) fun _ m₄ hm₄ => ?_
    exact .bind ((blind_release argc).carries hm₄) fun _ m₅ hm₅ => blind_leave.carries hm₅

/-! ## Code -/

mutual

theorem carries_execWith (hr : Raised Cut l l') {deeper deeper' : Deeper} (hd : DeeperCarries Cut l l' deeper deeper')
    (c : Code) {m : Machine} (hm : m.limits = l) : Carries Cut l l' (execWith deeper c) (execWith deeper' c) m := by
  cases c with
  | const v => exact (blind_setAccumulator v).carries hm
  | load offset => exact Blind.carries (blind_bind (blind_load offset) fun v => blind_setAccumulator v) hm
  | global index => exact Blind.carries (blind_bind (blind_loadGlobal index) fun v => blind_setAccumulator v) hm
  | store slot value =>
    rw [execWith, execWith]
    refine .bind (carries_execWith hr hd value hm) fun _ m₁ hm₁ => .get_bind (fun _ => rfl) ?_
    exact (blind_store slot m₁.accumulator).carries hm₁
  | block stores result =>
    rw [execWith, execWith]
    exact .bind (carries_execAll hr hd stores hm) fun _ m₁ hm₁ => carries_execWith hr hd result hm₁
  | cond test onTrue onFalse line =>
    rw [execWith, execWith]
    refine .bind (carries_execWith hr hd test hm) fun _ m₁ hm₁ => .get_bind (fun _ => rfl) ?_
    rw [accumulator_under]
    split
    · exact carries_execWith hr hd onTrue hm₁
    · exact carries_execWith hr hd onFalse hm₁
    · exact .throw
  | closure routine =>
    rw [execWith, execWith]
    exact Blind.carries (blind_bind (blind_loadAll _) fun vs => blind_setAccumulator _) hm
  | call callee args line =>
    rw [execWith, execWith]
    refine .bind (carries_execWith hr hd callee hm) fun _ m₁ hm₁ => .get_bind (fun _ => rfl) ?_
    rw [accumulator_under]
    dsimp only
    split
    · exact .throw
    · next found _ =>
      exact .bind (carries_pushArgs hr hd line args hm₁) fun _ m₂ hm₂ => carries_call hr hd found args.length line hm₂

theorem carries_execAll (hr : Raised Cut l l') {deeper deeper' : Deeper} (hd : DeeperCarries Cut l l' deeper deeper')
    (cs : List Code) {m : Machine} (hm : m.limits = l) :
    Carries Cut l l' (execAll deeper cs) (execAll deeper' cs) m := by
  cases cs with
  | nil => exact .pure hm
  | cons c cs =>
    rw [execAll, execAll]
    exact .bind (carries_execWith hr hd c hm) fun _ m₁ hm₁ => carries_execAll hr hd cs hm₁

theorem carries_pushArgs (hr : Raised Cut l l') {deeper deeper' : Deeper} (hd : DeeperCarries Cut l l' deeper deeper')
    (line : Nat) (cs : List Code) {m : Machine} (hm : m.limits = l) :
    Carries Cut l l' (pushArgs deeper line cs) (pushArgs deeper' line cs) m := by
  cases cs with
  | nil => exact .pure hm
  | cons c cs =>
    rw [pushArgs, pushArgs]
    refine .bind (carries_pushArgs hr hd line cs hm) fun _ m₁ hm₁ => ?_
    refine .bind (carries_execWith hr hd c hm₁) fun _ m₂ hm₂ => .get_bind (fun _ => rfl) ?_
    exact (carries_push hr _ hm₂).adaptExcept fun e => e.problem_atLine line

end

theorem carries_levels (hr : Raised Cut l l') {n n' : Nat}
    (hn : n = n' ∧ l.maxCallDepth = l'.maxCallDepth ∨ n ≤ n' ∧ ∀ limit, Cut (.callsTooDeep limit)) :
    DeeperCarries Cut l l' (levels n) (levels n') := by
  induction n generalizing n' with
  | zero =>
    cases n' with
    | zero => exact hn.imp (·.2) (·.2)
    | succ n' =>
      -- Only the machine with more levels can go on here, so giving up must be allowed.
      rcases hn with ⟨hzero, -⟩ | ⟨-, hcut⟩
      · cases hzero
      · exact hcut
  | succ n ih =>
    cases n' with
    | zero =>
      rcases hn with ⟨hzero, -⟩ | ⟨hle, -⟩
      · cases hzero
      · cases hle
    | succ n' =>
      have hn' : n = n' ∧ l.maxCallDepth = l'.maxCallDepth ∨ n ≤ n' ∧ ∀ limit, Cut (.callsTooDeep limit) :=
        hn.imp (fun h => ⟨Nat.succ.inj h.1, h.2⟩) fun h => ⟨Nat.le_of_succ_le_succ h.1, h.2⟩
      intro c m hm
      rw [execWithin_eq, execWithin_eq]
      exact carries_execWith hr (ih hn') c hm

/-- Code that does not give up runs in the same way under higher limits. -/
theorem carries_exec (hr : Raised Cut l l') (c : Code) (hm : m.limits = l) : Carries Cut l l' (exec c) (exec c) m := by
  have hn : l.maxCallDepth - m.depth = l'.maxCallDepth - m.depth ∧ l.maxCallDepth = l'.maxCallDepth ∨
      l.maxCallDepth - m.depth ≤ l'.maxCallDepth - m.depth ∧ ∀ limit, Cut (.callsTooDeep limit) := by
    refine hr.depth.imp (fun heq => ⟨by rw [heq], heq⟩) fun ⟨hle, hcut⟩ => ⟨by omega, hcut⟩
  have hcode := carries_execWith hr (carries_levels hr hn) c hm
  rw [← execWithin_eq, ← execWithin_eq, ← hm] at hcode
  exact hm ▸ hcode

/-- What a program does on a machine that has been cleared. -/
def runCleared (p : Program) : Step Value := do
  grow p.main.frameSize
  exec p.main.body
  grow (-p.main.frameSize)
  let left := (← get).stack.size
  if left ≠ 0 then
    modify reset
    fault (.leftOver left)
  else return (← get).accumulator

theorem carries_runCleared (hr : Raised Cut l l') (p : Program) (hm : m.limits = l) :
    Carries Cut l l' (runCleared p) (runCleared p) m := by
  refine .bind (carries_grow hr _ hm) fun _ m₁ hm₁ => ?_
  refine .bind (carries_exec hr _ hm₁) fun _ m₂ hm₂ => ?_
  refine .bind (carries_grow hr _ hm₂) fun _ m₃ hm₃ => .get_bind (fun _ => rfl) ?_
  rw [stack_under]
  dsimp only
  split
  · exact Blind.carries (blind_bind blind_reset fun _ => blind_fault (by simp [RuntimeProblem.kind])) hm₃
  · exact .get_bind (fun _ => rfl) (.pure hm₃)

/-- A program that does not give up ends in the same way on every machine with higher limits. -/
theorem carries_run {m m' : Machine} (hr : Raised Cut m.limits m'.limits) (p : Program) :
    wp (run p) (fun v _ => ∃ m₁, run p m' = .ok v m₁) (fun e _ => Cut e.problem ∨ ∃ m₁, run p m' = .error e m₁) m := by
  have hcleared : m'.cleared p.globals = (m.cleared p.globals).under m'.limits m'.calls := rfl
  have hcarries := @carries_runCleared Cut m.limits m'.limits (m.cleared p.globals) hr p rfl m'.calls
  rw [← hcleared] at hcarries
  exact wp_mono hcarries (fun v m₁ ⟨_, _, h⟩ => ⟨_, h⟩) fun e m₁ h => h.imp id fun ⟨_, h⟩ => ⟨_, h⟩

end Raised

/-- Higher limits change nothing about a program that does not give up: it returns the same value or fails with the same
error, on the same line and in the same calls. This is so for every program, one that faults included. -/
theorem run_eq_of_limits_le (p : Program) {m m' : Machine} (hdepth : m.limits.maxCallDepth ≤ m'.limits.maxCallDepth)
    (hstack : m.limits.maxStack ≤ m'.limits.maxStack) :
    (∀ v m₁, run p m = .ok v m₁ → ∃ m₂, run p m' = .ok v m₂) ∧
      ∀ e m₁, run p m = .error e m₁ → e.problem.kind ≠ .stackOverflow → ∃ m₂, run p m' = .error e m₂ := by
  have hraised : Raised (·.kind = .stackOverflow) m.limits m'.limits := ⟨hstack, rfl, .inr ⟨hdepth, fun _ => rfl⟩⟩
  have hcarries := carries_run hraised p
  refine ⟨fun v m₁ hrun => wp_ok hcarries hrun, fun e m₁ hrun hkind => ?_⟩
  exact (wp_error hcarries hrun).resolve_left hkind

/-- A program that calls a routine which reads its slot before anything was stored there. -/
def unsetRead : Program :=
  ⟨⟨none, 0, 0, [], .call (.closure ⟨some "f", 1, 1, [], .load 0⟩) [.const (.boolean true)] 3⟩, .empty⟩

theorem run_eq_of_limits_le_unsetRead :
    ∃ e m₁ m₂, run unsetRead (new ⟨1, 3⟩) = .error e m₁ ∧ e.problem.kind = .stackFault ∧ e.line = 3 ∧
      e.trace = #[⟨"f", 3⟩] ∧ run unsetRead (new .standard) = .error e m₂ := by
  have hrun : (match run unsetRead (new ⟨1, 3⟩) with
      | .ok _ _ => false
      | .error e _ => decide (e.problem.kind = .stackFault ∧ e.line = 3 ∧ e.trace = #[⟨"f", 3⟩])) = true := by cbv
  cases hm : run unsetRead (new ⟨1, 3⟩) with
  | ok v m₁ => rw [hm] at hrun; cases hrun
  | error e m₁ =>
    rw [hm] at hrun
    obtain ⟨hkind, hline, htrace⟩ := of_decide_eq_true hrun
    have hdepth : (new ⟨1, 3⟩).limits.maxCallDepth ≤ (new .standard).limits.maxCallDepth := by decide
    have hstack : (new ⟨1, 3⟩).limits.maxStack ≤ (new .standard).limits.maxStack := by decide
    obtain ⟨m₂, hm₂⟩ := (run_eq_of_limits_le unsetRead hdepth hstack).2 e m₁ hm (by simp [hkind])
    exact ⟨e, m₁, m₂, rfl, hkind, hline, htrace, hm₂⟩

/-! ## Enough room -/

/-- On a stack with enough room, the step does not run out of it. -/
def Settles (f : Step α) (m : Machine) : Prop :=
  ∃ room, ∀ size ≥ room, ∀ calls, wp f (fun _ _ => True) (fun e _ => e.problem ≠ .stackFull)
    (m.under ⟨m.limits.maxCallDepth, size⟩ calls)

section Settles

variable {m : Machine}

theorem raised_stack {depth size size' : Nat} (h : size ≤ size') :
    Raised (· = .stackFull) ⟨depth, size⟩ ⟨depth, size'⟩ :=
  ⟨h, rfl, .inl rfl⟩

theorem Blind.settles {f : Step α} (h : Blind f) (m : Machine) : Settles f m := by
  refine ⟨0, fun size _ calls => ?_⟩
  refine wp_mono (h _ ⟨m.limits.maxCallDepth, size⟩ calls) (fun _ _ _ => trivial) fun e _ ⟨he, _⟩ hfull => he ?_
  rw [hfull]
  rfl

/-- Two steps in a row need as much room as the one that needs more. -/
theorem Settles.bind {f : Step β} {g : β → Step α}
    (hf : ∀ {l l' m}, Raised (· = .stackFull) l l' → m.limits = l → Carries (· = .stackFull) l l' f f m)
    (h : Settles f m) (hg : ∀ b m₁, Settles (g b) m₁) : Settles (f >>= g) m := by
  obtain ⟨room, hroom⟩ := h
  have hsmall := hroom room (Nat.le_refl _) none
  -- What the first step does with just enough room, it does with more room too.
  have hcarries : ∀ size ≥ room, ∀ calls, Carries (· = .stackFull) ⟨m.limits.maxCallDepth, room⟩
      ⟨m.limits.maxCallDepth, size⟩ f f (m.under ⟨m.limits.maxCallDepth, room⟩ calls) :=
    fun size hsize calls => hf (raised_stack hsize) rfl
  cases hend : f (m.under ⟨m.limits.maxCallDepth, room⟩ none) with
  | ok b m₁ =>
    obtain ⟨room', hroom'⟩ := hg b m₁
    refine ⟨max room room', fun size hsize calls => ?_⟩
    obtain ⟨hl, calls₁, hfirst⟩ := wp_ok (hcarries size (by omega) none calls) hend
    have hsecond := hroom' size (by omega) calls₁
    rw [hl] at hsecond
    rw [wp_bind]
    exact wp_of_ok hfirst hsecond
  | error e m₁ =>
    refine ⟨room, fun size hsize calls => ?_⟩
    have hne := wp_error hsmall hend
    rcases wp_error (hcarries size hsize none calls) hend with hfull | ⟨calls₁, hfirst⟩
    · exact absurd hfull hne
    · rw [wp_bind]
      exact wp_of_error hfirst hne

theorem Settles.get_bind {h : Machine → Step α}
    (hl : ∀ size calls, h (m.under ⟨m.limits.maxCallDepth, size⟩ calls) = h m) (hs : Settles (h m) m) :
    Settles (get >>= h) m := by
  obtain ⟨room, hroom⟩ := hs
  refine ⟨room, fun size hsize calls => ?_⟩
  rw [wp_bind, wp_get, hl]
  exact hroom size hsize calls

theorem Settles.adaptExcept {f : Step α} {adapt : RuntimeError → RuntimeError} (h : Settles f m)
    (ha : ∀ e, (adapt e).problem = e.problem) : Settles (f.adaptExcept adapt) m := by
  obtain ⟨room, hroom⟩ := h
  refine ⟨room, fun size hsize calls => ?_⟩
  rw [wp_adaptExcept]
  exact wp_mono (hroom size hsize calls) (fun _ _ => id) fun e _ he => by rwa [ha]

theorem settles_throw {e : RuntimeError} (h : e.problem ≠ .stackFull) : Settles (throw e : Step α) m :=
  ⟨0, fun _ _ _ => h⟩

theorem settles_push (cell : Cell) (m : Machine) : Settles (push cell) m := by
  refine ⟨m.stack.size + 1, fun size hsize calls => ?_⟩
  rw [wp_push, stack_under, limits_under]
  dsimp only
  rw [if_pos (by omega)]
  trivial

theorem settles_grow (delta : Int) (m : Machine) : Settles (grow delta) m := by
  unfold grow
  split
  · refine ⟨m.stack.size + delta.toNat, fun size hsize calls => ?_⟩
    rw [wp_reserve, stack_under, limits_under]
    dsimp only
    rw [if_pos (by omega)]
    trivial
  · exact (blind_release _).settles m

/-- A function that runs bodies one level deeper has enough room on some stack. -/
structure Roomy (run : Code → Step Unit) : Prop where
  settles : ∀ c m, Settles (run c) m
  carries : ∀ {l l' : Limits}, Raised (· = .stackFull) l l' → ∀ c m, m.limits = l →
    Carries (· = .stackFull) l l' (run c) (run c) m

theorem settles_runCallee {run : Code → Step Unit} (hrun : Roomy run) (callee : Callee) (m : Machine) :
    Settles (runCallee run callee) m := by
  cases callee with
  | builtin b => exact Blind.settles (blind_bind (blind_applyBuiltin b) fun v => blind_setAccumulator v) m
  | closure routine captured =>
    refine .bind (fun hr hm => carries_grow hr _ hm) (settles_grow _ m) fun _ m₁ => ?_
    refine .bind (fun _ hm => (blind_fillCaptures _ _ _).carries hm) ((blind_fillCaptures _ _ _).settles m₁)
      fun _ m₂ => ?_
    exact .bind (fun hr hm => hrun.carries hr _ _ hm) (hrun.settles _ m₂) fun _ m₃ => settles_grow _ m₃

theorem settles_call {deeper : Deeper} (hd : ∀ run, deeper = some run → Roomy run) (callee : Callee) (argc line : Nat)
    (m : Machine) : Settles (call deeper callee argc line) m := by
  unfold call
  by_cases harity : argc ≠ callee.arity
  · rw [if_pos harity]
    exact settles_throw (by simp)
  rw [if_neg harity]
  dsimp only
  cases deeper with
  | none =>
    refine ⟨0, fun size _ calls => ?_⟩
    simp [wp_get, wp_throw]
  | some run =>
    have hrun := hd run rfl
    refine .get_bind (fun _ _ => rfl) ?_
    refine .bind (fun hr hm => (carries_push hr _ hm).adaptExcept fun e => e.problem_atLine line)
      ((settles_push _ m).adaptExcept fun e => e.problem_atLine line) fun _ m₁ => ?_
    refine .bind (fun _ hm => (blind_openFrame _ _).carries hm) ((blind_openFrame _ _).settles m₁) fun _ m₂ => ?_
    refine .bind
      (fun hr hm => (carries_runCallee hr (hrun.carries hr) callee hm).adaptExcept fun e => e.problem_atLine line)
      ((settles_runCallee hrun callee m₂).adaptExcept fun e => e.problem_atLine line) fun _ m₃ => ?_
    -- The way back takes cells away, so it needs no room.
    exact Blind.settles
      (blind_bind (blind_closeFrame line) fun _ => blind_bind (blind_release argc) fun _ => blind_leave) m₃

theorem Roomy.deeperCarries {deeper : Deeper} (hd : ∀ run, deeper = some run → Roomy run) {l l' : Limits}
    (hr : Raised (· = .stackFull) l l') : DeeperCarries (· = .stackFull) l l' deeper deeper := by
  cases deeper with
  | none => exact hr.depth.imp id (·.2)
  | some run => exact (hd run rfl).carries hr

mutual

theorem settles_execWith {deeper : Deeper} (hd : ∀ run, deeper = some run → Roomy run) (c : Code) (m : Machine) :
    Settles (execWith deeper c) m := by
  cases c with
  | const v => exact (blind_setAccumulator v).settles m
  | load offset => exact Blind.settles (blind_bind (blind_load offset) fun v => blind_setAccumulator v) m
  | global index => exact Blind.settles (blind_bind (blind_loadGlobal index) fun v => blind_setAccumulator v) m
  | store slot value =>
    rw [execWith]
    refine .bind (fun hr hm => carries_execWith hr (Roomy.deeperCarries hd hr) value hm)
      (settles_execWith hd value m) ?_
    exact fun _ m₁ => .get_bind (fun _ _ => rfl) ((blind_store slot m₁.accumulator).settles m₁)
  | block stores result =>
    rw [execWith]
    exact .bind (fun hr hm => carries_execAll hr (Roomy.deeperCarries hd hr) stores hm) (settles_execAll hd stores m)
      fun _ m₁ => settles_execWith hd result m₁
  | cond test onTrue onFalse line =>
    rw [execWith]
    refine .bind (fun hr hm => carries_execWith hr (Roomy.deeperCarries hd hr) test hm) (settles_execWith hd test m) ?_
    refine fun _ m₁ => .get_bind (fun _ _ => rfl) ?_
    split
    · exact settles_execWith hd onTrue m₁
    · exact settles_execWith hd onFalse m₁
    · exact settles_throw (by simp)
  | closure routine =>
    rw [execWith]
    exact Blind.settles (blind_bind (blind_loadAll _) fun vs => blind_setAccumulator _) m
  | call callee args line =>
    rw [execWith]
    refine .bind (fun hr hm => carries_execWith hr (Roomy.deeperCarries hd hr) callee hm)
      (settles_execWith hd callee m) ?_
    refine fun _ m₁ => .get_bind (fun _ _ => rfl) ?_
    dsimp only
    split
    · exact settles_throw (by simp)
    · next found _ =>
      exact .bind (fun hr hm => carries_pushArgs hr (Roomy.deeperCarries hd hr) line args hm)
        (settles_pushArgs hd line args m₁) fun _ m₂ => settles_call hd found args.length line m₂

theorem settles_execAll {deeper : Deeper} (hd : ∀ run, deeper = some run → Roomy run) (cs : List Code) (m : Machine) :
    Settles (execAll deeper cs) m := by
  cases cs with
  | nil => exact (blind_pure ()).settles m
  | cons c cs =>
    rw [execAll]
    exact .bind (fun hr hm => carries_execWith hr (Roomy.deeperCarries hd hr) c hm) (settles_execWith hd c m)
      fun _ m₁ => settles_execAll hd cs m₁

theorem settles_pushArgs {deeper : Deeper} (hd : ∀ run, deeper = some run → Roomy run) (line : Nat) (cs : List Code)
    (m : Machine) : Settles (pushArgs deeper line cs) m := by
  cases cs with
  | nil => exact (blind_pure ()).settles m
  | cons c cs =>
    rw [pushArgs]
    refine .bind (fun hr hm => carries_pushArgs hr (Roomy.deeperCarries hd hr) line cs hm)
      (settles_pushArgs hd line cs m) fun _ m₁ => ?_
    refine .bind (fun hr hm => carries_execWith hr (Roomy.deeperCarries hd hr) c hm) (settles_execWith hd c m₁) ?_
    exact fun _ m₂ => .get_bind (fun _ _ => rfl) ((settles_push _ m₂).adaptExcept fun e => e.problem_atLine line)

end

theorem levels_roomy (n : Nat) : ∀ run, levels n = some run → Roomy run := by
  induction n with
  | zero => exact fun run h => by cases h
  | succ n ih =>
    rintro run ⟨⟩
    rw [execWithin_eq]
    exact ⟨fun c m => settles_execWith ih c m, fun hr c m hm => carries_execWith hr (Roomy.deeperCarries ih hr) c hm⟩

theorem settles_exec (c : Code) (m : Machine) : Settles (exec c) m := by
  have hsettles := settles_execWith (levels_roomy (m.limits.maxCallDepth - m.depth)) c m
  rw [← execWithin_eq] at hsettles
  exact hsettles

/-- However deep calls may nest, some stack has enough room for the program. -/
theorem settles_run (p : Program) (m : Machine) : Settles (run p) m := by
  have hsettles : Settles (runCleared p) (m.cleared p.globals) := by
    refine .bind (fun hr hm => carries_grow hr _ hm) (settles_grow _ _) fun _ m₁ => ?_
    refine .bind (fun hr hm => carries_exec hr _ hm) (settles_exec _ m₁) fun _ m₂ => ?_
    refine .bind (fun hr hm => carries_grow hr _ hm) (settles_grow _ m₂) fun _ m₃ => .get_bind (fun _ _ => rfl) ?_
    dsimp only
    split
    · exact Blind.settles (blind_bind blind_reset fun _ => blind_fault (by simp [RuntimeProblem.kind])) m₃
    · exact .get_bind (fun _ _ => rfl) ((blind_pure _).settles m₃)
  exact hsettles

end Settles

end ClosureLang.Machine
