import ClosureLang.Proofs.Routines

/-!
# Balance of the stack

Code of any kind, made by hand or compiled, leaves the stack as high as it found it, in the frame and at the call
depth it started in, as long as no frame has a size below zero. The code may store over the saved base of a caller's
frame. The call then fails, because a saved base can be destroyed but never made: instructions store values only, and
the one step that pushes a base is the start of a call.
-/

namespace ClosureLang

/-- The frame takes no cells away. -/
def Routine.Sized (r : Routine) : Prop := 0 ≤ r.frameSize

/-- A problem other than a stack that is too short or too long at the end of a call or of a program. -/
def RuntimeProblem.Regular : RuntimeProblem → Prop
  | underflow | leftOver _ => False
  | _ => True

theorem RuntimeProblem.regular_of_kind {problem : RuntimeProblem} (h : problem.kind ≠ .stackFault)
    (h' : problem.kind ≠ .unbalanced) : problem.Regular := by
  cases problem <;> simp_all [kind, Regular]

namespace Machine

/-- From `m` to `m'`, `n` cells were pushed and none of them is a base. What is a saved base in `m'` was one in `m`. -/
structure Pushed (n : Nat) (m m' : Machine) : Prop where
  size : m'.stack.size = m.stack.size + n
  base : m'.base = m.base
  depth : m'.depth = m.depth
  saved : ∀ {i b : Nat}, m'.stack[i]? = some (.base b) → m.stack[i]? = some (.base b)

variable {m m' m'' : Machine} {n k : Nat}

theorem Pushed.refl (m : Machine) : Pushed 0 m m := ⟨rfl, rfl, rfl, id⟩

theorem Pushed.trans (h : Pushed n m m') (h' : Pushed k m' m'') : Pushed (n + k) m m'' where
  size := by rw [h'.size, h.size, Nat.add_assoc]
  base := h'.base.trans h.base
  depth := h'.depth.trans h.depth
  saved hb := h.saved (h'.saved hb)

/-- What code may do: it ends with `n` more cells on the stack, or with a regular problem. -/
abbrev Pushes (n : Nat) (f : Step Unit) (m : Machine) : Prop :=
  wp f (fun _ m' => Pushed n m m' ∧ m'.Every Routine.Sized) (fun e _ => e.problem.Regular) m

/-! ## Primitives -/

theorem load_regular {P : Routine → Prop} (hm : m.Every P) (offset : Int) :
    wp (load offset) (fun v m' => m' = m ∧ v.Every P) (fun e _ => e.problem.Regular) m := by
  rw [wp_load]
  cases m.index? offset with
  | none => trivial
  | some i =>
    dsimp only
    cases h : m.stack.getD i .unset with
    | value v =>
      refine ⟨rfl, hm.stack (i := i) ?_⟩
      rw [Array.getD_eq_getD_getElem?] at h
      cases hi : m.stack[i]? with
      | none => rw [hi] at h; cases h
      | some cell => rw [hi] at h; exact congrArg some h
    | base _ => trivial
    | unset => trivial

theorem loadAll_regular {P : Routine → Prop} (hm : m.Every P) (offsets : List Int) :
    wp (loadAll offsets) (fun vs m' => m' = m ∧ ∀ v ∈ vs, v.Every P) (fun e _ => e.problem.Regular) m := by
  induction offsets with
  | nil => exact ⟨rfl, by simp⟩
  | cons offset offsets ih =>
    rw [loadAll, wp_bind]
    refine wp_mono (load_regular hm offset) ?_ fun _ _ => id
    rintro v m' ⟨rfl, hv⟩
    rw [wp_bind]
    refine wp_mono ih ?_ fun _ _ => id
    rintro vs m' ⟨rfl, hvs⟩
    exact ⟨rfl, by simpa using ⟨hv, hvs⟩⟩

theorem store_pushes (hm : m.Every Routine.Sized) (offset : Int) {v : Value} (hv : v.Every Routine.Sized) :
    Pushes 0 (store offset v) m := by
  rw [Pushes, wp_store]
  cases m.index? offset with
  | none => trivial
  | some i =>
    refine ⟨⟨Array.size_setIfInBounds, rfl, rfl, fun {j b} hb => ?_⟩, hm.store i hv⟩
    rw [Array.getElem?_setIfInBounds] at hb
    split at hb
    · split at hb <;> cases hb
    · exact hb

theorem applyBuiltin_regular {P : Routine → Prop} (hm : m.Every P) (b : Builtin) :
    wp (applyBuiltin b) (fun v m' => m' = m ∧ v.Every P) (fun e _ => e.problem.Regular) m := by
  rw [applyBuiltin, wp_bind]
  refine wp_mono (load_regular hm _) ?_ fun _ _ => id
  rintro v m' ⟨rfl, _⟩
  split
  · simp only [pure_bind]
    cases h : b.apply₁ v with
    | ok u => exact ⟨rfl, Builtin.every_of_apply₁ h⟩
    | error problem =>
      have hk := Builtin.kind_of_apply₁_error h
      exact RuntimeProblem.regular_of_kind (by simp [hk]) (by simp [hk])
  · rw [wp_bind]
    refine wp_mono (load_regular hm _) ?_ fun _ _ => id
    rintro w m' ⟨rfl, _⟩
    simp only [pure_bind]
    cases h : b.apply₂ v w with
    | ok u => exact ⟨rfl, Builtin.every_of_apply₂ h⟩
    | error problem =>
      rcases Builtin.kind_of_apply₂_error h with hk | hk <;>
        exact RuntimeProblem.regular_of_kind (by simp [hk]) (by simp [hk])

theorem fillCaptures_pushes {itself : Value} (hi : itself.Every Routine.Sized) (loads : List CaptureLoad) :
    ∀ {captured : List Value} {m : Machine}, (∀ v ∈ captured, v.Every Routine.Sized) → m.Every Routine.Sized →
      Pushes 0 (fillCaptures itself loads captured) m := by
  induction loads with
  | nil =>
    intro captured m _ hm
    rw [fillCaptures]
    exact ⟨.refl m, hm⟩
  | cons load loads ih =>
    intro captured m hc hm
    obtain ⟨slot, origin⟩ := load
    cases origin with
    | itself =>
      rw [fillCaptures, Pushes, wp_bind]
      refine wp_mono (store_pushes hm slot hi) (fun _ m₁ ⟨h₁, hm₁⟩ => ?_) fun _ _ => id
      refine wp_mono (ih hc hm₁) (fun _ m₂ ⟨h₂, hm₂⟩ => ?_) fun _ _ => id
      exact ⟨h₁.trans h₂, hm₂⟩
    | frame offset =>
      cases captured with
      | nil =>
        rw [fillCaptures, Pushes, wp_fault]
        trivial
      | cons v captured =>
        rw [fillCaptures, Pushes, wp_bind]
        refine wp_mono (store_pushes hm slot (hc v (by simp))) (fun _ m₁ ⟨h₁, hm₁⟩ => ?_) fun _ _ => id
        refine wp_mono (ih (fun w hw => hc w (by simp [hw])) hm₁) (fun _ m₂ ⟨h₂, hm₂⟩ => ?_) fun _ _ => id
        exact ⟨h₁.trans h₂, hm₂⟩

theorem reserve_pushes (hm : m.Every Routine.Sized) (n : Nat) : Pushes n (reserve n) m := by
  rw [Pushes, wp_reserve]
  split
  · refine ⟨⟨size_pushUnset n m.stack, rfl, rfl, fun {i b} hb => ?_⟩, hm.pushUnset n⟩
    rw [getElem?_pushUnset] at hb
    split at hb
    · exact hb
    · split at hb <;> cases hb
  · trivial

/-- Cells that were pushed since `m` can be given back. -/
theorem release_pushes (hm : m'.Every Routine.Sized) (h : Pushed (n + k) m m') :
    wp (release k) (fun _ m'' => Pushed n m m'' ∧ m''.Every Routine.Sized) (fun e _ => e.problem.Regular) m' := by
  rw [wp_release, if_pos (by rw [h.size]; omega)]
  refine ⟨⟨?_, h.base, h.depth, fun {i b} hb => ?_⟩, hm.shrink _⟩
  · rw [Array.size_shrink, h.size]
    omega
  · rw [getElem?_shrink] at hb
    split at hb
    · exact h.saved hb
    · cases hb

/-! ## Calls -/

/-- A function that runs bodies one level deeper keeps the balance. -/
def Balances (run : Code → Step Unit) : Prop :=
  ∀ (c : Code) (m : Machine), c.Every Routine.Sized → m.Every Routine.Sized → Pushes 0 (run c) m

/-- The part of `enter` up to the point where the body has run and its frame is still there. -/
def runBody (run : Code → Step Unit) (routine : Routine) (captured : List Value) : Step Unit := do
  grow routine.frameSize
  fillCaptures (.closure routine captured) routine.captures captured
  run routine.body

theorem enter_eq (run : Code → Step Unit) (routine : Routine) (captured : List Value) :
    enter run routine captured = runBody run routine captured >>= fun _ => grow (-routine.frameSize) := by
  simp only [enter, runBody, bind_assoc]

theorem runBody_pushes {run : Code → Step Unit} (hrun : Balances run) {routine : Routine} {captured : List Value}
    (hv : (Value.closure routine captured).Every Routine.Sized) (hm : m.Every Routine.Sized) :
    Pushes routine.frameSize.toNat (runBody run routine captured) m := by
  have hr := Routine.every_iff.1 hv.1
  rw [runBody, Pushes, wp_bind, wp_grow_of_nonneg hr.1]
  refine wp_mono (reserve_pushes hm _) (fun _ m₁ ⟨h₁, hm₁⟩ => ?_) fun _ _ => id
  rw [wp_bind]
  refine wp_mono (fillCaptures_pushes hv _ (Value.everyAll_iff.1 hv.2) hm₁) (fun _ m₂ ⟨h₂, hm₂⟩ => ?_) fun _ _ => id
  refine wp_mono (hrun _ _ hr.2 hm₂) (fun _ m₃ ⟨h₃, hm₃⟩ => ?_) fun _ _ => id
  exact ⟨(h₁.trans h₂).trans h₃, hm₃⟩

theorem enter_pushes {run : Code → Step Unit} (hrun : Balances run) {routine : Routine} {captured : List Value}
    (hv : (Value.closure routine captured).Every Routine.Sized) (hm : m.Every Routine.Sized) :
    Pushes 0 (enter run routine captured) m := by
  have hr := Routine.every_iff.1 hv.1
  rw [enter_eq, Pushes, wp_bind]
  refine wp_mono (runBody_pushes hrun hv hm) (fun _ m₁ ⟨h₁, hm₁⟩ => ?_) fun _ _ => id
  rw [wp_grow_neg_of_nonneg hr.1]
  exact release_pushes hm₁ (by simpa using h₁)

/-- The value that a callee was made from. -/
def Callee.toValue : Callee → Value
  | .builtin b => .builtin b
  | .closure routine captured => .closure routine captured

theorem Callee.toValue_of_ofValue? {v : Value} {callee : Callee} (h : Callee.ofValue? v = some callee) :
    callee.toValue = v := by
  cases v <;> cases h <;> rfl

theorem runCallee_pushes {run : Code → Step Unit} (hrun : Balances run) {callee : Callee}
    (hc : callee.toValue.Every Routine.Sized) (hm : m.Every Routine.Sized) : Pushes 0 (runCallee run callee) m := by
  cases callee with
  | builtin b =>
    rw [runCallee, Pushes, wp_bind]
    refine wp_mono (applyBuiltin_regular hm b) ?_ fun _ _ => id
    rintro v m' ⟨rfl, hv⟩
    exact ⟨⟨rfl, rfl, rfl, id⟩, hm.setAccumulator hv⟩
  | closure routine captured => exact enter_pushes hrun hc hm

/-- A call takes back its arguments, its frame and the saved base. -/
theorem call_pushes {deeper : Deeper} (hd : ∀ run, deeper = some run → Balances run) {callee : Callee}
    (hc : callee.toValue.Every Routine.Sized) (argc line : Nat) (hm : m'.Every Routine.Sized) (h : Pushed argc m m') :
    wp (call deeper callee argc line) (fun _ m'' => Pushed 0 m m'' ∧ m''.Every Routine.Sized)
      (fun e _ => e.problem.Regular) m' := by
  rw [wp_call]
  split
  · trivial
  cases hdeeper : deeper with
  | none => trivial
  | some run =>
    dsimp only
    split
    case isFalse => trivial
    refine wp_mono (runCallee_pushes (hd run hdeeper) hc (hm.started callee.name argc)) (fun _ m₂ ⟨h₂, hm₂⟩ => ?_)
      fun _ _ he => by simpa using he
    have hsize : m₂.stack.size = m'.stack.size + 1 := by simpa [started] using h₂.size
    rw [wp_closeFrame, Array.back?_eq_getElem?, hsize]
    cases hcell : m₂.stack[m'.stack.size + 1 - 1]? with
    | none => exact absurd (Array.getElem?_eq_none_iff.1 hcell) (by omega)
    | some cell =>
      cases cell with
      | value v => trivial
      | unset => trivial
      | base saved =>
        -- A saved base on top of the stack can only be the one that this call pushed.
        have hsaved : saved = m'.base := by
          have hpushed := h₂.saved hcell
          simpa [started] using hpushed.symm
        have hback : Pushed (0 + argc) m { m₂ with stack := m₂.stack.pop, base := saved, depth := m₂.depth - 1 } := by
          refine ⟨by simp [hsize, h.size], hsaved.trans h.base, by simp [h₂.depth, started, h.depth], ?_⟩
          intro i b hb
          rw [Array.getElem?_pop] at hb
          split at hb
          case isFalse => cases hb
          have hpushed := h₂.saved hb
          rw [started, Array.getElem?_push, if_neg (by omega)] at hpushed
          exact h.saved hpushed
        have hm₃ : Every Routine.Sized { m₂ with stack := m₂.stack.pop, base := saved, depth := m₂.depth - 1 } :=
          ⟨hm₂.pop.stack, hm₂.accumulator, hm₂.globals⟩
        have hrelease := release_pushes hm₃ hback
        dsimp only
        rw [wp_release] at hrelease ⊢
        exact hrelease

/-! ## Code -/

mutual

theorem execWith_pushes {deeper : Deeper} (hd : ∀ run, deeper = some run → Balances run) (c : Code) {m : Machine}
    (hc : c.Every Routine.Sized) (hm : m.Every Routine.Sized) :
    Pushes 0 (execWith deeper c) m := by
  cases c with
  | const v => exact ⟨⟨rfl, rfl, rfl, id⟩, hm.setAccumulator hc⟩
  | load offset =>
    rw [execWith, Pushes, wp_bind]
    refine wp_mono (load_regular hm offset) ?_ fun _ _ => id
    rintro v m' ⟨rfl, hv⟩
    exact ⟨⟨rfl, rfl, rfl, id⟩, hm.setAccumulator hv⟩
  | global index =>
    rw [execWith, Pushes, wp_bind, wp_loadGlobal]
    cases hv : m.globals.value? index with
    | none => trivial
    | some v => exact ⟨⟨rfl, rfl, rfl, id⟩, hm.setAccumulator (hm.globals hv)⟩
  | store slot value =>
    rw [execWith, Pushes, wp_bind]
    refine wp_mono (execWith_pushes hd value hc hm) (fun _ m₁ ⟨h₁, hm₁⟩ => ?_) fun _ _ => id
    rw [wp_bind, wp_get]
    refine wp_mono (store_pushes hm₁ slot hm₁.accumulator) (fun _ m₂ ⟨h₂, hm₂⟩ => ?_) fun _ _ => id
    exact ⟨h₁.trans h₂, hm₂⟩
  | block stores result =>
    rw [execWith, Pushes, wp_bind]
    refine wp_mono (execAll_pushes hd stores hc.1 hm) (fun _ m₁ ⟨h₁, hm₁⟩ => ?_) fun _ _ => id
    refine wp_mono (execWith_pushes hd result hc.2 hm₁) (fun _ m₂ ⟨h₂, hm₂⟩ => ?_) fun _ _ => id
    exact ⟨h₁.trans h₂, hm₂⟩
  | cond test onTrue onFalse line =>
    rw [execWith, Pushes, wp_bind]
    refine wp_mono (execWith_pushes hd test hc.1 hm) (fun _ m₁ ⟨h₁, hm₁⟩ => ?_) fun _ _ => id
    rw [wp_bind, wp_get]
    split
    · refine wp_mono (execWith_pushes hd onTrue hc.2.1 hm₁) (fun _ m₂ ⟨h₂, hm₂⟩ => ?_) fun _ _ => id
      exact ⟨h₁.trans h₂, hm₂⟩
    · refine wp_mono (execWith_pushes hd onFalse hc.2.2 hm₁) (fun _ m₂ ⟨h₂, hm₂⟩ => ?_) fun _ _ => id
      exact ⟨h₁.trans h₂, hm₂⟩
    · trivial
  | closure routine =>
    rw [execWith, Pushes, wp_bind]
    refine wp_mono (loadAll_regular hm routine.sources) ?_ fun _ _ => id
    rintro vs m' ⟨rfl, hvs⟩
    exact ⟨⟨rfl, rfl, rfl, id⟩, hm.setAccumulator ⟨hc, Value.everyAll_iff.2 hvs⟩⟩
  | call callee args line =>
    rw [execWith, Pushes, wp_bind]
    refine wp_mono (execWith_pushes hd callee hc.1 hm) (fun _ m₁ ⟨h₁, hm₁⟩ => ?_) fun _ _ => id
    rw [wp_bind, wp_get]
    dsimp only
    cases hv : Callee.ofValue? m₁.accumulator with
    | none => trivial
    | some found =>
      have hfound : found.toValue.Every Routine.Sized := by
        rw [Callee.toValue_of_ofValue? hv]
        exact hm₁.accumulator
      rw [wp_bind]
      refine wp_mono (pushArgs_pushes hd line args hc.2 hm₁) (fun _ m₂ ⟨h₂, hm₂⟩ => ?_) fun _ _ => id
      refine wp_mono (call_pushes hd hfound args.length line hm₂ h₂) (fun _ m₃ ⟨h₃, hm₃⟩ => ?_) fun _ _ => id
      exact ⟨h₁.trans h₃, hm₃⟩

theorem execAll_pushes {deeper : Deeper} (hd : ∀ run, deeper = some run → Balances run) (cs : List Code)
    {m : Machine} (hc : Code.EveryAll Routine.Sized cs) (hm : m.Every Routine.Sized) :
    Pushes 0 (execAll deeper cs) m := by
  cases cs with
  | nil => exact ⟨.refl m, hm⟩
  | cons c cs =>
    rw [execAll, Pushes, wp_bind]
    refine wp_mono (execWith_pushes hd c hc.1 hm) (fun _ m₁ ⟨h₁, hm₁⟩ => ?_) fun _ _ => id
    refine wp_mono (execAll_pushes hd cs hc.2 hm₁) (fun _ m₂ ⟨h₂, hm₂⟩ => ?_) fun _ _ => id
    exact ⟨h₁.trans h₂, hm₂⟩

theorem pushArgs_pushes {deeper : Deeper} (hd : ∀ run, deeper = some run → Balances run) (line : Nat)
    (cs : List Code) {m : Machine} (hc : Code.EveryAll Routine.Sized cs) (hm : m.Every Routine.Sized) :
    Pushes cs.length (pushArgs deeper line cs) m := by
  cases cs with
  | nil => exact ⟨.refl m, hm⟩
  | cons c cs =>
    rw [pushArgs, Pushes, wp_bind]
    refine wp_mono (pushArgs_pushes hd line cs hc.2 hm) (fun _ m₁ ⟨h₁, hm₁⟩ => ?_) fun _ _ => id
    rw [wp_bind]
    refine wp_mono (execWith_pushes hd c hc.1 hm₁) (fun _ m₂ ⟨h₂, hm₂⟩ => ?_) fun _ _ => id
    rw [wp_bind, wp_get, wp_adaptExcept, wp_push]
    split
    · have h₃ : Pushed 1 m₂ { m₂ with stack := m₂.stack.push (.value m₂.accumulator) } := by
        refine ⟨Array.size_push _, rfl, rfl, fun hb => ?_⟩
        rw [Array.getElem?_push] at hb
        split at hb
        · cases hb
        · exact hb
      refine ⟨(h₁.trans h₂).trans h₃, hm₂.push fun v hv => ?_⟩
      cases hv
      exact hm₂.accumulator
    · rw [RuntimeError.problem_atLine]
      trivial

end

theorem execWithin_balances (calls : Nat) : Balances (execWithin calls) := by
  induction calls with
  | zero =>
    intro c m hc hm
    exact execWith_pushes (fun run h => by cases h) c hc hm
  | succ calls ih =>
    intro c m hc hm
    exact execWith_pushes (fun run h => by cases h; exact ih) c hc hm

theorem exec_pushes {c : Code} {m : Machine} (hc : c.Every Routine.Sized) (hm : m.Every Routine.Sized) :
    Pushes 0 (exec c) m :=
  execWithin_balances _ c m hc hm

/-! ## Programs -/

/-- A program ends with an empty stack or with a regular problem. -/
theorem run_regular {p : Program} (hp : p.Every Routine.Sized) (m : Machine) :
    wp (run p) (fun _ m' => m'.stack.size = 0) (fun e _ => e.problem.Regular) m := by
  have hmain := Routine.every_iff.1 hp.main
  rw [wp_run, wp_grow_of_nonneg hmain.1]
  refine wp_mono (reserve_pushes (.cleared hp m) _) (fun _ m₁ ⟨h₁, hm₁⟩ => ?_) fun _ _ => id
  refine wp_mono (exec_pushes hmain.2 hm₁) (fun _ m₂ ⟨h₂, hm₂⟩ => ?_) fun _ _ => id
  rw [wp_grow_neg_of_nonneg hmain.1]
  have h₁₂ : Pushed (0 + p.main.frameSize.toNat) (m.cleared p.globals) m₂ := by simpa using h₁.trans h₂
  refine wp_mono (release_pushes hm₂ h₁₂) (fun _ m₃ ⟨h₃, _⟩ => ?_) fun _ _ => id
  have hsize : m₃.stack.size = 0 := h₃.size
  rw [if_pos hsize]
  exact hsize

/-- Code that ends well leaves the height of the stack, the base and the call depth as they were. So the frame of a
function is on top of the stack when its body has run, no call finds fewer cells than it has to take back, and no
program leaves a cell behind. -/
theorem stack_balanced :
    (∀ {c : Code} {m m' : Machine}, c.Every Routine.Sized → m.Every Routine.Sized → exec c m = .ok () m' →
      m'.stack.size = m.stack.size ∧ m'.base = m.base ∧ m'.depth = m.depth) ∧
    (∀ {c : Code} {m m' : Machine} {e : RuntimeError}, c.Every Routine.Sized → m.Every Routine.Sized →
      exec c m = .error e m' → e.problem ≠ .underflow) ∧
    (∀ {calls argc : Nat} {routine : Routine} {captured : List Value} {m m' : Machine},
      (Value.closure routine captured).Every Routine.Sized → m.Every Routine.Sized →
      runBody (execWithin calls) routine captured (m.started routine.label argc) = .ok () m' →
      (m'.stack.size : Int) = m'.base + routine.frameSize) ∧
    (∀ {p : Program} {m m' : Machine} {e : RuntimeError}, p.Every Routine.Sized → run p m = .error e m' →
      e.problem.kind ≠ .unbalanced) := by
  refine ⟨fun hc hm h => ?_, fun hc hm h => ?_, fun {_ _ routine _ m m'} hv hm h => ?_, fun hp h => ?_⟩
  · have hpushed := (wp_ok (exec_pushes hc hm) h).1
    exact ⟨hpushed.size, hpushed.base, hpushed.depth⟩
  · have hregular := wp_error (exec_pushes hc hm) h
    intro hproblem
    rw [hproblem] at hregular
    exact hregular
  · have hpushed := (wp_ok (runBody_pushes (execWithin_balances _) hv (hm.started _ _)) h).1
    have hsized : 0 ≤ routine.frameSize := (Routine.every_iff.1 hv.1).1
    have hsize : m'.stack.size = m.stack.size + 1 + routine.frameSize.toNat := by
      rw [hpushed.size, started, Array.size_push]
    have hbase : m'.base = m.stack.size + 1 := hpushed.base
    omega
  · have hregular := wp_error (run_regular hp _) h
    intro hkind
    cases hproblem : RuntimeError.problem _ <;> rw [hproblem] at hkind hregular <;> cases hkind
    exact hregular

/-- A call of a routine that stores over its own argument, with a slot below zero. -/
def argumentOverwrite : Code :=
  .call (.const (.closure ⟨none, 1, 2, [⟨1, .itself⟩], .block [.store (-2) (.const (.boolean true))] (.load (-2))⟩ []))
    [.const (.boolean false)] 1

theorem argumentOverwrite_succeeds :
    (match exec argumentOverwrite (new ⟨1, 4⟩) with | .ok _ _ => true | .error _ _ => false) = true := by
  cbv

theorem stack_balanced_argumentOverwrite :
    ∃ m', exec argumentOverwrite (new ⟨1, 4⟩) = .ok () m' ∧ m'.stack.size = 0 ∧ m'.base = 0 ∧ m'.depth = 0 := by
  have hc : argumentOverwrite.Every Routine.Sized := by
    simp [argumentOverwrite, Code.Every, Code.EveryAll, Value.Every, Value.EveryAll, Routine.Every, Routine.Sized]
  have hm : (new ⟨1, 4⟩).Every Routine.Sized :=
    ⟨fun h => by simp [new] at h, trivial, fun h => by simp [new, Prelude.empty, Prelude.value?] at h⟩
  have hok := argumentOverwrite_succeeds
  cases h : exec argumentOverwrite (new ⟨1, 4⟩) with
  | ok a m' => exact ⟨m', rfl, stack_balanced.1 hc hm h⟩
  | error e m' => rw [h] at hok; cases hok

end Machine

end ClosureLang
