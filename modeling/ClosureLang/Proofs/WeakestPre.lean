import Mathlib
import ClosureLang.Machine.Exec

/-!
# Weakest preconditions of machine steps

`wp f Q E m` says how the step `f` ends on the machine `m`: with a result and a machine in `Q`, or with an error and a
machine in `E`. The rules below take the steps of the machine apart, one rule for each primitive.
-/

namespace ClosureLang.Machine

variable {α β : Type}

/-- From `m`, the step ends well in `Q` or with an error in `E`. -/
def wp (f : Step α) (Q : α → Machine → Prop) (E : RuntimeError → Machine → Prop) (m : Machine) : Prop :=
  match f m with
  | .ok a m' => Q a m'
  | .error e m' => E e m'

variable {Q : α → Machine → Prop} {E : RuntimeError → Machine → Prop} {m : Machine}

/-! ## Preconditions and outcomes -/

theorem wp_ok {f : Step α} {a : α} {m' : Machine} (h : wp f Q E m) (hf : f m = .ok a m') : Q a m' := by
  unfold wp at h
  rwa [hf] at h

theorem wp_error {f : Step α} {e : RuntimeError} {m' : Machine} (h : wp f Q E m) (hf : f m = .error e m') :
    E e m' := by
  unfold wp at h
  rwa [hf] at h

theorem wp_of_ok {f : Step α} {a : α} {m' : Machine} (hf : f m = .ok a m') (h : Q a m') : wp f Q E m := by
  unfold wp
  rwa [hf]

theorem wp_of_error {f : Step α} {e : RuntimeError} {m' : Machine} (hf : f m = .error e m') (h : E e m') :
    wp f Q E m := by
  unfold wp
  rwa [hf]

theorem wp_mono {f : Step α} {Q' : α → Machine → Prop} {E' : RuntimeError → Machine → Prop} (h : wp f Q E m)
    (hQ : ∀ a m', Q a m' → Q' a m') (hE : ∀ e m', E e m' → E' e m') : wp f Q' E' m := by
  unfold wp at h ⊢
  split at h
  · exact hQ _ _ h
  · exact hE _ _ h

/-! ## Steps of the monad -/

@[simp] theorem wp_pure {a : α} : wp (pure a) Q E m ↔ Q a m := Iff.rfl

@[simp] theorem wp_bind {f : Step β} {g : β → Step α} :
    wp (f >>= g) Q E = wp f (fun b => wp (g b) Q E) E := by
  funext m
  simp only [wp, bind, EStateM.bind]
  cases f m <;> rfl

@[simp] theorem wp_get {Q : Machine → Machine → Prop} : wp get Q E m ↔ Q m m := Iff.rfl

@[simp] theorem wp_modify {Q : Unit → Machine → Prop} {f : Machine → Machine} :
    wp (modify f) Q E = fun m => Q () (f m) := rfl

@[simp] theorem wp_throw {e : RuntimeError} : wp (throw e : Step α) Q E m ↔ E e m := Iff.rfl

@[simp] theorem wp_adaptExcept {f : Step α} {g : RuntimeError → RuntimeError} :
    wp (f.adaptExcept g) Q E = wp f Q (fun e => E (g e)) := by
  funext m
  simp only [wp, EStateM.adaptExcept]
  cases f m <;> rfl

@[simp] theorem wp_fault {problem : RuntimeProblem} : wp (fault problem : Step α) Q E m ↔ E (.of problem 0) m :=
  Iff.rfl

@[simp] theorem wp_setAccumulator {Q : Unit → Machine → Prop} {v : Value} :
    wp (setAccumulator v) Q E m ↔ Q () { m with accumulator := v } := Iff.rfl

/-! ## Steps on the stack -/

theorem wp_push {Q : Unit → Machine → Prop} {cell : Cell} :
    wp (push cell) Q E m ↔
      if m.stack.size < m.limits.maxStack then Q () { m with stack := m.stack.push cell }
      else E (.of .stackFull 0) m := by
  unfold wp push
  by_cases h : m.stack.size < m.limits.maxStack <;> simp only [h, if_true, if_false]

theorem wp_pop {Q : Cell → Machine → Prop} :
    wp pop Q E m ↔
      match m.stack.back? with
      | some cell => Q cell { m with stack := m.stack.pop }
      | none => E (.of .underflow 0) m := by
  unfold wp pop
  cases m.stack.back? <;> rfl

theorem wp_reserve {Q : Unit → Machine → Prop} {n : Nat} :
    wp (reserve n) Q E m ↔
      if n ≤ m.limits.maxStack - m.stack.size then Q () { m with stack := pushUnset n m.stack }
      else E (.of .stackFull 0) { m with stack := pushUnset (m.limits.maxStack - m.stack.size) m.stack } := by
  unfold wp reserve
  by_cases h : n ≤ m.limits.maxStack - m.stack.size <;> simp only [h, if_true, if_false]

theorem wp_release {Q : Unit → Machine → Prop} {n : Nat} :
    wp (release n) Q E m ↔
      if n ≤ m.stack.size then Q () { m with stack := m.stack.shrink (m.stack.size - n) }
      else E (.of .underflow 0) m := by
  unfold wp release
  by_cases h : n ≤ m.stack.size <;> simp only [h, if_true, if_false]

/-- A frame that is not smaller than nothing is reserved. -/
theorem wp_grow_of_nonneg {Q : Unit → Machine → Prop} {delta : Int} (h : 0 ≤ delta) :
    wp (grow delta) Q E m ↔ wp (reserve delta.toNat) Q E m := by
  rw [grow, if_pos h]

/-- Such a frame is given back when the call is over. -/
theorem wp_grow_neg_of_nonneg {Q : Unit → Machine → Prop} {delta : Int} (h : 0 ≤ delta) :
    wp (grow (-delta)) Q E m ↔ wp (release delta.toNat) Q E m := by
  by_cases hz : delta = 0
  · subst hz
    simp [grow, wp_reserve, wp_release, pushUnset]
  · rw [grow, if_neg (by omega), Int.neg_neg]

theorem wp_load {Q : Value → Machine → Prop} {offset : Int} :
    wp (load offset) Q E m ↔
      match m.index? offset with
      | none => E (m.outOfBounds offset) m
      | some i =>
        match m.stack.getD i .unset with
        | .value v => Q v m
        | .unset => E (.of (.readOfUnset offset) 0) m
        | .base _ => E (.of (.readOfBase offset) 0) m := by
  unfold wp load
  cases m.index? offset with
  | none => rfl
  | some i =>
    dsimp only
    cases m.stack.getD i .unset <;> rfl

theorem wp_store {Q : Unit → Machine → Prop} {offset : Int} {v : Value} :
    wp (store offset v) Q E m ↔
      match m.index? offset with
      | none => E (m.outOfBounds offset) m
      | some i => Q () { m with stack := m.stack.setIfInBounds i (.value v) } := by
  simp only [wp, store]
  cases m.index? offset <;> rfl

theorem wp_loadGlobal {Q : Value → Machine → Prop} {index : Nat} :
    wp (loadGlobal index) Q E m ↔
      match m.globals.value? index with
      | some v => Q v m
      | none => E (.of (.unknownGlobal index) 0) m := by
  simp only [wp, loadGlobal]
  cases m.globals.value? index <;> rfl

/-! ## Calls -/

/-- The machine when a call has saved the base of the caller's frame and opened the frame of the function. -/
def started (m : Machine) (function : String) (argc : Nat) : Machine :=
  { m with
    stack := m.stack.push (.base m.base)
    base := m.stack.size + 1
    depth := m.depth + 1
    calls := m.calls.map (·.push ⟨function, argc, m.stack.size + 1, m.depth + 1⟩) }

theorem wp_openFrame {Q : Unit → Machine → Prop} {function : String} {argc : Nat} :
    wp (openFrame function argc) Q E { m with stack := m.stack.push (.base m.base) } ↔
      Q () (m.started function argc) := by
  rw [started, ← Array.size_push (.base m.base)]
  rfl

theorem wp_closeFrame {Q : Unit → Machine → Prop} {line : Nat} :
    wp (closeFrame line) Q E m ↔
      match m.stack.back? with
      | none => E (.of .underflow 0) m
      | some (.base saved) => Q () { m with stack := m.stack.pop, base := saved }
      | some found => E (.of (.lostBase found) line) { m with stack := m.stack.pop } := by
  rw [closeFrame, wp_bind, wp_pop]
  cases m.stack.back? with
  | none => rfl
  | some cell => cases cell <;> rfl

/-- What a call comes to: two checks, the run of the function in its own frame, and the way back. -/
theorem wp_call {Q : Unit → Machine → Prop} {deeper : Deeper} {callee : Callee} {argc line : Nat} :
    wp (call deeper callee argc line) Q E m ↔
      if argc ≠ callee.arity then E (.of (.wrongArity callee.name callee.arity argc) line) m
      else
        match deeper with
        | none => E (.of (.callsTooDeep m.limits.maxCallDepth) line) m
        | some run =>
          if m.stack.size < m.limits.maxStack then
            wp (runCallee run callee)
              (fun _ => wp (closeFrame line)
                (fun _ => wp (release argc) (fun _ m' => Q () { m' with depth := m'.depth - 1 }) E) E)
              (fun e => E ((e.atLine line).leaving callee.name line)) (m.started callee.name argc)
          else E ((RuntimeError.of .stackFull 0).atLine line) m := by
  unfold call
  by_cases h : argc = callee.arity
  · rw [if_neg (fun hne => hne h), if_neg (fun hne => hne h)]
    cases deeper with
    | none => rfl
    | some run =>
      dsimp only
      rw [wp_bind, wp_get, wp_bind, wp_adaptExcept, wp_push, wp_bind, wp_openFrame]
      simp only [wp_bind, wp_adaptExcept, wp_modify]
  · rw [if_pos h, if_pos h]
    rfl

/-- What is there for calls that may nest `n` deep. -/
def levels : (n : Nat) → Deeper
  | 0 => none
  | n + 1 => some (execWithin n)

theorem execWithin_eq (n : Nat) : execWithin n = execWith (levels n) := by
  cases n <;> rfl

/-! ## Programs -/

/-- The machine on which a program starts. -/
def cleared (m : Machine) (globals : Prelude) : Machine := { m.reset with globals := globals }

theorem wp_run {Q : Value → Machine → Prop} {p : Program} :
    wp (run p) Q E m ↔
      wp (grow p.main.frameSize)
        (fun _ => wp (exec p.main.body)
          (fun _ => wp (grow (-p.main.frameSize))
            (fun _ m' => if m'.stack.size = 0 then Q m'.accumulator m'
              else E (.of (.leftOver m'.stack.size) 0) m'.reset) E) E) E (m.cleared p.globals) := by
  rw [run, wp_bind, wp_modify]
  simp only [wp_bind]
  refine iff_of_eq (congrArg (fun Q => wp _ Q E (m.cleared p.globals)) ?_)
  funext _
  congr 1
  funext _
  congr 1
  funext _ m'
  rw [wp_get]
  by_cases h : m'.stack.size = 0
  · simp only [h, ne_eq, not_true_eq_false, if_false, if_true]
    rfl
  · simp only [h, ne_eq, not_false_eq_true, if_false, if_true]
    rfl

/-! ## Reserved cells -/

@[simp] theorem size_pushUnset (n : Nat) (stack : Array Cell) : (pushUnset n stack).size = stack.size + n := by
  induction n generalizing stack with
  | zero => rfl
  | succ n ih =>
    rw [pushUnset, ih, Array.size_push]
    omega

theorem getElem?_pushUnset (n : Nat) (stack : Array Cell) (i : Nat) :
    (pushUnset n stack)[i]? =
      if i < stack.size then stack[i]? else if i < stack.size + n then some .unset else none := by
  induction n generalizing stack with
  | zero =>
    by_cases h : i < stack.size
    · simp [pushUnset, h]
    · simp [pushUnset, h]
  | succ n ih =>
    rw [pushUnset, ih, Array.size_push, Array.getElem?_push]
    grind

theorem getElem?_shrink (stack : Array Cell) (n i : Nat) :
    (stack.shrink n)[i]? = if i < n then stack[i]? else none := by
  rw [Array.shrink_eq_take, Array.take_eq_extract, Array.getElem?_extract]
  grind

end ClosureLang.Machine
