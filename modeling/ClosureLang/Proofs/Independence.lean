import ClosureLang.Proofs.Executions
import ClosureLang.Proofs.Limits

/-!
# A closure does not depend on its caller

What a call of a closure comes to is settled by the closure, its captured values and the arguments. Whatever is on the
stack, wherever the frame of the caller is and however deep the call is nested, the outcome is the same unless the
machine gives up at one of its limits.

A call that does not give up is compared with the same call under higher limits, and that one with what the closure
computes in an activation of its own. The activation knows nothing of the machine but its prelude, and limits that are
high enough for two machines are high enough for both calls.
-/

namespace ClosureLang

/-- The value arises in a run of a program that was compiled from a resolved tree. -/
def Value.FromRun (v : Value) : Prop :=
  ∃ (globals : Prelude) (e e' : Expr) (r : Resolver) (p : Program) (m : Machine), globals.Plain ∧
    (Resolver.new globals.names).program e = .done e' r ∧ e'.toProgram r.scopes globals = .ok p ∧ p.Arises m v

theorem Value.FromRun.every {v : Value} (h : v.FromRun) : v.Every Routine.Fits := by
  obtain ⟨globals, e, e', r, p, m, hplain, hresolved, hprogram, harises⟩ := h
  obtain ⟨s, c, -, -, harity, hfits, hprogram'⟩ := (Resolver.program_sound hresolved).program globals
  obtain rfl : p = ⟨.ofScope s [] c, globals⟩ := Except.ok.inj (hprogram.symm.trans hprogram')
  exact harises.every ⟨hfits, hplain.every⟩ harity

namespace Machine

/-- Pushes values, the last one first. -/
def pushAll : List Value → Step Unit
  | [] => return ()
  | v :: vs => do
    pushAll vs
    push (.value v)

/-- Calls a function with arguments on a machine as it is. -/
def invoke (callee : Callee) (args : List Value) (line : Nat) : Step Unit := do
  pushAll args
  let m ← get
  call (levels (m.limits.maxCallDepth - m.depth)) callee args.length line

/-- How a step ends: with a value in the accumulator or with an error. -/
def outcome (f : Step Unit) (m : Machine) : Except RuntimeError Value :=
  match f m with
  | .ok _ m' => .ok m'.accumulator
  | .error e _ => .error e

/-- The step gives up at a limit. -/
def Overflows (f : Step Unit) (m : Machine) : Prop := ∃ e, outcome f m = .error e ∧ e.problem.kind = .stackOverflow

variable {m : Machine} {callee : Callee} {args : List Value}

theorem pushAll_stacked (vs : List Value) (m : Machine) :
    wp (pushAll vs)
      (fun _ m' => Stacked m' vs ∧ m'.limits = m.limits ∧ m'.depth = m.depth ∧ m'.globals = m.globals)
      (fun e _ => e.problem = .stackFull) m := by
  induction vs with
  | nil => exact ⟨⟨Nat.zero_le _, fun hv => by cases hv⟩, rfl, rfl, rfl⟩
  | cons v vs ih =>
    rw [pushAll, wp_bind]
    refine wp_mono ih (fun _ m₁ ⟨hs, hlimits, hdepth, hglobals⟩ => ?_) fun _ _ => id
    rw [wp_push]
    split
    · exact ⟨hs.push v, hlimits, hdepth, hglobals⟩
    · rfl

/-- A call that does not give up comes to what the function computes in an activation, for all limits that are not lower
than those of the machine. -/
theorem outcome_invoke (hc : callee.toValue.Every Routine.Fits) (hargs : ∀ v ∈ args, v.Every Routine.Fits)
    (hglobals : m.globals.Plain) {l : Limits} (hdepth : m.limits.maxCallDepth ≤ l.maxCallDepth)
    (hstack : m.limits.maxStack ≤ l.maxStack) {n : Nat} (hn : m.limits.maxCallDepth - m.depth ≤ n) {line : Nat}
    (hm : ¬ Overflows (invoke callee args line) m) :
    outcome (invoke callee args line) m =
      Activation.call ⟨l.maxCallDepth, m.globals, Activation.levels l.maxCallDepth m.globals n, []⟩ callee args
        line := by
  cases hpush : pushAll args m with
  | error e m₁ =>
    -- Nothing but a full stack keeps arguments from being pushed.
    have hfull : e.problem = .stackFull := wp_error (pushAll_stacked args m) hpush
    exact absurd ⟨e, by simp only [outcome, invoke, bind, EStateM.bind, hpush], by rw [hfull]; rfl⟩ hm
  | ok _ m₁ =>
    obtain ⟨hs, hlimits, hdepth₁, hglobals₁⟩ := wp_ok (pushAll_stacked args m) hpush
    have hinvoke : invoke callee args line m =
        call (levels (m.limits.maxCallDepth - m.depth)) callee args.length line m₁ := by
      rw [← hlimits, ← hdepth₁]
      simp only [invoke, bind, EStateM.bind, hpush]
      rfl
    -- The same call on the same stack, under the higher limits, with which it has room.
    have hraised : Raised (·.kind = .stackOverflow) m₁.limits l :=
      ⟨hlimits ▸ hstack, rfl, .inr ⟨hlimits ▸ hdepth, fun _ => rfl⟩⟩
    have hcarries := carries_call hraised (carries_levels hraised (.inr ⟨hn, fun _ => rfl⟩)) callee args.length line
      (m := m₁) rfl none
    let a : Activation := ⟨l.maxCallDepth, m.globals, Activation.levels l.maxCallDepth m.globals n, []⟩
    have hstacked : Stacked (m₁.under l none) args := ⟨hs.height, hs.cells⟩
    have hevery : Activation.Every Routine.Fits { a with args } Slots.empty :=
      ⟨hargs, (fun hv => by cases hv), hglobals.every⟩
    have hfollows := call_follows (levels_matches a n) hc hstacked rfl hglobals₁ hevery line
    cases hcall : call (levels (m.limits.maxCallDepth - m.depth)) callee args.length line m₁ with
    | ok _ m₂ =>
      obtain ⟨-, calls, hup⟩ := wp_ok hcarries hcall
      obtain ⟨v, hv, hacc, -⟩ := wp_ok hfollows hup
      rw [hv, ← hacc, outcome, hinvoke, hcall]
      rfl
    | error e m₂ =>
      have houtcome : outcome (invoke callee args line) m = .error e := by rw [outcome, hinvoke, hcall]
      have hkind : e.problem.kind ≠ .stackOverflow := fun hkind => hm ⟨e, houtcome, hkind⟩
      -- The call under the higher limits has the same error, so it has not run out of room either.
      obtain ⟨calls, hup⟩ := (wp_error hcarries hcall).resolve_left hkind
      rcases wp_error hfollows hup with hfull | herror
      · exact absurd (by rw [hfull]; rfl) hkind
      · rw [houtcome, herror]

/-- A function that arose in a run, called with arguments that arose in runs, does the same on every machine that has
the prelude: its outcome does not depend on the stack, the frame of the caller, the accumulator, the depth of the call
or the limits, unless one of the machines gives up. -/
theorem invoke_independent {callee : Callee} {args : List Value} (hcallee : callee.toValue.FromRun)
    (hargs : ∀ v ∈ args, v.FromRun) {m₁ m₂ : Machine} (hglobals : m₁.globals = m₂.globals)
    (hplain : m₁.globals.Plain) (line : Nat) (h₁ : ¬ Overflows (invoke callee args line) m₁)
    (h₂ : ¬ Overflows (invoke callee args line) m₂) :
    outcome (invoke callee args line) m₁ = outcome (invoke callee args line) m₂ := by
  have hfits : ∀ v ∈ args, v.Every Routine.Fits := fun v hv => (hargs v hv).every
  let l : Limits := ⟨max m₁.limits.maxCallDepth m₂.limits.maxCallDepth, max m₁.limits.maxStack m₂.limits.maxStack⟩
  let n := max (m₁.limits.maxCallDepth - m₁.depth) (m₂.limits.maxCallDepth - m₂.depth)
  have hleft := outcome_invoke hcallee.every hfits hplain (l := l) (n := n) (le_max_left _ _) (le_max_left _ _)
    (le_max_left _ _) h₁
  have hright := outcome_invoke hcallee.every hfits (hglobals ▸ hplain) (l := l) (n := n) (le_max_right _ _)
    (le_max_right _ _) (le_max_right _ _) h₂
  rw [hleft, hright, hglobals]

/-- `{ flag = true; b -> and(b, flag) }` -/
def keptFlag : Expr :=
  let x (name : String) : Expr := .name default name none
  .block default
    [.assign default "flag" (x "true") none,
      .lambda default [x "b"] (.call default (x "and") [x "b", x "flag"]) none none]

/-- What the program above returns. -/
def flagTest : Callee :=
  .closure ⟨none, 1, 1, [⟨0, .frame 0⟩], .call (.global 11) [.load (-2), .load 0] 0⟩ [.boolean true]

theorem flagTest_fromRun : flagTest.toValue.FromRun := by
  have hreturns : (match (Resolver.new Prelude.standard.names).program keptFlag with
      | .failed _ _ _ => none
      | .done e' r =>
        match e'.toProgram r.scopes .standard with
        | .error _ => none
        | .ok p =>
          match run p (new ⟨2, 8⟩) with
          | .ok v _ => some v
          | .error _ _ => none) = some flagTest.toValue := by cbv
  split at hreturns
  · cases hreturns
  next e' r hresolved =>
  split at hreturns
  · cases hreturns
  next p hprogram =>
  split at hreturns
  · next v m' hrun =>
    cases hreturns
    exact ⟨.standard, keptFlag, e', r, p, _, Prelude.plain_standard, hresolved, hprogram, Program.arises_of_run hrun⟩
  · cases hreturns

/-- A machine in the middle of some other work. -/
def busy : Machine :=
  ⟨#[.value (.boolean false), .base 7, .unset], 40, .builtin .add, 3, ⟨9, 20⟩, .standard, some #[]⟩

/-- A machine that has done nothing yet. -/
def fresh : Machine := { new ⟨2, 8⟩ with globals := .standard }

/-- A closure is no truth value. -/
def flagError : RuntimeError :=
  ⟨.wrongOperands .and [flagTest.toValue, .boolean true], 5, #[⟨"and", 0⟩, ⟨"<lambda>", 5⟩]⟩

theorem invoke_independent_flagTest :
    flagTest.toValue.FromRun ∧ outcome (invoke flagTest [flagTest.toValue] 5) busy = .error flagError ∧
      outcome (invoke flagTest [flagTest.toValue] 5) fresh = outcome (invoke flagTest [flagTest.toValue] 5) busy := by
  have hbusy : outcome (invoke flagTest [flagTest.toValue] 5) busy = .error flagError := by cbv
  have hfresh : outcome (invoke flagTest [flagTest.toValue] 5) fresh = .error flagError := by cbv
  have hsettled : ∀ m, outcome (invoke flagTest [flagTest.toValue] 5) m = .error flagError →
      ¬ Overflows (invoke flagTest [flagTest.toValue] 5) m := by
    rintro m hm ⟨e, he, hkind⟩
    cases hm.symm.trans he
    cases hkind
  have hglobals : fresh.globals = busy.globals := rfl
  have hargs : ∀ v ∈ [flagTest.toValue], v.FromRun := by simpa using flagTest_fromRun
  exact ⟨flagTest_fromRun, hbusy, invoke_independent flagTest_fromRun hargs hglobals Prelude.plain_standard 5
    (hsettled fresh hfresh) (hsettled busy hbusy)⟩

end Machine

end ClosureLang
