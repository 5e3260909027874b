import ClosureLang.Proofs.WeakestPre

/-!
# The routines inside code and values

Code holds routines in its closures, and so do constants and captured values. `Every P` says that all of them satisfy
`P`, at any depth. Since no instruction makes a new routine, a machine whose values satisfy `Every P` keeps doing so
while it runs code that does.
-/

namespace ClosureLang

mutual

/-- Every routine in the code satisfies `P`. -/
def Code.Every (P : Routine → Prop) : Code → Prop
  | .const v => v.Every P
  | .load _ | .global _ => True
  | .store _ value => value.Every P
  | .block stores result => Code.EveryAll P stores ∧ result.Every P
  | .cond test onTrue onFalse _ => test.Every P ∧ onTrue.Every P ∧ onFalse.Every P
  | .closure routine => routine.Every P
  | .call callee args _ => callee.Every P ∧ Code.EveryAll P args

def Code.EveryAll (P : Routine → Prop) : List Code → Prop
  | [] => True
  | c :: cs => c.Every P ∧ Code.EveryAll P cs

def Routine.Every (P : Routine → Prop) : Routine → Prop
  | ⟨name, arity, frameSize, captures, body⟩ => P ⟨name, arity, frameSize, captures, body⟩ ∧ body.Every P

/-- Every routine in the value and in what it captured satisfies `P`. -/
def Value.Every (P : Routine → Prop) : Value → Prop
  | .number _ | .boolean _ | .builtin _ => True
  | .closure routine captured => routine.Every P ∧ Value.EveryAll P captured

def Value.EveryAll (P : Routine → Prop) : List Value → Prop
  | [] => True
  | v :: vs => v.Every P ∧ Value.EveryAll P vs

end

variable {P : Routine → Prop}

theorem Routine.every_iff {r : Routine} : r.Every P ↔ P r ∧ r.body.Every P := by
  cases r
  rw [Routine.Every]

theorem Value.everyAll_iff {vs : List Value} : Value.EveryAll P vs ↔ ∀ v ∈ vs, v.Every P := by
  induction vs with
  | nil => simp [Value.EveryAll]
  | cons v vs ih => simp [Value.EveryAll, ih]

theorem Code.everyAll_iff {cs : List Code} : Code.EveryAll P cs ↔ ∀ c ∈ cs, c.Every P := by
  induction cs with
  | nil => simp [Code.EveryAll]
  | cons c cs ih => simp [Code.EveryAll, ih]

/-! ## Preludes -/

/-- A prelude without code of its own: its entries are numbers, truth values and builtins. -/
def Prelude.Plain (globals : Prelude) : Prop :=
  ∀ i routine captured, globals.value? i ≠ some (.closure routine captured)

theorem Prelude.Plain.every {globals : Prelude} (h : globals.Plain) {i : Nat} {v : Value}
    (hv : globals.value? i = some v) : v.Every P := by
  cases v with
  | closure routine captured => exact absurd hv (h i routine captured)
  | number | boolean | builtin => trivial

theorem Prelude.plain_standard : Prelude.standard.Plain := by
  intro i routine captured h
  obtain ⟨entry, hentry, hvalue⟩ := Option.map_eq_some_iff.1 h
  have hmem := List.mem_of_getElem? hentry
  simp only [standard, List.mem_append, List.mem_map, List.mem_cons, List.not_mem_nil, or_false] at hmem
  rcases hmem with ⟨b, -, rfl⟩ | rfl | rfl <;> cases hvalue

/-! ## Builtins -/

namespace Builtin

/-- A builtin gives a number or a truth value, so it makes no routine. -/
theorem every_of_apply₁ {b : Builtin} {v u : Value} (h : b.apply₁ v = .ok u) : u.Every P := by
  unfold apply₁ at h
  split at h <;> cases h <;> trivial

theorem every_of_apply₂ {b : Builtin} {v w u : Value} (h : b.apply₂ v w = .ok u) : u.Every P := by
  unfold apply₂ at h
  split at h
  · cases b <;> simp only [applyToNumbers] at h <;> (try split at h) <;> cases h <;> trivial
  · cases b <;> simp only [applyToBooleans] at h <;> cases h <;> trivial
  · cases h

/-- A builtin fails on operands of the wrong kind and on a division by zero. -/
theorem kind_of_apply₁_error {b : Builtin} {v : Value} {problem : RuntimeProblem}
    (h : b.apply₁ v = .error problem) : problem.kind = .typeMismatch := by
  unfold apply₁ at h
  split at h
  · cases h
  · cases h
  · cases h
    rfl

theorem kind_of_apply₂_error {b : Builtin} {v w : Value} {problem : RuntimeProblem}
    (h : b.apply₂ v w = .error problem) : problem.kind = .typeMismatch ∨ problem.kind = .divisionByZero := by
  unfold apply₂ at h
  split at h
  · cases b <;> simp only [applyToNumbers] at h <;> (try split at h) <;> cases h <;>
      simp [RuntimeProblem.kind]
  · cases b <;> simp only [applyToBooleans] at h <;> cases h <;> simp [RuntimeProblem.kind]
  · cases h
    exact .inl rfl

end Builtin

namespace RuntimeError

@[simp] theorem problem_of (problem : RuntimeProblem) (line : Nat) : (of problem line).problem = problem := rfl

@[simp] theorem problem_atLine (e : RuntimeError) (line : Nat) : (e.atLine line).problem = e.problem := by
  unfold atLine
  split <;> rfl

@[simp] theorem problem_leaving (e : RuntimeError) (function : String) (line : Nat) :
    (e.leaving function line).problem = e.problem := rfl

end RuntimeError

/-! ## Machines and programs -/

/-- Every routine of the program and of its prelude satisfies `P`. -/
structure Program.Every (P : Routine → Prop) (p : Program) : Prop where
  main : p.main.Every P
  globals : ∀ {i : Nat} {v : Value}, p.globals.value? i = some v → v.Every P

namespace Machine

/-- Every routine that a machine can reach satisfies `P`. -/
structure Every (P : Routine → Prop) (m : Machine) : Prop where
  stack : ∀ {i : Nat} {v : Value}, m.stack[i]? = some (.value v) → v.Every P
  accumulator : m.accumulator.Every P
  globals : ∀ {i : Nat} {v : Value}, m.globals.value? i = some v → v.Every P

variable {m : Machine}

theorem Every.cleared {p : Program} (h : p.Every P) (m : Machine) : (m.cleared p.globals).Every P :=
  ⟨fun hv => by simp [Machine.cleared, reset] at hv, trivial, h.globals⟩

theorem Every.started (h : m.Every P) (function : String) (argc : Nat) : (m.started function argc).Every P where
  stack {i v} hv := by
    rw [Machine.started, Array.getElem?_push] at hv
    split at hv
    · cases hv
    · exact h.stack hv
  accumulator := h.accumulator
  globals := h.globals

theorem Every.setAccumulator (h : m.Every P) {v : Value} (hv : v.Every P) :
    Every P { m with accumulator := v } :=
  ⟨h.stack, hv, h.globals⟩

/-- A step may take cells away, or change them as long as it stores values that satisfy `P`. -/
theorem Every.withStack (h : m.Every P) {stack : Array Cell}
    (hs : ∀ (i : Nat) (v : Value), stack[i]? = some (.value v) → m.stack[i]? = some (.value v) ∨ v.Every P) :
    Every P { m with stack := stack } where
  stack hv := (hs _ _ hv).elim h.stack id
  accumulator := h.accumulator
  globals := h.globals

theorem Every.push (h : m.Every P) {cell : Cell} (hc : ∀ v, cell = .value v → v.Every P) :
    Every P { m with stack := m.stack.push cell } :=
  h.withStack fun i v hv => by
    rw [Array.getElem?_push] at hv
    split at hv
    · exact .inr (hc v (Option.some.inj hv))
    · exact .inl hv

theorem Every.pop (h : m.Every P) : Every P { m with stack := m.stack.pop } :=
  h.withStack fun i v hv => by
    rw [Array.getElem?_pop] at hv
    split at hv
    · exact .inl hv
    · cases hv

theorem Every.shrink (h : m.Every P) (n : Nat) : Every P { m with stack := m.stack.shrink n } :=
  h.withStack fun i v hv => by
    rw [getElem?_shrink] at hv
    split at hv
    · exact .inl hv
    · cases hv

theorem Every.pushUnset (h : m.Every P) (n : Nat) : Every P { m with stack := pushUnset n m.stack } :=
  h.withStack fun i v hv => by
    rw [getElem?_pushUnset] at hv
    split at hv
    · exact .inl hv
    · split at hv <;> cases hv

theorem Every.store (h : m.Every P) (i : Nat) {v : Value} (hv : v.Every P) :
    Every P { m with stack := m.stack.setIfInBounds i (.value v) } :=
  h.withStack fun j w hw => by
    rw [Array.getElem?_setIfInBounds] at hw
    split at hw
    · split at hw
      · cases hw
        exact .inr hv
      · cases hw
    · exact .inl hw

end Machine

end ClosureLang
