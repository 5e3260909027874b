import ClosureLang.Proofs.WeakestPre

/-!
# One piece of work at a time

`execWith` runs code as a whole, with a fixed number of levels for the calls inside. Here the same machine goes step by
step. It keeps a list of the work that is left, looks at the first piece only, and compares its call depth with the
limit whenever a call starts. Nothing bounds the number of steps.

Both ways of running come to the same: where the code ends well, so do the steps, with the same machine; where it fails,
the steps come to a piece of work that fails, and the calls that are still open then make up the trace of the error.
-/

namespace ClosureLang.Machine

/-! ## Work -/

/-- What a machine has left to do. Lines are those of the call or condition that the work belongs to. -/
inductive Work where
  | run (code : Code)
  | store (slot : Int)
  | branch (onTrue onFalse : Code) (line : Nat)
  | apply (args : List Code) (line : Nat)
  | push (line : Nat)
  | call (callee : Callee) (argc line : Nat)
  | enter (callee : Callee) (argc line : Nat)
  | leave (callee : Callee) (argc line : Nat)

/-- What an error has to say about a call that it leaves. -/
def Callee.note (callee : Callee) (line : Nat) (e : RuntimeError) : RuntimeError :=
  (e.atLine line).leaving callee.name line

/-- The body of a closure. A builtin has none. -/
def Callee.body : Callee → List Work
  | .builtin _ => []
  | .closure routine _ => [.run routine.body]

/-- Checks a call, saves the base of the caller's frame and opens the frame of the function. -/
def startCall (callee : Callee) (argc line : Nat) : Step Unit := do
  if argc ≠ callee.arity then throw (.of (.wrongArity callee.name callee.arity argc) line)
  let m ← get
  if m.limits.maxCallDepth ≤ m.depth then throw (.of (.callsTooDeep m.limits.maxCallDepth) line)
  (push (.base m.base)).adaptExcept (·.atLine line)
  openFrame callee.name argc

/-- Runs a builtin, or fills the frame of a closure. -/
def beginCallee : Callee → Step Unit
  | .builtin b => do setAccumulator (← applyBuiltin b)
  | .closure routine captured => do
    grow routine.frameSize
    fillCaptures (.closure routine captured) routine.captures captured

/-- Gives the slots of a closure back. -/
def endCallee : Callee → Step Unit
  | .builtin _ => return ()
  | .closure routine _ => grow (-routine.frameSize)

/-- Takes a call back whose function has run. -/
def finishCall (callee : Callee) (argc line : Nat) : Step Unit := do
  (endCallee callee).adaptExcept (callee.note line)
  closeFrame line
  release argc
  modify fun m => { m with depth := m.depth - 1 }

section Calls

variable {Q : Unit → Machine → Prop} {E : RuntimeError → Machine → Prop} {m : Machine} {callee : Callee}
  {argc line : Nat}

theorem wp_startCall :
    wp (startCall callee argc line) Q E m ↔
      if argc ≠ callee.arity then E (.of (.wrongArity callee.name callee.arity argc) line) m
      else if m.limits.maxCallDepth ≤ m.depth then E (.of (.callsTooDeep m.limits.maxCallDepth) line) m
      else if m.stack.size < m.limits.maxStack then Q () (m.started callee.name argc)
      else E ((RuntimeError.of .stackFull 0).atLine line) m := by
  unfold startCall
  by_cases harity : argc = callee.arity
  · rw [if_neg (fun hne => hne harity), if_neg (fun hne => hne harity), wp_bind, wp_get]
    by_cases hdepth : m.limits.maxCallDepth ≤ m.depth
    · rw [if_pos hdepth, if_pos hdepth]
      rfl
    · rw [if_neg hdepth, if_neg hdepth, wp_bind, wp_adaptExcept, wp_push, wp_openFrame]
  · rw [if_pos harity, if_pos harity]
    rfl

theorem wp_finishCall :
    wp (finishCall callee argc line) Q E m ↔
      wp (endCallee callee)
        (fun _ => wp (closeFrame line)
          (fun _ => wp (release argc) (fun _ m' => Q () { m' with depth := m'.depth - 1 }) E) E)
        (fun e => E (callee.note line e)) m := by
  rw [finishCall]
  simp only [wp_bind, wp_adaptExcept, wp_modify]

end Calls

namespace Work

/-- The results of arguments are pushed, the last one first. -/
def pushAll (line : Nat) : List Code → List Work
  | [] => []
  | c :: cs => pushAll line cs ++ [run c, push line]

/-- A step, and what is left to do after it. -/
def following (f : Step Unit) (works : List Work) : Step (List Work) := do
  f
  return works

/-- Does one piece of work as far as the machine can without looking at other code, and gives what it leads to. -/
def perform : Work → Step (List Work)
  | run (.const v) => following (setAccumulator v) []
  | run (.load offset) => following (do setAccumulator (← Machine.load offset)) []
  | run (.global index) => following (do setAccumulator (← loadGlobal index)) []
  | run (.store slot value) => return [run value, store slot]
  | run (.block stores result) => return stores.map run ++ [run result]
  | run (.cond test onTrue onFalse line) => return [run test, branch onTrue onFalse line]
  | run (.closure routine) => following (do setAccumulator (.closure routine (← loadAll routine.sources))) []
  | run (.call callee args line) => return [run callee, apply args line]
  | store slot => following (do Machine.store slot (← get).accumulator) []
  | branch onTrue onFalse line => do
    match (← get).accumulator with
    | .boolean true => return [run onTrue]
    | .boolean false => return [run onFalse]
    | found => throw (.of (.conditionNotBoolean found) line)
  | apply args line => do
    let found := (← get).accumulator
    match Callee.ofValue? found with
    | none => throw (.of (.notCallable found) line)
    | some callee => return pushAll line args ++ [call callee args.length line]
  | push line => following (do (Machine.push (.value (← get).accumulator)).adaptExcept (·.atLine line)) []
  | call callee argc line => following (startCall callee argc line) [enter callee argc line]
  | enter callee argc line =>
    following ((beginCallee callee).adaptExcept (callee.note line)) (callee.body ++ [leave callee argc line])
  | leave callee argc line => following (finishCall callee argc line) []

theorem perform_branch (onTrue onFalse : Code) (line : Nat) (m : Machine) : (branch onTrue onFalse line).perform m =
    match m.accumulator with
    | .boolean true => .ok [run onTrue] m
    | .boolean false => .ok [run onFalse] m
    | found => .error (.of (.conditionNotBoolean found) line) m := by
  show (match m.accumulator with
    | .boolean true => (return [run onTrue] : Step (List Work))
    | .boolean false => return [run onFalse]
    | found => throw (RuntimeError.of (.conditionNotBoolean found) line)) m = _
  generalize m.accumulator = found
  rcases found with _ | ⟨_ | _⟩ | _ | _ <;> rfl

theorem perform_apply (args : List Code) (line : Nat) (m : Machine) : (apply args line).perform m =
    match Callee.ofValue? m.accumulator with
    | none => .error (.of (.notCallable m.accumulator) line) m
    | some callee => .ok (pushAll line args ++ [call callee args.length line]) m := by
  show (match Callee.ofValue? m.accumulator with
    | none => (throw (RuntimeError.of (.notCallable m.accumulator) line) : Step (List Work))
    | some callee => return pushAll line args ++ [call callee args.length line]) m = _
  cases Callee.ofValue? m.accumulator <;> rfl

/-- The call that a function has been entered for and not left. -/
def site? : Work → Option CallSite
  | enter callee _ line | leave callee _ line => some ⟨callee.name, line⟩
  | _ => none

/-- The calls that are open while this work is left, the innermost first. -/
def sites (works : List Work) : List CallSite := works.filterMap site?

/-- What becomes of an error on its way out, past the work that is left. -/
def unwind : List Work → RuntimeError → RuntimeError
  | [], e => e
  | enter callee _ line :: works, e | leave callee _ line :: works, e => unwind works (callee.note line e)
  | _ :: works, e => unwind works e

end Work

/-- A machine and what it has left to do. -/
structure Config where
  works : List Work
  machine : Machine

namespace Config

/-- One piece of work is done. -/
inductive Next : Config → Config → Prop where
  | perform {w : Work} {works rest : List Work} {m m' : Machine} (h : w.perform m = .ok works m') :
    Next ⟨w :: rest, m⟩ ⟨works ++ rest, m'⟩

/-- Any number of pieces is done. -/
abbrev Reaches : Config → Config → Prop := Relation.ReflTransGen Next

/-- The first piece of work fails. The error has the open calls in its trace when it comes out. -/
inductive Fails : Config → RuntimeError → Machine → Prop where
  | perform {w : Work} {rest : List Work} {m m' : Machine} {e : RuntimeError} (h : w.perform m = .error e m') :
    Fails ⟨w :: rest, m⟩ (Work.unwind rest e) m'

variable {c c' c'' : Config} {ws ws' rest : List Work} {m m' : Machine} {e : RuntimeError}

theorem Next.unique (h : Next c c') (h' : Next c c'') : c' = c'' := by
  cases h with
  | perform h =>
    cases h' with
    | perform h' =>
      cases h.symm.trans h'
      rfl

theorem Fails.not_next (h : Fails c e m) : ¬ Next c c' := by
  intro h'
  cases h with
  | perform h =>
    cases h' with
    | perform h' => cases h.symm.trans h'

theorem not_next_done (m : Machine) (c : Config) : ¬ Next ⟨[], m⟩ c := by
  intro h
  cases h

/-- Where steps come to an end, they do so from everything that is on their way. -/
theorem Reaches.to_done (h : Reaches c ⟨[], m⟩) (h' : Reaches c c') : Reaches c' ⟨[], m⟩ := by
  have hunique : Relator.RightUnique Next := fun _ _ _ => Next.unique
  rcases Relation.ReflTransGen.total_of_right_unique hunique h h' with h | h
  · rcases h.cases_head with rfl | ⟨_, hnext, -⟩
    · exact .refl
    · exact absurd hnext (not_next_done m _)
  · exact h

theorem Reaches.not_fails (h : Reaches c ⟨[], m⟩) (h' : Reaches c c') : ¬ c'.Fails e m' := by
  intro hfails
  rcases (h.to_done h').cases_head with rfl | ⟨_, hnext, -⟩
  · cases hfails
  · exact hfails.not_next hnext

theorem Next.append (h : Next ⟨ws, m⟩ ⟨ws', m'⟩) (rest : List Work) : Next ⟨ws ++ rest, m⟩ ⟨ws' ++ rest, m'⟩ := by
  cases h with
  | perform h =>
    rw [List.append_assoc]
    exact .perform h

/-- A step does not look at what is left to do after it. -/
theorem Reaches.append (h : Reaches ⟨ws, m⟩ ⟨ws', m'⟩) (rest : List Work) :
    Reaches ⟨ws ++ rest, m⟩ ⟨ws' ++ rest, m'⟩ := by
  generalize hc : (⟨ws, m⟩ : Config) = c at h
  generalize hc' : (⟨ws', m'⟩ : Config) = c' at h
  induction h generalizing ws' m' with
  | refl =>
    cases hc.trans hc'.symm
    exact .refl
  | @tail c₁ c₂ _ hnext ih =>
    subst hc'
    exact (ih rfl).tail (Next.append hnext rest)

end Config

namespace Work

theorem unwind_append (ws ws' : List Work) (e : RuntimeError) : unwind (ws ++ ws') e = unwind ws' (unwind ws e) := by
  induction ws generalizing e with
  | nil => rfl
  | cons w ws ih => cases w <;> exact ih _

/-- Work that no call is open in leaves errors as they are. -/
theorem unwind_of_sites {ws : List Work} (h : sites ws = []) (e : RuntimeError) : unwind ws e = e := by
  induction ws with
  | nil => rfl
  | cons w ws ih =>
    cases w with
    | enter | leave => cases h
    | run | store | branch | apply | push | call => exact ih h

theorem sites_append (ws ws' : List Work) : sites (ws ++ ws') = sites ws ++ sites ws' := List.filterMap_append

theorem sites_map_run (cs : List Code) : sites (cs.map run) = [] := by
  induction cs with
  | nil => rfl
  | cons c cs ih => exact ih

theorem sites_pushAll (line : Nat) (cs : List Code) : sites (pushAll line cs) = [] := by
  induction cs with
  | nil => rfl
  | cons c cs ih =>
    rw [pushAll, sites_append, ih]
    rfl

theorem sites_body (callee : Callee) : sites callee.body = [] := by
  cases callee <;> rfl

end Work

/-! ## Depth -/

section Depth

variable {α β : Type}

/-- However the step ends, the limits and the call depth of the machine stay. -/
def KeepsDepth (f : Step α) : Prop :=
  ∀ m, wp f (fun _ m' => m'.limits = m.limits ∧ m'.depth = m.depth)
    (fun _ m' => m'.limits = m.limits ∧ m'.depth = m.depth) m

theorem keepsDepth_pure (a : α) : KeepsDepth (pure a : Step α) := fun _ => ⟨rfl, rfl⟩

theorem keepsDepth_get : KeepsDepth (get : Step Machine) := fun _ => ⟨rfl, rfl⟩

theorem KeepsDepth.bind {f : Step α} {g : α → Step β} (hf : KeepsDepth f) (hg : ∀ a, KeepsDepth (g a)) :
    KeepsDepth (f >>= g) := by
  intro m
  rw [wp_bind]
  refine wp_mono (hf m) (fun a m₁ ⟨hlimits, hdepth⟩ => ?_) fun _ _ => id
  rw [← hlimits, ← hdepth]
  exact hg a m₁

theorem KeepsDepth.adaptExcept {f : Step α} (hf : KeepsDepth f) (g : RuntimeError → RuntimeError) :
    KeepsDepth (f.adaptExcept g) := by
  intro m
  rw [wp_adaptExcept]
  exact hf m

theorem keepsDepth_setAccumulator (v : Value) : KeepsDepth (setAccumulator v) := fun _ => ⟨rfl, rfl⟩

theorem keepsDepth_load (offset : Int) : KeepsDepth (load offset) := by
  intro m
  rw [wp_load]
  repeat' split
  all_goals exact ⟨rfl, rfl⟩

theorem keepsDepth_store (offset : Int) (v : Value) : KeepsDepth (store offset v) := by
  intro m
  rw [wp_store]
  split <;> exact ⟨rfl, rfl⟩

theorem keepsDepth_loadGlobal (index : Nat) : KeepsDepth (loadGlobal index) := by
  intro m
  rw [wp_loadGlobal]
  split <;> exact ⟨rfl, rfl⟩

theorem keepsDepth_push (cell : Cell) : KeepsDepth (push cell) := by
  intro m
  rw [wp_push]
  split <;> exact ⟨rfl, rfl⟩

theorem keepsDepth_grow (delta : Int) : KeepsDepth (grow delta) := by
  intro m
  unfold grow
  split
  · rw [wp_reserve]
    split <;> exact ⟨rfl, rfl⟩
  · rw [wp_release]
    split <;> exact ⟨rfl, rfl⟩

theorem keepsDepth_release (n : Nat) : KeepsDepth (release n) := by
  intro m
  rw [wp_release]
  split <;> exact ⟨rfl, rfl⟩

theorem keepsDepth_closeFrame (line : Nat) : KeepsDepth (closeFrame line) := by
  intro m
  rw [wp_closeFrame]
  split <;> exact ⟨rfl, rfl⟩

theorem keepsDepth_loadAll (offsets : List Int) : KeepsDepth (loadAll offsets) := by
  induction offsets with
  | nil => exact keepsDepth_pure []
  | cons offset offsets ih =>
    exact (keepsDepth_load offset).bind fun _ => ih.bind fun _ => keepsDepth_pure _

/-- The result of a builtin, or its error. -/
def conclude : Except RuntimeProblem Value → Step Value
  | .ok v => return v
  | .error problem => fault problem

theorem keepsDepth_conclude (result : Except RuntimeProblem Value) : KeepsDepth (conclude result) := by
  cases result with
  | ok v => exact keepsDepth_pure v
  | error problem => exact fun _ => ⟨rfl, rfl⟩

theorem keepsDepth_applyBuiltin (b : Builtin) : KeepsDepth (applyBuiltin b) := by
  refine (keepsDepth_load (-2)).bind fun v => ?_
  split
  · exact (keepsDepth_pure _).bind keepsDepth_conclude
  · exact (keepsDepth_load (-3)).bind fun _ => (keepsDepth_pure _).bind keepsDepth_conclude

theorem keepsDepth_fillCaptures (itself : Value) (loads : List CaptureLoad) (captured : List Value) :
    KeepsDepth (fillCaptures itself loads captured) := by
  fun_induction fillCaptures itself loads captured with
  | case1 => exact keepsDepth_pure ()
  | case2 slot loads captured ih => exact (keepsDepth_store _ _).bind fun _ => ih
  | case3 slot offset loads v captured ih => exact (keepsDepth_store _ _).bind fun _ => ih
  | case4 => exact fun _ => ⟨rfl, rfl⟩

theorem keepsDepth_beginCallee (callee : Callee) : KeepsDepth (beginCallee callee) := by
  cases callee with
  | builtin b => exact (keepsDepth_applyBuiltin b).bind keepsDepth_setAccumulator
  | closure routine captured => exact (keepsDepth_grow _).bind fun _ => keepsDepth_fillCaptures _ _ _

theorem keepsDepth_endCallee (callee : Callee) : KeepsDepth (endCallee callee) := by
  cases callee with
  | builtin => exact keepsDepth_pure ()
  | closure routine => exact keepsDepth_grow _

end Depth

namespace Work

variable {w : Work} {m m' : Machine}

/-- What one piece of work does to the call depth: it counts the calls that are open, and it stays within the limit. -/
abbrev CountsCalls (f : Step (List Work)) (open₀ : Nat) (m : Machine) : Prop :=
  wp f (fun works m' => m'.limits = m.limits ∧ m'.depth + open₀ = m.depth + (sites works).length ∧
      m'.depth ≤ max m.depth m.limits.maxCallDepth)
    (fun _ m' => m'.limits = m.limits ∧ m'.depth = m.depth) m

theorem following_countsCalls {f : Step Unit} (hf : KeepsDepth f) (works : List Work) (m : Machine) :
    CountsCalls (following f works) (sites works).length m := by
  rw [CountsCalls, following, wp_bind]
  refine wp_mono (hf m) (fun _ m' ⟨hlimits, hdepth⟩ => ?_) fun _ _ => id
  exact ⟨hlimits, by rw [hdepth], by rw [hdepth]; exact Nat.le_max_left _ _⟩

theorem perform_countsCalls (w : Work) (hm : (sites [w]).length ≤ m.depth) :
    CountsCalls w.perform (sites [w]).length m := by
  have hdone {works : List Work} (hworks : sites works = []) : CountsCalls (return works) 0 m :=
    ⟨rfl, by rw [hworks]; rfl, Nat.le_max_left _ _⟩
  cases w with
  | run c =>
    cases c with
    | const v => exact following_countsCalls (keepsDepth_setAccumulator v) [] m
    | load offset => exact following_countsCalls ((keepsDepth_load offset).bind keepsDepth_setAccumulator) [] m
    | global index => exact following_countsCalls ((keepsDepth_loadGlobal index).bind keepsDepth_setAccumulator) [] m
    | closure routine =>
      exact following_countsCalls ((keepsDepth_loadAll _).bind fun _ => keepsDepth_setAccumulator _) [] m
    | store slot value => exact hdone rfl
    | block stores result => exact hdone (by rw [sites_append, sites_map_run]; rfl)
    | cond test onTrue onFalse line => exact hdone rfl
    | call callee args line => exact hdone rfl
  | store slot => exact following_countsCalls (keepsDepth_get.bind fun _ => keepsDepth_store slot _) [] m
  | branch onTrue onFalse line =>
    rw [CountsCalls, perform, wp_bind, wp_get]
    split
    · exact hdone rfl
    · exact hdone rfl
    · exact ⟨rfl, rfl⟩
  | apply args line =>
    rw [CountsCalls, perform, wp_bind, wp_get]
    dsimp only
    split
    · exact ⟨rfl, rfl⟩
    · exact hdone (by rw [sites_append, sites_pushAll]; rfl)
  | push line =>
    exact following_countsCalls (keepsDepth_get.bind fun _ => (keepsDepth_push _).adaptExcept _) [] m
  | call callee argc line =>
    rw [CountsCalls, perform, following, wp_bind, wp_startCall]
    split
    · exact ⟨rfl, rfl⟩
    split
    · exact ⟨rfl, rfl⟩
    next hdepth =>
    split
    · exact ⟨rfl, rfl, Nat.le_trans (Nat.lt_of_not_le hdepth) (Nat.le_max_right _ _)⟩
    · exact ⟨rfl, rfl⟩
  | enter callee argc line =>
    have hbegin := following_countsCalls ((keepsDepth_beginCallee callee).adaptExcept (callee.note line))
      (callee.body ++ [leave callee argc line]) m
    rwa [sites_append, sites_body] at hbegin
  | leave callee argc line =>
    rw [CountsCalls, perform, following, wp_bind, wp_finishCall]
    refine wp_mono (keepsDepth_endCallee callee m) ?_ fun _ _ => id
    rintro _ m₁ ⟨hlimits₁, hdepth₁⟩
    refine wp_mono (keepsDepth_closeFrame line m₁) ?_ fun _ _ h => ⟨h.1.trans hlimits₁, h.2.trans hdepth₁⟩
    rintro _ m₂ ⟨hlimits₂, hdepth₂⟩
    refine wp_mono (keepsDepth_release argc m₂) ?_ fun _ _ h =>
      ⟨h.1.trans (hlimits₂.trans hlimits₁), h.2.trans (hdepth₂.trans hdepth₁)⟩
    rintro _ m₃ ⟨hlimits₃, hdepth₃⟩
    have hopen : 1 ≤ m.depth := hm
    have hdepth : m₃.depth = m.depth := hdepth₃.trans (hdepth₂.trans hdepth₁)
    refine ⟨hlimits₃.trans (hlimits₂.trans hlimits₁), ?_, ?_⟩
    · show m₃.depth - 1 + 1 = m.depth
      omega
    · show m₃.depth - 1 ≤ _
      omega

end Work

namespace Config

variable {c c' : Config}

/-- The call depth has a count for every call that is open. -/
def Counted (c : Config) : Prop := (Work.sites c.works).length ≤ c.machine.depth

theorem Next.depth (h : Next c c') (hc : c.Counted) : c'.machine.limits = c.machine.limits ∧
    c'.machine.depth + (Work.sites c.works).length = c.machine.depth + (Work.sites c'.works).length ∧
    c'.machine.depth ≤ max c.machine.depth c.machine.limits.maxCallDepth := by
  cases h with
  | @perform w works rest m m' h =>
    have hsites : Work.sites (w :: rest) = Work.sites [w] ++ Work.sites rest := Work.sites_append [w] rest
    have hopen : (Work.sites [w]).length ≤ m.depth := by
      have := hc
      simp only [Counted, hsites, List.length_append] at this
      omega
    obtain ⟨hlimits, hdepth, hmax⟩ := wp_ok (Work.perform_countsCalls w hopen) h
    refine ⟨hlimits, ?_, hmax⟩
    dsimp only
    rw [hsites, Work.sites_append, List.length_append, List.length_append]
    omega

theorem Next.counted (h : Next c c') (hc : c.Counted) : c'.Counted := by
  have := (h.depth hc).2.1
  unfold Counted at hc ⊢
  omega

/-- While steps are done the depth follows the number of open calls. -/
theorem Reaches.depth (h : Reaches c c') (hc : c.Counted) : c'.Counted ∧ c'.machine.limits = c.machine.limits ∧
    c'.machine.depth + (Work.sites c.works).length = c.machine.depth + (Work.sites c'.works).length ∧
    c'.machine.depth ≤ max c.machine.depth c.machine.limits.maxCallDepth := by
  induction h with
  | refl => exact ⟨hc, rfl, rfl, Nat.le_max_left _ _⟩
  | tail _ hnext ih =>
    obtain ⟨hc₁, hlimits₁, hdepth₁, hmax₁⟩ := ih
    obtain ⟨hlimits₂, hdepth₂, hmax₂⟩ := hnext.depth hc₁
    rw [hlimits₁] at hmax₂
    exact ⟨hnext.counted hc₁, hlimits₂.trans hlimits₁, by omega, by omega⟩

end Config

/-! ## The whole and its steps -/

/-- The step `f` does what the pieces of work do, one after the other. -/
def Does (works : List Work) (f : Step Unit) (m : Machine) : Prop :=
  wp f (fun _ m' => Config.Reaches ⟨works, m⟩ ⟨[], m'⟩)
    (fun e m' => ∃ c, Config.Reaches ⟨works, m⟩ c ∧ c.Fails e m') m

/-- Machines whose calls may nest equally deep. -/
def Levels (n : Nat) (m : Machine) : Prop := m.limits.maxCallDepth - m.depth = n

section Does

variable {works works' : List Work} {f g : Step Unit} {m m' : Machine} {n : Nat}

theorem Does.levels (hsites : Work.sites works = []) (h : Config.Reaches ⟨works, m⟩ ⟨[], m'⟩) (hm : Levels n m) :
    Levels n m' := by
  obtain ⟨-, hlimits, hdepth, -⟩ := h.depth (by simp [Config.Counted, hsites])
  dsimp only at hlimits hdepth
  have hdepth : m'.depth = m.depth := by simpa [hsites, show Work.sites [] = [] from rfl] using hdepth
  rw [Levels, hlimits, hdepth]
  exact hm

/-- The step ends as its pieces do. -/
theorem Does.eq_ok (hf : Does works f m) (h : Config.Reaches ⟨works, m⟩ ⟨[], m'⟩) : f m = .ok () m' := by
  cases hfm : f m with
  | ok _ m₁ =>
    rcases (h.to_done (wp_ok hf hfm)).cases_head with hdone | ⟨_, hnext, -⟩
    · cases hdone
      rfl
    · exact absurd hnext (Config.not_next_done m₁ _)
  | error e m₁ =>
    obtain ⟨c, hreach, hfails⟩ := wp_error hf hfm
    exact absurd hfails (h.not_fails hreach)

/-- One piece of work after another, none of which is a call that has been entered. -/
theorem Does.seq (hf : Does works f m) (hworks : Work.sites works = []) (hworks' : Work.sites works' = [])
    (hm : Levels n m) (hg : ∀ m', Levels n m' → Does works' g m') : Does (works ++ works') (do f; g) m := by
  rw [Does, wp_bind]
  refine wp_mono hf (fun _ m₁ hreach => ?_) fun e m₁ ⟨c, hreach, hfails⟩ => ?_
  · refine wp_mono (hg m₁ (Does.levels hworks hreach hm)) (fun _ m₂ hreach' => ?_) fun e m₂ ⟨c, hreach', hfails⟩ => ?_
    · exact (hreach.append works').trans hreach'
    · exact ⟨c, (hreach.append works').trans hreach', hfails⟩
  · cases hfails with
    | @perform w rest m₂ _ e h =>
      have hfails : Config.Fails ⟨w :: (rest ++ works'), m₂⟩ (Work.unwind (rest ++ works') e) m₁ := .perform h
      rw [Work.unwind_append, Work.unwind_of_sites hworks'] at hfails
      exact ⟨_, hreach.append works', hfails⟩

/-- A piece of work that does something first. -/
theorem Does.following {w : Work} (h : w.perform = Work.following f works)
    (hg : ∀ m', f m = .ok () m' → Does works g m') : Does [w] (do f; g) m := by
  rw [Does, wp_bind]
  cases hf : f m with
  | ok _ m' =>
    have hperform : w.perform m = .ok works m' := by
      simp only [h, Work.following, bind, EStateM.bind, hf]
      rfl
    have hnext : Config.Next ⟨[w], m⟩ ⟨works ++ [], m'⟩ := .perform hperform
    rw [List.append_nil] at hnext
    exact wp_of_ok hf (wp_mono (hg m' hf) (fun _ _ hreach => .head hnext hreach)
      fun _ _ ⟨c, hreach, hfails⟩ => ⟨c, .head hnext hreach, hfails⟩)
  | error e m' =>
    have hperform : w.perform m = .error e m' := by simp only [h, Work.following, bind, EStateM.bind, hf]
    have hfails : Config.Fails ⟨[w], m⟩ e m' := .perform hperform
    exact wp_of_error hf ⟨_, .refl, hfails⟩

/-- A piece of work that does something and is over. -/
theorem Does.single {w : Work} (h : w.perform = Work.following f []) (m : Machine) : Does [w] f m := by
  have hdoes : Does [w] (do f; pure ()) m := .following h fun _ _ => .refl
  rwa [bind_pure] at hdoes

/-- A piece of work that leads to others on the same machine. -/
theorem Does.leads {w : Work} (h : w.perform m = .ok works m) (hf : Does works f m) : Does [w] f m := by
  have hnext : Config.Next ⟨[w], m⟩ ⟨works ++ [], m⟩ := .perform h
  rw [List.append_nil] at hnext
  exact wp_mono hf (fun _ _ hreach => .head hnext hreach) fun _ _ ⟨c, hreach, hfails⟩ => ⟨c, .head hnext hreach, hfails⟩

/-- The step that runs bodies does so piece by piece, on machines whose calls may nest one level deeper. -/
def Deeper.Does : Deeper → Nat → Prop
  | none, n => n = 0
  | some run, n => ∃ k, n = k + 1 ∧ ∀ c m, Levels k m → Machine.Does [.run c] (run c) m

/-- The part of a call between the start and the end of a function: the body of a closure. -/
def runBodyOf (run : Code → Step Unit) : Callee → Step Unit
  | .builtin _ => return ()
  | .closure routine _ => run routine.body

theorem runCallee_eq (run : Code → Step Unit) (callee : Callee) :
    runCallee run callee = (do beginCallee callee; runBodyOf run callee; endCallee callee) := by
  cases callee with
  | builtin b => simp [runCallee, beginCallee, runBodyOf, endCallee]
  | closure routine captured => simp [runCallee, enter, beginCallee, runBodyOf, endCallee]

theorem runBodyOf_does {run : Code → Step Unit} {k : Nat} (hrun : ∀ c m, Levels k m → Does [.run c] (run c) m)
    (hm : Levels k m) (callee : Callee) : Does callee.body (runBodyOf run callee) m := by
  cases callee with
  | builtin b => exact .refl
  | closure routine captured => exact hrun routine.body m hm

/-- A function that has been entered runs and is left. -/
def runEntered (run : Code → Step Unit) (callee : Callee) (argc line : Nat) : Step Unit := do
  (runCallee run callee).adaptExcept (callee.note line)
  closeFrame line
  release argc
  modify fun m => { m with depth := m.depth - 1 }

theorem wp_runEntered {run : Code → Step Unit} {callee : Callee} {argc line : Nat} {Q : Unit → Machine → Prop}
    {E : RuntimeError → Machine → Prop} :
    wp (runEntered run callee argc line) Q E m ↔
      wp (runCallee run callee)
        (fun _ => wp (closeFrame line)
          (fun _ => wp (release argc) (fun _ m' => Q () { m' with depth := m'.depth - 1 }) E) E)
        (fun e => E (callee.note line e)) m := by
  rw [runEntered]
  simp only [wp_bind, wp_adaptExcept, wp_modify]

theorem adaptExcept_bind (f : Step Unit) (g : Unit → Step Unit) (h : RuntimeError → RuntimeError) :
    (f >>= g).adaptExcept h = f.adaptExcept h >>= fun a => (g a).adaptExcept h := by
  funext m
  simp only [EStateM.adaptExcept, bind, EStateM.bind]
  cases f m <;> rfl

theorem runEntered_eq (run : Code → Step Unit) (callee : Callee) (argc line : Nat) :
    runEntered run callee argc line = (do
      (beginCallee callee).adaptExcept (callee.note line)
      (runBodyOf run callee).adaptExcept (callee.note line)
      finishCall callee argc line) := by
  simp only [runEntered, runCallee_eq, adaptExcept_bind, finishCall, bind_assoc]

/-- An error from the body of a function is noted on its way out. -/
theorem enter_does {run : Code → Step Unit} {k : Nat} (hrun : ∀ c m, Levels k m → Does [.run c] (run c) m)
    (hm : Levels k m) (callee : Callee) (argc line : Nat) :
    Does [.enter callee argc line] (runEntered run callee argc line) m := by
  have hrest : ∀ m₁, (beginCallee callee).adaptExcept (callee.note line) m = .ok () m₁ →
      Does (callee.body ++ [.leave callee argc line])
        (do (runBodyOf run callee).adaptExcept (callee.note line); finishCall callee argc line) m₁ := by
    intro m₁ hbegin
    obtain ⟨hlimits, hdepth⟩ := wp_ok ((keepsDepth_beginCallee callee).adaptExcept (callee.note line) m) hbegin
    have hm₁ : Levels k m₁ := by rw [Levels, hlimits, hdepth]; exact hm
    have hleave (m₂ : Machine) : Does [.leave callee argc line] (finishCall callee argc line) m₂ := .single rfl m₂
    rw [Does, wp_bind, wp_adaptExcept]
    refine wp_mono (runBodyOf_does hrun hm₁ callee) (fun _ m₂ hreach => ?_) fun e m₂ ⟨c, hreach, hfails⟩ => ?_
    · exact wp_mono (hleave m₂) (fun _ m₃ hreach' => (hreach.append _).trans hreach')
        fun e m₃ ⟨c, hreach', hfails⟩ => ⟨c, (hreach.append _).trans hreach', hfails⟩
    · -- The body fails while the function is still to be left, and this is where the call is noted.
      cases hfails with
      | @perform w rest m₃ _ e h =>
        have hfails : Config.Fails ⟨w :: (rest ++ [.leave callee argc line]), m₃⟩
            (Work.unwind (rest ++ [.leave callee argc line]) e) m₂ := .perform h
        rw [Work.unwind_append] at hfails
        exact ⟨_, hreach.append _, hfails⟩
  rw [runEntered_eq]
  exact .following rfl hrest

theorem call_does {deeper : Deeper} (hd : deeper.Does n) (hm : Levels n m) (callee : Callee) (argc line : Nat) :
    Does [.call callee argc line] (call deeper callee argc line) m := by
  cases deeper with
  | none =>
    have hdepth : m.limits.maxCallDepth ≤ m.depth := Nat.sub_eq_zero_iff_le.1 (hm.trans hd)
    -- The call is refused, whatever comes after it.
    have hrefused : ∀ m₁, startCall callee argc line m ≠ .ok () m₁ := by
      intro m₁ hstart
      have hwp : wp (startCall callee argc line) (fun _ _ => False) (fun _ _ => True) m := by
        rw [wp_startCall, if_pos hdepth]
        split <;> trivial
      exact wp_ok hwp hstart
    have hdoes : Does [.call callee argc line] (do startCall callee argc line; pure ()) m :=
      .following rfl fun m₁ hstart => absurd hstart (hrefused m₁)
    rw [bind_pure, Does, wp_startCall, if_pos hdepth] at hdoes
    rw [Does, wp_call]
    exact hdoes
  | some run =>
    obtain ⟨k, rfl, hrun⟩ := hd
    have hdepth : ¬ m.limits.maxCallDepth ≤ m.depth := by
      have : m.limits.maxCallDepth - m.depth = k + 1 := hm
      omega
    have hentered : ∀ m₁, startCall callee argc line m = .ok () m₁ → Levels k m₁ := by
      intro m₁ hstart
      have hwp : wp (startCall callee argc line) (fun _ m₁ => Levels k m₁) (fun _ _ => True) m := by
        have hlevel : Levels k (m.started callee.name argc) := by
          have : m.limits.maxCallDepth - m.depth = k + 1 := hm
          simp only [Levels, started]
          omega
        rw [wp_startCall, if_neg hdepth]
        split
        · trivial
        · split
          · exact hlevel
          · trivial
      exact (wp_ok hwp hstart :)
    have hdoes : Does [.call callee argc line] (do startCall callee argc line; runEntered run callee argc line) m :=
      .following rfl fun m₁ hstart => enter_does hrun (hentered m₁ hstart) callee argc line
    rw [Does, wp_bind, wp_startCall, if_neg hdepth] at hdoes
    rw [Does, wp_call]
    simp only [wp_runEntered] at hdoes
    exact hdoes

end Does

mutual

/-- Code does what its pieces do. -/
theorem execWith_does {deeper : Deeper} {n : Nat} (hd : deeper.Does n) (c : Code) {m : Machine} (hm : Levels n m) :
    Does [.run c] (execWith deeper c) m := by
  cases c with
  | const | load | global | closure => exact .single rfl m
  | store slot value =>
    refine .leads rfl ?_
    exact (execWith_does hd value hm).seq rfl rfl hm fun m' _ => .single rfl m'
  | block stores result =>
    refine .leads rfl ?_
    exact (execAll_does hd stores hm).seq (Work.sites_map_run stores) rfl hm fun m' hm' => execWith_does hd result hm'
  | cond test onTrue onFalse line =>
    refine .leads rfl ((execWith_does hd test hm).seq rfl rfl hm fun m' hm' => ?_)
    have hperform := Work.perform_branch onTrue onFalse line m'
    rw [Does, wp_bind, wp_get]
    cases hacc : m'.accumulator with
    | boolean b =>
      rw [hacc] at hperform
      cases b with
      | true => exact Does.leads hperform (execWith_does hd onTrue hm')
      | false => exact Does.leads hperform (execWith_does hd onFalse hm')
    | number | builtin | closure =>
      rw [hacc] at hperform
      exact ⟨_, .refl, .perform hperform⟩
  | call callee args line =>
    refine .leads rfl ((execWith_does hd callee hm).seq rfl rfl hm fun m' hm' => ?_)
    have hperform := Work.perform_apply args line m'
    rw [Does, wp_bind, wp_get]
    dsimp only
    cases hfound : Callee.ofValue? m'.accumulator with
    | none =>
      rw [hfound] at hperform
      exact ⟨_, .refl, .perform hperform⟩
    | some found =>
      rw [hfound] at hperform
      refine Does.leads hperform ((pushArgs_does hd line args hm').seq (Work.sites_pushAll line args) rfl hm' ?_)
      exact fun m'' hm'' => call_does hd hm'' found args.length line

theorem execAll_does {deeper : Deeper} {n : Nat} (hd : deeper.Does n) (cs : List Code) {m : Machine} (hm : Levels n m) :
    Does (cs.map .run) (execAll deeper cs) m := by
  cases cs with
  | nil => exact .refl
  | cons c cs => exact (execWith_does hd c hm).seq rfl (Work.sites_map_run cs) hm fun m' hm' => execAll_does hd cs hm'

theorem pushArgs_does {deeper : Deeper} {n : Nat} (hd : deeper.Does n) (line : Nat) (cs : List Code) {m : Machine}
    (hm : Levels n m) : Does (Work.pushAll line cs) (pushArgs deeper line cs) m := by
  cases cs with
  | nil => exact .refl
  | cons c cs =>
    refine (pushArgs_does hd line cs hm).seq (Work.sites_pushAll line cs) rfl hm fun m' hm' => ?_
    exact (execWith_does hd c hm').seq rfl rfl hm' fun m'' _ => .single rfl m''

end

theorem levels_does (n : Nat) : (levels n).Does n := by
  induction n with
  | zero => exact rfl
  | succ n ih =>
    refine ⟨n, rfl, fun c m hm => ?_⟩
    rw [execWithin_eq]
    exact execWith_does ih c hm

/-- To run code on a machine is to do its pieces until none is left or one of them fails. -/
theorem exec_does (c : Code) (m : Machine) : Does [.run c] (exec c) m := by
  have hdoes := execWith_does (levels_does (m.limits.maxCallDepth - m.depth)) c (m := m) rfl
  rwa [← execWithin_eq] at hdoes

/-- In steps that come to an end all code ends well that is run on the way. -/
theorem exec_ok_of_reaches {c : Code} {works : List Work} {m m' : Machine}
    (h : Config.Reaches ⟨.run c :: works, m⟩ ⟨[], m'⟩) : ∃ m₁, exec c m = .ok () m₁ := by
  cases hexec : exec c m with
  | ok _ m₁ => exact ⟨m₁, rfl⟩
  | error e m₁ =>
    obtain ⟨c', hreach, hfails⟩ := wp_error (exec_does c m) hexec
    cases hfails with
    | perform hperform => exact absurd (.perform hperform) (h.not_fails (hreach.append works))

end ClosureLang.Machine
