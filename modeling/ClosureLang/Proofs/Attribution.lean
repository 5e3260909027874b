import ClosureLang.Proofs.CallFrames
import ClosureLang.Proofs.LineNumbers
import ClosureLang.Proofs.Preservation
import ClosureLang.Proofs.Rejections

/-!
# Where errors come from

An error of a machine names a line and the calls it came through. The line is filled in as long as it is zero, and every
call that the error leaves adds an entry, so what comes out depends on where the error is first given a line and on
which calls count as entered. For the program of a source it says what one would expect: the line of the call or
condition that failed, and the calls that were open then, the innermost first.
-/

namespace ClosureLang

namespace Machine

/-! ## Failures of single steps -/

section Failures

variable {α β : Type} {E E' : RuntimeError → Prop}

/-- Whenever the step fails, its error is one of `E`. -/
def FailsWith (E : RuntimeError → Prop) (f : Step α) : Prop := ∀ m, wp f (fun _ _ => True) (fun e _ => E e) m

theorem failsWith_pure (a : α) : FailsWith E (pure a : Step α) := fun _ => trivial

theorem failsWith_setAccumulator (v : Value) : FailsWith E (setAccumulator v) := fun _ => trivial

theorem FailsWith.mono {f : Step α} (h : FailsWith E f) (hE : ∀ e, E e → E' e) : FailsWith E' f :=
  fun m => wp_mono (h m) (fun _ _ => id) fun e _ => hE e

theorem FailsWith.bind {f : Step α} {g : α → Step β} (hf : FailsWith E f) (hg : ∀ a, FailsWith E (g a)) :
    FailsWith E (f >>= g) := by
  intro m
  rw [wp_bind]
  exact wp_mono (hf m) (fun a m' _ => hg a m') fun _ _ => id

/-- An error that no line and no call has been noted in. -/
def Unplaced (e : RuntimeError) : Prop := e = .of e.problem 0

/-- A fault of the stack, which code that was compiled from a program does not cause. -/
def Fault (e : RuntimeError) : Prop := e.problem.kind = .stackFault

theorem load_failsWith (offset : Int) : FailsWith (fun e => Unplaced e ∧ Fault e) (load offset) := by
  intro m
  rw [wp_load]
  split
  · exact ⟨rfl, rfl⟩
  · split
    · trivial
    · exact ⟨rfl, rfl⟩
    · exact ⟨rfl, rfl⟩

theorem store_failsWith (offset : Int) (v : Value) : FailsWith (fun e => Unplaced e ∧ Fault e) (store offset v) := by
  intro m
  rw [wp_store]
  split
  · exact ⟨rfl, rfl⟩
  · trivial

theorem loadGlobal_faults (index : Nat) : FailsWith Fault (loadGlobal index) := by
  intro m
  rw [wp_loadGlobal]
  split
  · trivial
  · rfl

theorem loadAll_faults (offsets : List Int) : FailsWith Fault (loadAll offsets) := by
  induction offsets with
  | nil => exact failsWith_pure []
  | cons offset offsets ih =>
    exact ((load_failsWith offset).mono fun _ => And.right).bind fun _ => ih.bind fun _ => failsWith_pure _

theorem release_failsWith (n : Nat) : FailsWith (fun e => Unplaced e ∧ Fault e) (release n) := by
  intro m
  rw [wp_release]
  split
  · trivial
  · exact ⟨rfl, rfl⟩

theorem closeFrame_faults (line : Nat) : FailsWith Fault (closeFrame line) := by
  intro m
  rw [wp_closeFrame]
  split
  · rfl
  · trivial
  · rfl

theorem grow_unplaced (delta : Int) : FailsWith Unplaced (grow delta) := by
  unfold grow
  split
  · intro m
    rw [wp_reserve]
    split
    · trivial
    · rfl
  · exact (release_failsWith _).mono fun _ => And.left

theorem fillCaptures_unplaced (itself : Value) (loads : List CaptureLoad) (captured : List Value) :
    FailsWith Unplaced (fillCaptures itself loads captured) := by
  have hstore (slot : Int) (v : Value) : FailsWith Unplaced (store slot v) :=
    (store_failsWith slot v).mono fun _ => And.left
  fun_induction fillCaptures itself loads captured with
  | case1 => exact failsWith_pure ()
  | case2 slot loads captured ih => exact (hstore slot _).bind fun _ => ih
  | case3 slot offset loads v captured ih => exact (hstore slot v).bind fun _ => ih
  | case4 => exact fun _ => rfl

theorem applyBuiltin_unplaced (b : Builtin) : FailsWith Unplaced (applyBuiltin b) := by
  have hload (offset : Int) : FailsWith Unplaced (load offset) := (load_failsWith offset).mono fun _ => And.left
  have hresult (result : Except RuntimeProblem Value) : FailsWith Unplaced (conclude result) := by
    cases result with
    | ok v => exact failsWith_pure v
    | error problem => exact fun _ => rfl
  refine (hload (-2)).bind fun v => ?_
  split
  · exact (failsWith_pure _).bind hresult
  · exact (hload (-3)).bind fun _ => (failsWith_pure _).bind hresult

theorem beginCallee_unplaced (callee : Callee) : FailsWith Unplaced (beginCallee callee) := by
  cases callee with
  | builtin b => exact (applyBuiltin_unplaced b).bind failsWith_setAccumulator
  | closure routine captured => exact (grow_unplaced _).bind fun _ => fillCaptures_unplaced _ _ _

theorem endCallee_unplaced (callee : Callee) : FailsWith Unplaced (endCallee callee) := by
  cases callee with
  | builtin => exact failsWith_pure ()
  | closure routine => exact grow_unplaced _

end Failures

/-! ## Failures of work -/

namespace Work

/-- The line of the call or condition that a piece of work belongs to. -/
def line? : Work → Option Nat
  | run _ | store _ => none
  | branch _ _ line | apply _ line | push line | call _ _ line | enter _ _ line | leave _ _ line => some line

/-- The error has the line of the work and, if the work belongs to a call that has been entered, that call. -/
structure Blamed (w : Work) (e : RuntimeError) : Prop where
  line : w.line? = some e.line
  trace : e.trace.toList = sites [w]

theorem blamed_of {w : Work} {problem : RuntimeProblem} {line : Nat} (hline : w.line? = some line)
    (hsites : sites [w] = []) : w.Blamed (.of problem line) :=
  ⟨hline, hsites.symm⟩

/-- An error without a place gets the line of the call that is under way. -/
theorem blamed_note {w : Work} {e : RuntimeError} (he : Unplaced e) {callee : Callee} {line : Nat}
    (hline : w.line? = some line) (hsites : sites [w] = [⟨callee.name, line⟩]) : w.Blamed (callee.note line e) := by
  rw [he]
  exact ⟨hline, hsites.symm⟩

theorem following_failsWith {E : RuntimeError → Prop} {f : Step Unit} (hf : FailsWith E f) (works : List Work) :
    FailsWith E (following f works) :=
  hf.bind fun _ => failsWith_pure works

/-- A piece of work that fails is to blame, unless it meets with a fault of the stack. -/
theorem perform_blames (w : Work) : FailsWith (fun e => Fault e ∨ w.Blamed e) w.perform := by
  have hfault {f : Step Unit} (hf : FailsWith Fault f) (works : List Work) :
      FailsWith (fun e => Fault e ∨ w.Blamed e) (following f works) :=
    (following_failsWith hf works).mono fun _ => .inl
  have hload (offset : Int) : FailsWith Fault (load offset) := (load_failsWith offset).mono fun _ => And.right
  cases w with
  | run c =>
    cases c with
    | const v => exact hfault (failsWith_setAccumulator v) []
    | load offset => exact hfault ((hload offset).bind failsWith_setAccumulator) []
    | global index => exact hfault ((loadGlobal_faults index).bind failsWith_setAccumulator) []
    | closure routine => exact hfault ((loadAll_faults _).bind fun _ => failsWith_setAccumulator _) []
    | store | block | cond | call => exact failsWith_pure _
  | store slot =>
    exact hfault (fun m => (store_failsWith slot m.accumulator).mono (fun _ => And.right) m) []
  | branch onTrue onFalse line =>
    intro m
    rw [perform, wp_bind, wp_get]
    split
    · trivial
    · trivial
    · exact .inr (blamed_of rfl rfl)
  | apply args line =>
    intro m
    rw [perform, wp_bind, wp_get]
    dsimp only
    split
    · exact .inr (blamed_of rfl rfl)
    · trivial
  | push line =>
    intro m
    rw [perform, following, wp_bind, wp_bind, wp_get, wp_adaptExcept, wp_push]
    split
    · trivial
    · exact .inr (blamed_of rfl rfl)
  | call callee argc line =>
    intro m
    rw [perform, following, wp_bind, wp_startCall]
    -- None of the three checks before a function is entered notes the call.
    repeat' split
    · exact .inr (blamed_of rfl rfl)
    · exact .inr (blamed_of rfl rfl)
    · trivial
    · exact .inr (blamed_of rfl rfl)
  | enter callee argc line =>
    refine following_failsWith (fun m => ?_) _
    rw [wp_adaptExcept]
    exact wp_mono (beginCallee_unplaced callee m) (fun _ _ => id) fun e _ he => .inr (blamed_note he rfl rfl)
  | leave callee argc line =>
    intro m
    rw [perform, following, wp_bind, wp_finishCall]
    refine wp_mono (endCallee_unplaced callee m) (fun _ m₁ _ => ?_) fun e _ he => .inr (blamed_note he rfl rfl)
    refine wp_mono (closeFrame_faults line m₁) (fun _ m₂ _ => ?_) fun _ _ => .inl
    exact wp_mono (release_failsWith argc m₂) (fun _ _ _ => trivial) fun _ _ he => .inl he.2

/-! ## On the way out -/

theorem problem_unwind (ws : List Work) (e : RuntimeError) : (unwind ws e).problem = e.problem := by
  induction ws generalizing e with
  | nil => rfl
  | cons w ws ih =>
    cases w with
    | enter | leave => rw [unwind, ih, Callee.note, RuntimeError.problem_leaving, RuntimeError.problem_atLine]
    | run | store | branch | apply | push | call => exact ih e

theorem trace_note (callee : Callee) (line : Nat) (e : RuntimeError) :
    (callee.note line e).trace = e.trace.push ⟨callee.name, line⟩ := by
  rw [Callee.note, RuntimeError.leaving, RuntimeError.atLine]
  split <;> rfl

/-- Each open call adds itself to the trace. -/
theorem trace_unwind (ws : List Work) (e : RuntimeError) :
    (unwind ws e).trace.toList = e.trace.toList ++ sites ws := by
  induction ws generalizing e with
  | nil => exact (List.append_nil _).symm
  | cons w ws ih =>
    cases w with
    | enter callee argc line | leave callee argc line =>
      rw [unwind, ih, trace_note, Array.toList_push, List.append_assoc]
      rfl
    | run | store | branch | apply | push | call => exact ih e

theorem line_note {callee : Callee} {line : Nat} {e : RuntimeError} (h : e.line ≠ 0) :
    (callee.note line e).line = e.line := by
  rw [Callee.note, RuntimeError.atLine, if_neg h]
  rfl

/-- A line that is known stays. -/
theorem line_unwind (ws : List Work) {e : RuntimeError} (h : e.line ≠ 0) : (unwind ws e).line = e.line := by
  induction ws generalizing e with
  | nil => rfl
  | cons w ws ih =>
    cases w with
    | enter | leave =>
      rw [unwind, ih, line_note h]
      rwa [line_note h]
    | run | store | branch | apply | push | call => exact ih h

end Work

/-! ## Lines of work -/

section OnLines

variable {P : Nat → Prop} {m : Machine}

/-- The lines that work and the code in it are on. -/
def Work.lines : Work → List Nat
  | run c => c.lines
  | store _ => []
  | branch onTrue onFalse line => line :: (onTrue.lines ++ onFalse.lines)
  | apply args line => line :: Code.linesAll args
  | push line | call _ _ line | enter _ _ line | leave _ _ line => [line]

/-- All that is left to do is on lines with the property, and so are the routines that may still be called. -/
structure Config.OnLines (P : Nat → Prop) (c : Config) : Prop where
  works : ∀ w ∈ c.works, ∀ l ∈ w.lines, P l
  every : c.Every (Routine.OnLines P)

namespace Work

theorem pushAll_lines {line : Nat} (hline : P line) {cs : List Code} (hcs : ∀ l ∈ Code.linesAll cs, P l) :
    ∀ w ∈ pushAll line cs, ∀ l ∈ w.lines, P l := by
  induction cs with
  | nil => exact nofun
  | cons c cs ih =>
    obtain ⟨hc, hcs⟩ := List.forall_mem_append.1 hcs
    refine List.forall_mem_append.2 ⟨ih hcs, ?_⟩
    exact List.forall_mem_cons.2 ⟨hc, List.forall_mem_singleton.2 (List.forall_mem_singleton.2 hline)⟩

/-- The work that the step leads to is on lines with the property. -/
abbrev LeadsOnLines (P : Nat → Prop) (f : Step (List Work)) (m : Machine) : Prop :=
  wp f (fun works _ => ∀ w ∈ works, ∀ l ∈ w.lines, P l) (fun _ _ => True) m

theorem following_onLines (f : Step Unit) {works : List Work} (hworks : ∀ w ∈ works, ∀ l ∈ w.lines, P l) :
    LeadsOnLines P (following f works) m := by
  rw [LeadsOnLines, following, wp_bind, wp]
  split
  · exact hworks
  · trivial

/-- Work leads to lines of its own, and a call to those of the routine that is called. -/
theorem perform_onLines {w : Work} (hw : ∀ l ∈ w.lines, P l) (hevery : w.Every (Routine.OnLines P)) :
    LeadsOnLines P w.perform m := by
  cases w with
  | run c =>
    cases c with
    | const | load | global | closure => exact following_onLines _ (List.forall_mem_nil _)
    | store slot value => exact List.forall_mem_cons.2 ⟨hw, List.forall_mem_singleton.2 (List.forall_mem_nil _)⟩
    | block stores result =>
      obtain ⟨hstores, hresult⟩ := List.forall_mem_append.1 hw
      refine List.forall_mem_append.2 ⟨?_, List.forall_mem_singleton.2 hresult⟩
      exact List.forall_mem_map.2 (Code.forall_mem_linesAll.1 hstores)
    | cond test onTrue onFalse line =>
      obtain ⟨hline, hw⟩ := List.forall_mem_cons.1 hw
      obtain ⟨htest, hbranches⟩ := List.forall_mem_append.1 hw
      refine List.forall_mem_cons.2 ⟨htest, List.forall_mem_singleton.2 ?_⟩
      exact List.forall_mem_cons.2 ⟨hline, hbranches⟩
    | call callee args line =>
      obtain ⟨hline, hw⟩ := List.forall_mem_cons.1 hw
      obtain ⟨hcallee, hargs⟩ := List.forall_mem_append.1 hw
      refine List.forall_mem_cons.2 ⟨hcallee, List.forall_mem_singleton.2 ?_⟩
      exact List.forall_mem_cons.2 ⟨hline, hargs⟩
  | store slot => exact following_onLines _ (List.forall_mem_nil _)
  | branch onTrue onFalse line =>
    obtain ⟨-, hbranches⟩ := List.forall_mem_cons.1 hw
    obtain ⟨hTrue, hFalse⟩ := List.forall_mem_append.1 hbranches
    rw [LeadsOnLines, perform, wp_bind, wp_get]
    split
    · exact List.forall_mem_singleton.2 hTrue
    · exact List.forall_mem_singleton.2 hFalse
    · trivial
  | apply args line =>
    obtain ⟨hline, hargs⟩ := List.forall_mem_cons.1 hw
    rw [LeadsOnLines, perform, wp_bind, wp_get]
    dsimp only
    split
    · trivial
    · refine List.forall_mem_append.2 ⟨pushAll_lines hline hargs, ?_⟩
      exact List.forall_mem_singleton.2 (List.forall_mem_singleton.2 hline)
  | push line => exact following_onLines _ (List.forall_mem_nil _)
  | call callee argc line => exact following_onLines _ (List.forall_mem_singleton.2 hw)
  | enter callee argc line =>
    have hbody : ∀ w ∈ callee.body, ∀ l ∈ w.lines, P l := by
      cases callee with
      | builtin => exact List.forall_mem_nil _
      | closure routine captured => exact List.forall_mem_singleton.2 (Routine.every_iff.1 hevery.1).1
    exact following_onLines _ (List.forall_mem_append.2 ⟨hbody, List.forall_mem_singleton.2 hw⟩)
  | leave callee argc line => exact following_onLines _ (List.forall_mem_nil _)

theorem line?_mem_lines {w : Work} {line : Nat} (h : w.line? = some line) : line ∈ w.lines := by
  cases w with
  | run | store => cases h
  | branch | apply | push | call | enter | leave =>
    cases h
    exact List.mem_cons_self ..

theorem sites_onLines {ws : List Work} (hws : ∀ w ∈ ws, ∀ l ∈ w.lines, P l) : ∀ site ∈ sites ws, P site.line := by
  intro site hsite
  obtain ⟨w, hw, hsite⟩ := List.mem_filterMap.1 hsite
  cases w with
  | enter | leave =>
    cases hsite
    exact hws _ hw _ (List.mem_cons_self ..)
  | run | store | branch | apply | push | call => cases hsite

end Work

namespace Config

variable {c c' : Config}

theorem Next.onLines (h : Next c c') (hc : c.OnLines P) : c'.OnLines P := by
  refine ⟨?_, h.every hc.every⟩
  cases h with
  | perform h =>
    obtain ⟨hw, hrest⟩ := List.forall_mem_cons.1 hc.works
    obtain ⟨hevery, -⟩ := List.forall_mem_cons.1 hc.every.works
    exact List.forall_mem_append.2 ⟨wp_ok (Work.perform_onLines hw hevery) h, hrest⟩

theorem Reaches.onLines (h : Reaches c c') (hc : c.OnLines P) : c'.OnLines P := by
  induction h with
  | refl => exact hc
  | tail _ hnext ih => exact hnext.onLines ih

end Config

end OnLines

/-! ## Errors of runs -/

/-- The first piece of work that is left fails, and the error that comes out tells where: on the line of the call or
condition that the work belongs to, during the calls that have been entered and not left, the innermost first. There are
as many of them as the call depth says, before and after the failure. -/
structure Config.Attributes (c : Config) (e : RuntimeError) (m' : Machine) : Prop where
  fails : c.Fails e m'
  line : ∃ w ∈ c.works.head?, w.line? = some e.line
  trace : e.trace.toList = Work.sites c.works
  depth : e.trace.size = c.machine.depth
  depth_kept : m'.depth = c.machine.depth

/-- A failure that is no fault is attributed to its work, if lines are known and no call was open at the start. -/
theorem Config.Fails.attributes {P : Nat → Prop} (hP : ¬ P 0) {c : Config} {e : RuntimeError} {m' : Machine}
    (h : c.Fails e m') (hfault : ¬ Fault e) (hc : c.OnLines P)
    (hdepth : c.machine.depth = (Work.sites c.works).length) : c.Attributes e m' := by
  have hfails := h
  cases h with
  | @perform w rest m m' e₀ hperform =>
    have hproblem : (Work.unwind rest e₀).problem = e₀.problem := Work.problem_unwind rest e₀
    have hblamed : w.Blamed e₀ := by
      refine (wp_error (Work.perform_blames w m) hperform).resolve_left fun he₀ => hfault ?_
      rwa [Fault, hproblem]
    have hw := hc.works w (List.mem_cons_self ..)
    have hline : e₀.line ≠ 0 := fun hzero => hP (hzero ▸ hw _ (Work.line?_mem_lines hblamed.line))
    have hsites : Work.sites (w :: rest) = Work.sites [w] ++ Work.sites rest := Work.sites_append [w] rest
    have htrace : (Work.unwind rest e₀).trace.toList = Work.sites (w :: rest) := by
      rw [Work.trace_unwind, hblamed.trace, hsites]
    have hopen : (Work.sites [w]).length ≤ m.depth := by
      have hdepth : m.depth = (Work.sites (w :: rest)).length := hdepth
      rw [hdepth, hsites, List.length_append]
      exact Nat.le_add_right _ _
    refine ⟨hfails, ⟨w, rfl, ?_⟩, htrace, ?_, (wp_error (Work.perform_countsCalls w hopen) hperform).2⟩
    · rw [Work.line_unwind rest hline]
      exact hblamed.line
    · rw [← Array.length_toList, htrace, hdepth]

/-- Code that fails on a machine with no open call comes to work that the error is attributed to. -/
theorem exec_attributes {P : Nat → Prop} (hP : ¬ P 0) {code : Code} (hcode : code.OnLines P) {m m' : Machine}
    (hm : m.Every (Routine.OnLines P)) (hdepth : m.depth = 0) {e : RuntimeError} (h : exec code m = .error e m')
    (hfault : ¬ Fault e) :
    ∃ c : Config, Config.Reaches ⟨[.run code], m⟩ c ∧ c.Attributes e m' ∧ P e.line ∧
      (∀ site ∈ e.trace.toList, P site.line) ∧ e.trace.size ≤ m.limits.maxCallDepth := by
  obtain ⟨c, hreach, hfails⟩ := wp_error (exec_does code m) h
  have hc : c.OnLines P := hreach.onLines
    ⟨List.forall_mem_singleton.2 hcode.own, List.forall_mem_singleton.2 hcode.routines, hm⟩
  obtain ⟨-, -, hcount, hmax⟩ := hreach.depth (Nat.zero_le _)
  have hcount : c.machine.depth = (Work.sites c.works).length := by
    have : c.machine.depth + 0 = m.depth + (Work.sites c.works).length := hcount
    omega
  have hattributes := hfails.attributes hP hfault hc hcount
  refine ⟨c, hreach, hattributes, ?_, ?_, ?_⟩
  · obtain ⟨w, hw, hline⟩ := hattributes.line
    exact hc.works w (List.mem_of_mem_head? hw) _ (Work.line?_mem_lines hline)
  · rw [hattributes.trace]
    exact Work.sites_onLines hc.works
  · have : c.machine.depth ≤ max m.depth m.limits.maxCallDepth := hmax
    rw [hattributes.depth]
    omega

end Machine

/-! ## Programs of sources -/

/-- What it takes for a source to have a program. -/
theorem Interpreter.exists_of_compile {i : Interpreter} {source : String} {p : Program} {log log' : Array Event}
    (h : i.compile source log = .ok p log') :
    ∃ tokens tree tree' r, Token.ofSource source = .ok tokens ∧ Expr.ofTokens tokens = .ok tree ∧
      (Resolver.new i.globals.names).program tree = .done tree' r ∧ tree'.toProgram r.scopes i.globals = .ok p := by
  obtain ⟨tokens, _, htokens, h⟩ := Logged.exists_of_bind_eq_ok h
  obtain ⟨tree, _, htree, h⟩ := Logged.exists_of_bind_eq_ok h
  obtain ⟨_, _, -, h⟩ := Logged.exists_of_bind_eq_ok h
  have htokens := Logged.ofExcept_eq_ok htokens
  have htree := Logged.ofExcept_eq_ok htree
  unfold compileTree at h
  cases hresolved : (Resolver.new i.globals.names).program tree with
  | failed _ _ _ =>
    rw [hresolved] at h
    obtain ⟨_, _, -, h⟩ := Logged.exists_of_bind_eq_ok h
    cases h
  | done tree' r =>
    rw [hresolved] at h
    obtain ⟨_, _, -, h⟩ := Logged.exists_of_bind_eq_ok h
    obtain ⟨_, _, -, h⟩ := Logged.exists_of_bind_eq_ok h
    obtain ⟨p', _, hprogram, h⟩ := Logged.exists_of_bind_eq_ok h
    obtain ⟨_, _, -, h⟩ := Logged.exists_of_bind_eq_ok h
    cases h
    exact ⟨tokens, tree, tree', r, htokens, htree, hresolved, Logged.ofExcept_eq_ok hprogram⟩

/-- No run of a program that implements a tree ends with a fault of the stack or with cells left on it. -/
theorem Program.Implements.regular {t : ScopeTable} {globals : List String} {tree : Expr} {p : Program}
    (h : p.Implements t globals tree) {m m' : Machine} {e : RuntimeError} (hrun : Machine.run p m = .error e m') :
    ¬ Machine.Fault e ∧ e.problem.kind ≠ .unbalanced := by
  rw [Machine.Fault]
  rcases Machine.wp_error (run_outcome h m) hrun with hfull | ⟨stop, -, hkind⟩
  · rw [hfull]
    decide
  · have hstop : stop.kind ≠ some .stackFault ∧ stop.kind ≠ some .unbalanced := by cases stop <;> exact ⟨nofun, nofun⟩
    rw [hkind] at hstop
    exact ⟨fun h => hstop.1 (congrArg some h), fun h => hstop.2 (congrArg some h)⟩

/-- The frame of a program is reserved on an empty stack, or there is no room for it. -/
theorem Machine.grow_cleared {P : Routine → Prop} {p : Program} (hp : p.Every P) (hsized : p.main.Sized) (m : Machine) :
    wp (grow p.main.frameSize)
      (fun _ m₀ => m₀.Every P ∧ m₀.depth = 0 ∧ m₀.limits = m.limits) (fun e _ => e = ⟨.stackFull, 0, #[]⟩)
      (m.cleared p.globals) := by
  rw [wp_grow_of_nonneg hsized, wp_reserve]
  split
  · exact ⟨(Every.cleared hp m).pushUnset _, rfl, rfl⟩
  · rfl

/-- What the steps of a run come to, if its frame takes no cells away and it does not end with a fault: there is no room
for the frame, or the error is attributed to work that fails while the body runs. -/
theorem Machine.run_attributes {P : Nat → Prop} (hP : ¬ P 0) {p : Program} (hp : p.Every (Routine.OnLines P))
    (hsized : p.main.Sized) {m m' : Machine} {e : RuntimeError} (hrun : run p m = .error e m') (hfault : ¬ Fault e)
    (hleft : e.problem.kind ≠ .unbalanced) :
    (grow p.main.frameSize (m.cleared p.globals) = .error e m' ∧ e = ⟨.stackFull, 0, #[]⟩) ∨
      ∃ m₀ c, grow p.main.frameSize (m.cleared p.globals) = .ok () m₀ ∧
        Config.Reaches ⟨[.run p.main.body], m₀⟩ c ∧ c.Attributes e m' ∧ P e.line ∧
        (∀ site ∈ e.trace.toList, P site.line) ∧ e.trace.size ≤ m.limits.maxCallDepth := by
  have hbody : p.main.body.OnLines P := ⟨(Routine.every_iff.1 hp.main).1, (Routine.every_iff.1 hp.main).2⟩
  have hgrow := grow_cleared hp hsized m
  cases hframe : grow p.main.frameSize (m.cleared p.globals) with
  | error e₀ m₀ =>
    have hwp : wp (run p) (fun _ _ => False) (fun e m' => e = e₀ ∧ m' = m₀) m := by
      rw [wp_run]
      exact wp_of_error hframe ⟨rfl, rfl⟩
    obtain ⟨rfl, rfl⟩ := wp_error hwp hrun
    exact .inl ⟨rfl, wp_error hgrow hframe⟩
  | ok _ m₀ =>
    obtain ⟨hm₀, hdepth, hlimits⟩ := wp_ok hgrow hframe
    refine .inr ⟨m₀, ?_⟩
    -- The steps after the body fail with faults or because of cells that are left.
    have hwp : wp (run p) (fun _ _ => True)
        (fun e m' => exec p.main.body m₀ = .error e m' ∨ Fault e ∨ e.problem.kind = .unbalanced) m := by
      rw [wp_run]
      refine wp_of_ok hframe ?_
      cases hexec : exec p.main.body m₀ with
      | error e m' => exact wp_of_error hexec (.inl rfl)
      | ok _ m₁ =>
        refine wp_of_ok hexec ?_
        rw [wp_grow_neg_of_nonneg hsized]
        refine wp_mono (release_failsWith _ m₁) (fun _ m₂ _ => ?_) fun e m₂ he => .inr (.inl he.2)
        split
        · trivial
        · exact .inr (.inr rfl)
    have hexec := (wp_error hwp hrun).resolve_right fun h => h.elim hfault hleft
    obtain ⟨c, hreach, hattributes, hline, hsites, hsize⟩ := exec_attributes hP hbody hm₀ hdepth hexec hfault
    exact ⟨c, rfl, hreach, hattributes, hline, hsites, hlimits ▸ hsize⟩

/-- A program of a source fails in one of two ways. There is no room for its frame, so that nothing runs, and the error
has no line and no calls. Or some work fails while its body runs, and the error is attributed to it: its line is that of
a call or condition of the source, the lines of its calls are too, and there are no more calls than the limit allows. -/
theorem Interpreter.run_attributed {limits : Limits} {source : String} {p : Program} {log log' : Array Event}
    (h : (Interpreter.standard limits).compile source log = .ok p log') {m m' : Machine} {e : RuntimeError}
    (hrun : Machine.run p m = .error e m') :
    (Machine.grow p.main.frameSize (m.cleared p.globals) = .error e m' ∧ e = ⟨.stackFull, 0, #[]⟩) ∨
      ∃ tokens tree m₀ c, Token.ofSource source = .ok tokens ∧ Expr.ofTokens tokens = .ok tree ∧
        Machine.grow p.main.frameSize (m.cleared p.globals) = .ok () m₀ ∧
        Machine.Config.Reaches ⟨[.run p.main.body], m₀⟩ c ∧ c.Attributes e m' ∧
        e.line ∈ tree.lines ∧ (∀ site ∈ e.trace.toList, site.line ∈ tree.lines) ∧
        e.trace.size ≤ m.limits.maxCallDepth := by
  obtain ⟨tokens, tree, tree', r, htokens, htree, hresolved, hprogram⟩ := exists_of_compile h
  have hsound := Resolver.program_sound hresolved
  obtain ⟨p', hprogram', himplements⟩ := hsound.implements
  obtain rfl : p = p' := Except.ok.inj (hprogram.symm.trans hprogram')
  -- Zero in an error stands for a line that is not known, so it must not be the line of a node.
  have hzero : ¬ 0 ∈ tree.lines := fun hmem =>
    Nat.lt_irrefl 0 (Expr.lines_ofTokens htree (Token.line_pos htokens) 0 hmem)
  have hp : p.Every (Routine.OnLines (· ∈ tree.lines)) := by
    obtain ⟨⟨s, loads⟩, -, hbind⟩ := exists_of_bind_eq_ok hprogram
    obtain ⟨body, hbody, hbind⟩ := exists_of_bind_eq_ok hbind
    cases hbind
    have hlines : ∀ l ∈ tree'.lines, l ∈ tree.lines := (Resolver.lines_program hresolved).symm ▸ fun _ => id
    have hbody := (Expr.compile_mirrors tree' hbody).onLines hlines
    exact ⟨⟨hbody.own, hbody.routines⟩, Prelude.plain_standard.every⟩
  have hsized : p.main.Sized := (Routine.every_iff.1 himplements.fits.main).1.sized
  obtain ⟨hfault, hleft⟩ := himplements.regular hrun
  refine (Machine.run_attributes hzero hp hsized hrun hfault hleft).imp_right ?_
  rintro ⟨m₀, c, hrest⟩
  exact ⟨tokens, tree, m₀, c, htokens, htree, hrest⟩

/-- A function that calls itself once and then takes itself for a truth value. -/
def mistakenSelf : String := "f = b ->\n  b ?\n    f(!b) :\n    b &&\n    f;\nf(true)"

/-- The line and the trace of the error that a source ends in. -/
def Interpreter.failure (limits : Limits) (source : String) : Option (Nat × List CallSite) :=
  match (Interpreter.standard limits).compile source #[] with
  | .error _ _ => none
  | .ok p _ =>
    match Machine.run p (.new limits) with
    | .ok _ _ => none
    | .error e _ => some (e.line, e.trace.toList)

theorem Interpreter.run_attributed_mistakenSelf :
    ∃ p log e m' tokens tree m₀ c, (Interpreter.standard ⟨3, 40⟩).compile mistakenSelf #[] = .ok p log ∧
      Machine.run p (.new ⟨3, 40⟩) = .error e m' ∧ e.line = 4 ∧ e.trace.toList = [⟨"and", 4⟩, ⟨"f", 3⟩, ⟨"f", 6⟩] ∧
      Token.ofSource mistakenSelf = .ok tokens ∧ Expr.ofTokens tokens = .ok tree ∧
      Machine.grow p.main.frameSize (Machine.cleared (.new ⟨3, 40⟩) p.globals) = .ok () m₀ ∧
      Machine.Config.Reaches ⟨[.run p.main.body], m₀⟩ c ∧ c.Attributes e m' ∧
      e.line ∈ tree.lines ∧ (∀ site ∈ e.trace.toList, site.line ∈ tree.lines) ∧ e.trace.size ≤ 3 := by
  have herror : failure ⟨3, 40⟩ mistakenSelf = some (4, [⟨"and", 4⟩, ⟨"f", 3⟩, ⟨"f", 6⟩]) := by cbv
  unfold failure at herror
  cases hcompile : (Interpreter.standard ⟨3, 40⟩).compile mistakenSelf #[] with
  | error d log =>
    rw [hcompile] at herror
    cases herror
  | ok p log =>
    rw [hcompile] at herror
    cases hrun : Machine.run p (.new ⟨3, 40⟩) with
    | ok v m' =>
      simp only [hrun] at herror
      cases herror
    | error e m' =>
      simp only [hrun] at herror
      obtain ⟨hline, htrace⟩ := Prod.mk.inj (Option.some.inj herror)
      rcases Interpreter.run_attributed hcompile hrun with ⟨-, rfl⟩ | ⟨tokens, tree, m₀, c, hrest⟩
      · cases hline
      · exact ⟨p, log, e, m', tokens, tree, m₀, c, rfl, hrun, hline, htrace, hrest⟩

end ClosureLang
