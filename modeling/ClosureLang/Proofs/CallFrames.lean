import ClosureLang.Proofs.Balance
import ClosureLang.Proofs.Transitions

/-!
# The frames of a run

A program runs in a frame of its own, and so does every closure that is called. `Stays` leads from one configuration of
a frame to another: calls that were made in between are over. `Program.Enters` says which frames a run enters, each from
a call in a frame that it has entered before. Wherever a run is, it is in one of them, or on its way in or out.

Whatever a machine does, it has no routines but those of its program.
-/

namespace ClosureLang

namespace Machine

/-! ## Routines -/

section Every

variable {Q : Routine → Prop} {m : Machine}

theorem store_every (hm : m.Every Q) (slot : Int) {v : Value} (hv : v.Every Q) :
    wp (store slot v) (fun _ m' => m'.Every Q) (fun _ _ => True) m := by
  rw [wp_store]
  split
  · trivial
  · exact hm.store _ hv

theorem grow_every (hm : m.Every Q) (delta : Int) :
    wp (grow delta) (fun _ m' => m'.Every Q) (fun _ _ => True) m := by
  unfold grow
  split
  · rw [wp_reserve]
    split
    · exact hm.pushUnset _
    · trivial
  · rw [wp_release]
    split
    · exact hm.shrink _
    · trivial

theorem fillCaptures_every {itself : Value} (hitself : itself.Every Q) {loads : List CaptureLoad}
    {captured : List Value} (hcaptured : ∀ v ∈ captured, v.Every Q) (hm : m.Every Q) :
    wp (fillCaptures itself loads captured) (fun _ m' => m'.Every Q) (fun _ _ => True) m := by
  fun_induction fillCaptures itself loads captured generalizing m with
  | case1 => exact hm
  | case2 slot loads captured ih =>
    rw [wp_bind]
    exact wp_mono (store_every hm slot hitself) (fun _ m' hm' => ih hcaptured hm') fun _ _ => id
  | case3 slot offset loads v captured ih =>
    obtain ⟨hv, hcaptured⟩ := List.forall_mem_cons.1 hcaptured
    rw [wp_bind]
    exact wp_mono (store_every hm slot hv) (fun _ m' hm' => ih hcaptured hm') fun _ _ => id
  | case4 => trivial

theorem beginCallee_every {callee : Callee} (hc : callee.toValue.Every Q) (hm : m.Every Q) :
    wp (beginCallee callee) (fun _ m' => m'.Every Q) (fun _ _ => True) m := by
  cases callee with
  | builtin b =>
    rw [beginCallee, wp_bind]
    refine wp_mono (applyBuiltin_regular hm b) ?_ fun _ _ _ => trivial
    rintro v m' ⟨rfl, hv⟩
    exact hm.setAccumulator hv
  | closure routine captured =>
    rw [beginCallee, wp_bind]
    refine wp_mono (grow_every hm _) (fun _ m₁ hm₁ => ?_) fun _ _ => id
    exact fillCaptures_every hc (Value.everyAll_iff.1 hc.2) hm₁

theorem finishCall_every (hm : m.Every Q) (callee : Callee) (argc line : Nat) :
    wp (finishCall callee argc line) (fun _ m' => m'.Every Q) (fun _ _ => True) m := by
  have hend : wp (endCallee callee) (fun _ m' => m'.Every Q) (fun _ _ => True) m := by
    cases callee with
    | builtin => exact hm
    | closure routine => exact grow_every hm _
  rw [wp_finishCall]
  refine wp_mono hend (fun _ m₁ hm₁ => ?_) fun _ _ => id
  rw [wp_closeFrame]
  split
  · trivial
  · rw [wp_release]
    have hpop := hm₁.pop
    split
    · have hshrink := hpop.shrink (m₁.stack.pop.size - argc)
      exact ⟨hshrink.stack, hshrink.accumulator, hshrink.globals⟩
    · trivial
  · trivial

/-- Every routine in the work satisfies `Q`. -/
def Work.Every (Q : Routine → Prop) : Work → Prop
  | run c => c.Every Q
  | store _ | push _ => True
  | branch onTrue onFalse _ => onTrue.Every Q ∧ onFalse.Every Q
  | apply args _ => Code.EveryAll Q args
  | call callee _ _ | enter callee _ _ | leave callee _ _ => callee.toValue.Every Q

/-- Every routine in the work that is left and on the machine satisfies `Q`. -/
structure Config.Every (Q : Routine → Prop) (c : Config) : Prop where
  works : ∀ w ∈ c.works, w.Every Q
  machine : c.machine.Every Q

namespace Work

theorem pushAll_every (line : Nat) {cs : List Code} (hcs : Code.EveryAll Q cs) : ∀ w ∈ pushAll line cs, w.Every Q := by
  induction cs with
  | nil => exact nofun
  | cons c cs ih =>
    refine List.forall_mem_append.2 ⟨ih hcs.2, ?_⟩
    exact List.forall_mem_cons.2 ⟨hcs.1, List.forall_mem_singleton.2 trivial⟩

/-- After the step every routine in the work that it leads to and on the machine satisfies `Q`. -/
abbrev LeadsToEvery (Q : Routine → Prop) (f : Step (List Work)) (m : Machine) : Prop :=
  wp f (fun works m' => Config.Every Q ⟨works, m'⟩) (fun _ _ => True) m

theorem following_every {f : Step Unit} (hf : wp f (fun _ m' => m'.Every Q) (fun _ _ => True) m) {works : List Work}
    (hworks : ∀ w ∈ works, w.Every Q) : LeadsToEvery Q (following f works) m := by
  rw [LeadsToEvery, following, wp_bind]
  exact wp_mono hf (fun _ m' hm' => ⟨hworks, hm'⟩) fun _ _ => id

theorem perform_every {w : Work} (hw : w.Every Q) (hm : m.Every Q) : LeadsToEvery Q w.perform m := by
  cases w with
  | run c =>
    cases c with
    | const v =>
      refine following_every ?_ (List.forall_mem_nil _)
      exact hm.setAccumulator hw
    | load offset =>
      refine following_every ?_ (List.forall_mem_nil _)
      rw [wp_bind]
      refine wp_mono (load_regular hm offset) ?_ fun _ _ _ => trivial
      rintro v m' ⟨rfl, hv⟩
      exact hm.setAccumulator hv
    | global index =>
      refine following_every ?_ (List.forall_mem_nil _)
      rw [wp_bind, wp_loadGlobal]
      split
      · next hv => exact hm.setAccumulator (hm.globals hv)
      · trivial
    | closure routine =>
      refine following_every ?_ (List.forall_mem_nil _)
      rw [wp_bind]
      refine wp_mono (loadAll_regular hm _) ?_ fun _ _ _ => trivial
      rintro vs m' ⟨rfl, hvs⟩
      exact hm.setAccumulator ⟨hw, Value.everyAll_iff.2 hvs⟩
    | store slot value => exact ⟨List.forall_mem_cons.2 ⟨hw, List.forall_mem_singleton.2 trivial⟩, hm⟩
    | block stores result =>
      refine ⟨List.forall_mem_append.2 ⟨?_, List.forall_mem_singleton.2 hw.2⟩, hm⟩
      exact List.forall_mem_map.2 (Code.everyAll_iff.1 hw.1)
    | cond test onTrue onFalse line =>
      exact ⟨List.forall_mem_cons.2 ⟨hw.1, List.forall_mem_singleton.2 hw.2⟩, hm⟩
    | call callee args line => exact ⟨List.forall_mem_cons.2 ⟨hw.1, List.forall_mem_singleton.2 hw.2⟩, hm⟩
  | store slot => exact following_every (store_every hm slot hm.accumulator) (List.forall_mem_nil _)
  | branch onTrue onFalse line =>
    rw [LeadsToEvery, perform, wp_bind, wp_get]
    split
    · exact ⟨List.forall_mem_singleton.2 hw.1, hm⟩
    · exact ⟨List.forall_mem_singleton.2 hw.2, hm⟩
    · trivial
  | apply args line =>
    rw [LeadsToEvery, perform, wp_bind, wp_get]
    dsimp only
    split
    · trivial
    · next callee hcallee =>
      -- The function that is called is the value in the accumulator.
      have hcallee : callee.toValue.Every Q := (Callee.toValue_of_ofValue? hcallee).symm ▸ hm.accumulator
      exact ⟨List.forall_mem_append.2 ⟨pushAll_every line hw, List.forall_mem_singleton.2 hcallee⟩, hm⟩
  | push line =>
    refine following_every ?_ (List.forall_mem_nil _)
    rw [wp_bind, wp_get, wp_adaptExcept, wp_push]
    split
    · refine hm.push ?_
      rintro v ⟨⟩
      exact hm.accumulator
    · trivial
  | call callee argc line =>
    refine following_every ?_ (List.forall_mem_singleton.2 hw)
    rw [wp_startCall]
    repeat' split
    · trivial
    · trivial
    · exact hm.started _ _
    · trivial
  | enter callee argc line =>
    have hbody : ∀ w ∈ callee.body, w.Every Q := by
      cases callee with
      | builtin => exact List.forall_mem_nil _
      | closure routine captured => exact List.forall_mem_singleton.2 (Routine.every_iff.1 hw.1).2
    refine following_every ?_ (List.forall_mem_append.2 ⟨hbody, List.forall_mem_singleton.2 hw⟩)
    rw [wp_adaptExcept]
    exact beginCallee_every hw hm
  | leave callee argc line => exact following_every (finishCall_every hm callee argc line) (List.forall_mem_nil _)

end Work

namespace Config

variable {c c' : Config}

theorem Next.every (h : Next c c') (hc : c.Every Q) : c'.Every Q := by
  cases h with
  | perform h =>
    obtain ⟨hw, hrest⟩ := List.forall_mem_cons.1 hc.works
    obtain ⟨hworks, hm'⟩ := wp_ok (Work.perform_every hw hc.machine) h
    exact ⟨List.forall_mem_append.2 ⟨hworks, hrest⟩, hm'⟩

theorem Reaches.every (h : Reaches c c') (hc : c.Every Q) : c'.Every Q := by
  induction h with
  | refl => exact hc
  | tail _ hnext ih => exact hnext.every ih

end Config

end Every

/-! ## Steps in one frame -/

namespace Work

/-- Whether the work starts a call. -/
def isCall : Work → Bool
  | call .. => true
  | _ => false

variable {callee : Callee} {argc line : Nat} {works : List Work} {m m' : Machine}

theorem following_eq_ok {f : Step Unit} {works' : List Work} :
    following f works m = .ok works' m' ↔ f m = .ok () m' ∧ works' = works := by
  simp only [following, bind, EStateM.bind]
  cases f m with
  | ok _ m₁ =>
    constructor
    · rintro ⟨⟩
      exact ⟨rfl, rfl⟩
    · rintro ⟨⟨⟩, rfl⟩
      rfl
  | error e m₁ =>
    constructor
    · rintro ⟨⟩
    · rintro ⟨⟨⟩, -⟩

theorem perform_call_eq_ok : (call callee argc line).perform m = .ok works m' ↔
    startCall callee argc line m = .ok () m' ∧ works = [enter callee argc line] := following_eq_ok

theorem perform_enter_eq_ok : (enter callee argc line).perform m = .ok works m' ↔
    beginCallee callee m = .ok () m' ∧ works = callee.body ++ [leave callee argc line] := by
  refine following_eq_ok.trans (and_congr_left' ?_)
  simp only [EStateM.adaptExcept]
  cases beginCallee callee m with
  | ok => exact Iff.rfl
  | error => exact ⟨nofun, nofun⟩

theorem perform_leave_eq_ok : (leave callee argc line).perform m = .ok works m' ↔
    finishCall callee argc line m = .ok () m' ∧ works = [] := following_eq_ok

end Work

namespace Config

/-- The machine gets from one configuration to the other and is in the same frame then. The calls that it has made on
its way are over. -/
inductive Stays (start : Config) : Config → Prop where
  | refl : Stays start start
  | step {w : Work} {works rest : List Work} {m m' : Machine} (h : Stays start ⟨w :: rest, m⟩) (hw : w.isCall = false)
      (hperform : w.perform m = .ok works m') : Stays start ⟨works ++ rest, m'⟩
  | call {callee : Callee} {argc line : Nat} {rest : List Work} {m m' : Machine}
      (h : Stays start ⟨.call callee argc line :: rest, m⟩)
      (hcall : Reaches ⟨[.call callee argc line], m⟩ ⟨[], m'⟩) : Stays start ⟨rest, m'⟩

variable {start c : Config} {callee : Callee} {argc line : Nat} {m m₁ m₂ m₃ m₄ : Machine}

theorem Stays.reaches (h : Stays start c) : Reaches start c := by
  induction h with
  | refl => exact .refl
  | step _ _ hperform ih => exact ih.tail (.perform hperform)
  | @call callee argc line rest _ _ _ hcall ih => exact ih.trans (hcall.append rest)

theorem next_call (h : startCall callee argc line m = .ok () m₁) (rest : List Work) :
    Next ⟨.call callee argc line :: rest, m⟩ ⟨.enter callee argc line :: rest, m₁⟩ :=
  .perform (Work.perform_call_eq_ok.2 ⟨h, rfl⟩)

theorem next_enter (h : beginCallee callee m = .ok () m₁) (rest : List Work) :
    Next ⟨.enter callee argc line :: rest, m⟩ ⟨callee.body ++ .leave callee argc line :: rest, m₁⟩ := by
  have hnext : Next ⟨.enter callee argc line :: rest, m⟩ ⟨callee.body ++ [.leave callee argc line] ++ rest, m₁⟩ :=
    .perform (Work.perform_enter_eq_ok.2 ⟨h, rfl⟩)
  rwa [List.append_assoc] at hnext

/-- A call from its start to its end. -/
theorem reaches_of_call (hstart : startCall callee argc line m = .ok () m₁) (hbegin : beginCallee callee m₁ = .ok () m₂)
    (hbody : Reaches ⟨callee.body, m₂⟩ ⟨[], m₃⟩) (hfinish : finishCall callee argc line m₃ = .ok () m₄) :
    Reaches ⟨[.call callee argc line], m⟩ ⟨[], m₄⟩ := by
  have hleave : Next ⟨[.leave callee argc line], m₃⟩ ⟨[], m₄⟩ := .perform (Work.perform_leave_eq_ok.2 ⟨hfinish, rfl⟩)
  exact .head (next_call hstart []) (.head (next_enter hbegin []) ((hbody.append _).tail hleave))

/-- The machine is in the frame of `start`, or it has just started a call there or has run a builtin. -/
inductive At (start : Config) : Config → Prop where
  | inside {c : Config} (h : Stays start c) : At start c
  | enter {callee : Callee} {argc line : Nat} {rest : List Work} {m m₁ : Machine}
      (h : Stays start ⟨.call callee argc line :: rest, m⟩) (hstart : startCall callee argc line m = .ok () m₁) :
      At start ⟨.enter callee argc line :: rest, m₁⟩
  | leave {b : Builtin} {argc line : Nat} {rest : List Work} {m m₁ m₂ : Machine}
      (h : Stays start ⟨.call (.builtin b) argc line :: rest, m⟩)
      (hstart : startCall (.builtin b) argc line m = .ok () m₁) (hbegin : beginCallee (.builtin b) m₁ = .ok () m₂) :
      At start ⟨.leave (.builtin b) argc line :: rest, m₂⟩

end Config

end Machine

/-! ## Frames of a run -/

open Machine

/-- While the program runs on the machine a routine is entered. Its body starts on the other machine, and the work is
what is left to do after it. -/
inductive Program.Enters (p : Program) (m : Machine) : Routine → Machine → List Work → Prop where
  | main {m₀ : Machine} (hframe : grow p.main.frameSize (m.cleared p.globals) = .ok () m₀) : Enters p m p.main m₀ []
  | closure {caller routine : Routine} {captured : List Value} {argc line : Nat} {outer rest : List Work}
      {m₀ m₁ m₂ m₃ : Machine} (h : Enters p m caller m₀ outer)
      (hstays : Config.Stays ⟨[.run caller.body], m₀⟩ ⟨.call (.closure routine captured) argc line :: rest, m₁⟩)
      (hstart : startCall (.closure routine captured) argc line m₁ = .ok () m₂)
      (hbegin : beginCallee (.closure routine captured) m₂ = .ok () m₃) :
      Enters p m routine m₃ (.leave (.closure routine captured) argc line :: (rest ++ outer))

namespace Program

variable {p : Program} {m m₀ : Machine} {routine : Routine} {outer : List Work}

/-- A run comes to the start of every body that it enters. -/
theorem Enters.reaches (hframe : grow p.main.frameSize (m.cleared p.globals) = .ok () m₀) {m₁ : Machine}
    (h : p.Enters m routine m₁ outer) : Config.Reaches ⟨[.run p.main.body], m₀⟩ ⟨.run routine.body :: outer, m₁⟩ := by
  induction h with
  | main hframe' =>
    cases hframe.symm.trans hframe'
    exact .refl
  | @closure _ _ _ _ _ outer rest _ _ _ _ _ hstays hstart hbegin ih =>
    exact ((ih.trans (hstays.reaches.append outer)).tail (Config.next_call hstart (rest ++ outer))).tail
      (Config.next_enter hbegin (rest ++ outer))

theorem Enters.every {Q : Routine → Prop} (hp : p.Every Q) {m₁ : Machine} (h : p.Enters m routine m₁ outer) :
    routine.Every Q ∧ m₁.Every Q := by
  induction h with
  | main hframe =>
    have hgrown := wp_ok (grow_every (Every.cleared hp m) p.main.frameSize) hframe
    exact ⟨hp.main, hgrown⟩
  | @closure caller _ _ _ _ _ _ m₀ _ _ _ _ hstays hstart hbegin ih =>
    have hcaller : Config.Every Q ⟨[.run caller.body], m₀⟩ :=
      ⟨List.forall_mem_singleton.2 (Routine.every_iff.1 ih.1).2, ih.2⟩
    have hentered := (Config.next_call hstart _).every (hstays.reaches.every hcaller)
    have hroutine := hentered.works _ (List.mem_cons_self ..)
    exact ⟨hroutine.1, ((Config.next_enter hbegin _).every hentered).machine⟩

/-- Wherever a run is, it is in a frame that it has entered. -/
theorem Enters.exists_of_reaches (hframe : grow p.main.frameSize (m.cleared p.globals) = .ok () m₀) {c : Config}
    (h : Config.Reaches ⟨[.run p.main.body], m₀⟩ c) :
    ∃ routine m₁ outer rest, p.Enters m routine m₁ outer ∧ c.works = rest ++ outer ∧
      Config.At ⟨[.run routine.body], m₁⟩ ⟨rest, c.machine⟩ := by
  induction h with
  | refl => exact ⟨p.main, m₀, [], _, .main hframe, rfl, .inside .refl⟩
  | @tail c c' _ hnext ih =>
    obtain ⟨routine, m₁, outer, rest, henters, hworks, hat⟩ := ih
    obtain ⟨works, m₂⟩ := c
    obtain rfl : works = rest ++ outer := hworks
    cases hat with
    | inside hstays =>
      cases rest with
      | nil =>
        -- The body is over, so the machine goes back to the frame of the caller.
        cases henters with
        | main => exact absurd hnext (Config.not_next_done m₂ c')
        | @closure caller _ _ _ _ outer rest m₀ _ _ _ hcaller hcall hstart hbegin =>
          cases hnext with
          | perform hperform =>
            obtain ⟨hfinish, rfl⟩ := Work.perform_leave_eq_ok.1 hperform
            have hover := Config.reaches_of_call hstart hbegin hstays.reaches hfinish
            exact ⟨caller, m₀, outer, rest, hcaller, rfl, .inside (hcall.call hover)⟩
      | cons w rest =>
        cases hnext with
        | perform hperform =>
          cases hw : w.isCall with
          | false =>
            exact ⟨routine, m₁, outer, _, henters, (List.append_assoc ..).symm, .inside (hstays.step hw hperform)⟩
          | true =>
            cases w with
            | call callee argc line =>
              obtain ⟨hstart, rfl⟩ := Work.perform_call_eq_ok.1 hperform
              exact ⟨routine, m₁, outer, _, henters, rfl, .enter hstays hstart⟩
            | run | store | branch | apply | push | enter | leave => cases hw
    | @enter callee argc line rest _ _ hcall hstart =>
      cases hnext with
      | perform hperform =>
        obtain ⟨hbegin, rfl⟩ := Work.perform_enter_eq_ok.1 hperform
        cases callee with
        | builtin b => exact ⟨routine, m₁, outer, _, henters, rfl, .leave hcall hstart hbegin⟩
        | closure routine' captured =>
          exact ⟨routine', _, _, [.run routine'.body], .closure henters hcall hstart hbegin, rfl, .inside .refl⟩
    | @leave b argc line rest _ _ _ hcall hstart hbegin =>
      cases hnext with
      | perform hperform =>
        obtain ⟨hfinish, rfl⟩ := Work.perform_leave_eq_ok.1 hperform
        have hover := Config.reaches_of_call hstart hbegin .refl hfinish
        exact ⟨routine, m₁, outer, rest, henters, rfl, .inside (hcall.call hover)⟩

end Program

end ClosureLang
