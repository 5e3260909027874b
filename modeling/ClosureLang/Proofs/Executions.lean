import ClosureLang.Proofs.Compilation

/-!
# What happens during a run

Code that runs starts other code: its operands, and the bodies of the functions that it calls. `Starts` says which code
starts, on what machine, and how deep its calls may still nest. The values that arise in a run are those that code
leaves in the accumulator, and the ones that these have captured.

Code that keeps to its frame starts only such code, each piece in a frame of its own or in the one it was started in. So
all closures that arise in a run of a compiled program keep to their frames.
-/

namespace ClosureLang

namespace Machine

/-- Code that runs on a machine while calls may nest `levels` deep. -/
structure Task where
  levels : Nat
  code : Code
  machine : Machine

/-- Makes the frame of a closure whose arguments have been pushed, as far as its body needs it. -/
def prepare (routine : Routine) (captured : List Value) (argc : Nat) : Step Unit := do
  push (.base (← get).base)
  openFrame routine.label argc
  grow routine.frameSize
  fillCaptures (.closure routine captured) routine.captures captured

/-- While the first task runs, the second one starts. -/
inductive Starts : Task → Task → Prop where
  | stored {n : Nat} {slot : Int} {value : Code} {m : Machine} : Starts ⟨n, .store slot value, m⟩ ⟨n, value, m⟩
  | statement {n : Nat} {before after : List Code} {c result : Code} {m m₁ : Machine}
      (hbefore : execAll (levels n) before m = .ok () m₁) :
      Starts ⟨n, .block (before ++ c :: after) result, m⟩ ⟨n, c, m₁⟩
  | result {n : Nat} {stores : List Code} {result : Code} {m m₁ : Machine}
      (hstores : execAll (levels n) stores m = .ok () m₁) : Starts ⟨n, .block stores result, m⟩ ⟨n, result, m₁⟩
  | test {n line : Nat} {test onTrue onFalse : Code} {m : Machine} :
      Starts ⟨n, .cond test onTrue onFalse line, m⟩ ⟨n, test, m⟩
  | branch {n line : Nat} {test onTrue onFalse : Code} {m m₁ : Machine} {b : Bool}
      (htest : execWith (levels n) test m = .ok () m₁) (hb : m₁.accumulator = .boolean b) :
      Starts ⟨n, .cond test onTrue onFalse line, m⟩ ⟨n, if b then onTrue else onFalse, m₁⟩
  -- A call computes the function first, then its arguments from the last one to the first.
  | callee {n line : Nat} {callee : Code} {args : List Code} {m : Machine} :
      Starts ⟨n, .call callee args line, m⟩ ⟨n, callee, m⟩
  | arg {n line : Nat} {callee c : Code} {before after : List Code} {found : Callee} {m m₁ m₂ : Machine}
      (hcallee : execWith (levels n) callee m = .ok () m₁) (hfound : Callee.ofValue? m₁.accumulator = some found)
      (hafter : pushArgs (levels n) line after m₁ = .ok () m₂) :
      Starts ⟨n, .call callee (before ++ c :: after) line, m⟩ ⟨n, c, m₂⟩
  -- A body has one level less for its own calls.
  | body {n line : Nat} {callee : Code} {args : List Code} {routine : Routine} {captured : List Value}
      {m m₁ m₂ m₃ : Machine} (hcallee : execWith (levels (n + 1)) callee m = .ok () m₁)
      (hfound : m₁.accumulator = .closure routine captured)
      (hargs : pushArgs (levels (n + 1)) line args m₁ = .ok () m₂) (harity : args.length = routine.arity)
      (hframe : prepare routine captured args.length m₂ = .ok () m₃) :
      Starts ⟨n + 1, .call callee args line, m⟩ ⟨n, routine.body, m₃⟩

/-! ## Frames of started code -/

/-- The code of the task keeps to a frame that is on its machine. -/
structure Task.Fits (task : Task) (a : Activation) (size : Nat) (σ : Slots) : Prop where
  deeper : (Machine.levels task.levels).Matches a a.deeper
  within : task.code.Within a.args.length size
  every : task.code.Every Routine.Fits
  holds : Holds task.machine a size σ

variable {task task' : Task} {a : Activation} {size : Nat} {m : Machine}

/-- The body of a closure starts in the frame that was made for it. -/
theorem prepare_holds {routine : Routine} {captured vs : List Value}
    (hv : (Value.closure routine captured).Every Routine.Fits) (hs : Stacked m vs)
    (hlimit : m.limits.maxCallDepth = a.limit) (hglobals : m.globals = a.globals)
    (he : Activation.Every Routine.Fits { a with args := vs } Slots.empty) (argc : Nat) :
    wp (prepare routine captured argc)
      (fun _ m' => ∃ σ, Holds m' { a with args := vs } routine.frameSize.toNat σ) (fun _ _ => True) m := by
  obtain ⟨hfits, -⟩ := Routine.every_iff.1 hv.1
  have hsize : ((routine.frameSize.toNat : Nat) : Int) = routine.frameSize := Int.toNat_of_nonneg hfits.sized
  rw [prepare, wp_bind, wp_get, wp_bind, wp_push]
  split
  case isFalse => trivial
  rw [wp_bind, wp_openFrame, wp_bind, wp_grow_of_nonneg hfits.sized, wp_reserve]
  split
  case isFalse => trivial
  -- The new frame is on top of the stack, so the cells that are reserved are its slots.
  have hstart := hs.started hlimit hglobals he routine.label argc
  have hreserved := hstart.reserved (by simp [started]) routine.frameSize.toNat
  have hfill := fillCaptures_follows hv routine.captures (by rw [hsize]; exact hfits.captures)
    (Value.everyAll_iff.1 hv.2) hreserved
  refine wp_mono hfill ?_ fun _ _ _ => trivial
  rintro _ _ ⟨σ, -, h, -⟩
  exact ⟨σ, h⟩

/-- What starts in a frame keeps to a frame, its own or that one. -/
theorem Starts.fits (h : Starts task task') (ht : ∃ a size σ, task.Fits a size σ) :
    ∃ a size σ, task'.Fits a size σ := by
  obtain ⟨a, size, σ, hd, hw, he, hm⟩ := ht
  cases h with
  | stored => exact ⟨a, size, σ, hd, hw.2.2, he, hm⟩
  | @statement n before after c result m m₁ hbefore =>
    have hw' := Code.allWithin_iff.1 hw.1
    have he' := Code.everyAll_iff.1 he.1
    -- The statements before this one have changed the slots, but the frame is still there.
    have hbefore' := execAll_follows hd before (Code.allWithin_iff.2 fun c hc => hw' c (List.mem_append_left _ hc))
      (Code.everyAll_iff.2 fun c hc => he' c (List.mem_append_left _ hc)) hm
    obtain ⟨σ', -, hm₁, -⟩ := wp_ok hbefore' hbefore
    exact ⟨a, size, σ', hd, hw' c (by simp), he' c (by simp), hm₁⟩
  | @result n stores result m m₁ hstores =>
    obtain ⟨σ', -, hm₁, -⟩ := wp_ok (execAll_follows hd stores hw.1 he.1 hm) hstores
    exact ⟨a, size, σ', hd, hw.2, he.2, hm₁⟩
  | test => exact ⟨a, size, σ, hd, hw.1, he.1, hm⟩
  | @branch n line test onTrue onFalse m m₁ b htest hb =>
    obtain ⟨r, -, hr⟩ := wp_ok (execWith_follows hd test hw.1 he.1 hm) htest
    cases b with
    | true => exact ⟨a, size, r.2, hd, hw.2.1, he.2.1, hr.holds⟩
    | false => exact ⟨a, size, r.2, hd, hw.2.2, he.2.2, hr.holds⟩
  | callee => exact ⟨a, size, σ, hd, hw.1, he.1, hm⟩
  | @arg n line callee c before after found m m₁ m₂ hcallee hfound hafter =>
    have hw' := Code.allWithin_iff.1 hw.2
    have he' := Code.everyAll_iff.1 he.2
    obtain ⟨r, -, hr⟩ := wp_ok (execWith_follows hd callee hw.1 he.1 hm) hcallee
    have hafter' := pushArgs_follows hd line after (Code.allWithin_iff.2 fun c hc => hw' c (by simp [hc]))
      (Code.everyAll_iff.2 fun c hc => he' c (by simp [hc])) hr.holds
    obtain ⟨r', -, hm₂, -⟩ := wp_ok hafter' hafter
    exact ⟨a, size, r'.2, hd, hw' c (by simp), he' c (by simp), hm₂⟩
  | @body n line callee args routine captured m m₁ m₂ m₃ hcallee hfound hargs harity hframe =>
    obtain ⟨r, -, hr⟩ := wp_ok (execWith_follows hd callee hw.1 he.1 hm) hcallee
    have hclosure : (Value.closure routine captured).Every Routine.Fits := by
      rw [← hfound, hr.value]
      exact hr.every
    have ⟨hfits, hbody⟩ := Routine.every_iff.1 hclosure.1
    obtain ⟨⟨vs, σ'⟩, -, hm₂, -, hs, hvs, hlen⟩ := wp_ok (pushArgs_follows hd line args hw.2 he.2 hr.holds) hargs
    obtain ⟨σ₃, hm₃⟩ := wp_ok (prepare_holds hclosure hs hm₂.limit hm₂.globals (hm₂.every.start hvs) args.length) hframe
    -- One level is used up, and what is left of them is the same as before for the machine and for the activation.
    refine ⟨{ a with args := vs, deeper := Activation.levels a.limit a.globals n }, routine.frameSize.toNat, σ₃,
      levels_matches _ n, ?_, hbody, hm₃.withDeeper _⟩
    have hcount : vs.length = routine.arity := hlen.trans harity
    dsimp only
    rw [hcount]
    exact hfits.body

theorem fits_of_starts (h : Relation.ReflTransGen Starts task task') (ht : ∃ a size σ, task.Fits a size σ) :
    ∃ a size σ, task'.Fits a size σ := by
  induction h with
  | refl => exact ht
  | tail _ hstarts ih => exact hstarts.fits ih

end Machine

/-! ## Values -/

open Machine

/-- The value arises while the program runs on the machine. -/
inductive Program.Arises (p : Program) (m : Machine) : Value → Prop where
  | ended {m₀ m₁ : Machine} {task : Task} (hframe : grow p.main.frameSize (m.cleared p.globals) = .ok () m₀)
      (hstarts : Relation.ReflTransGen Starts ⟨m₀.limits.maxCallDepth - m₀.depth, p.main.body, m₀⟩ task)
      (hrun : execWith (levels task.levels) task.code task.machine = .ok () m₁) : Arises p m m₁.accumulator
  | captured {routine : Routine} {captured : List Value} {v : Value} (h : Arises p m (.closure routine captured))
      (hv : v ∈ captured) : Arises p m v

theorem Machine.grow_accumulator (delta : Int) (m : Machine) :
    wp (grow delta) (fun _ m' => m'.accumulator = m.accumulator) (fun _ _ => True) m := by
  unfold grow
  split
  · rw [wp_reserve]
    split
    · rfl
    · trivial
  · rw [wp_release]
    split
    · rfl
    · trivial

/-- What a program returns arises while it runs. -/
theorem Program.arises_of_run {p : Program} {m m' : Machine} {v : Value} (h : run p m = .ok v m') : p.Arises m v := by
  have hrun : wp (run p) (fun v _ => p.Arises m v) (fun _ _ => True) m := by
    rw [wp_run]
    cases hframe : grow p.main.frameSize (m.cleared p.globals) with
    | error e m₀ => exact wp_of_error hframe trivial
    | ok _ m₀ =>
      refine wp_of_ok hframe ?_
      cases hexec : exec p.main.body m₀ with
      | error e m₁ => exact wp_of_error hexec trivial
      | ok _ m₁ =>
        have harises : p.Arises m m₁.accumulator := .ended hframe .refl (by rw [← execWithin_eq]; exact hexec)
        refine wp_of_ok hexec (wp_mono (grow_accumulator _ m₁) (fun _ m₂ hacc => ?_) fun _ _ _ => trivial)
        split
        · exact hacc ▸ harises
        · trivial
  exact wp_ok hrun h

/-- All closures that arise in a program whose code keeps to its frames do so too. -/
theorem Program.Arises.every {p : Program} {m : Machine} {v : Value} (h : p.Arises m v)
    (hp : p.Every Routine.Fits) (harity : p.main.arity = 0) : v.Every Routine.Fits := by
  induction h with
  | @ended m₀ m₁ task hframe hstarts hrun =>
    have ⟨hfits, hbody⟩ := Routine.every_iff.1 hp.main
    have hwithin := hfits.body
    rw [harity] at hwithin
    -- The program itself starts in a frame that has no arguments.
    have hstart : wp (grow p.main.frameSize) (fun _ m₀ => Holds m₀ (p.start m.limits.maxCallDepth)
        p.main.frameSize.toNat .empty) (fun _ _ => True) (m.cleared p.globals) := by
      rw [wp_grow_of_nonneg hfits.sized, wp_reserve]
      split
      · exact Holds.start hp m p.main.frameSize.toNat
      · trivial
    obtain ⟨a, size, σ, htask⟩ := fits_of_starts hstarts
      ⟨{ p.start m.limits.maxCallDepth with
          deeper := Activation.levels m.limits.maxCallDepth p.globals (m₀.limits.maxCallDepth - m₀.depth) },
        p.main.frameSize.toNat, .empty, levels_matches _ _, hwithin, hbody, (wp_ok hstart hframe).withDeeper _⟩
    obtain ⟨r, -, hr⟩ := wp_ok (execWith_follows htask.deeper _ htask.within htask.every htask.holds) hrun
    rw [hr.value]
    exact hr.every
  | captured h hv ih => exact Value.everyAll_iff.1 ih.2 _ hv

end ClosureLang
