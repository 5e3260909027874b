import ClosureLang.Proofs.CallFrames
import ClosureLang.Proofs.LocalSlots

/-!
# What code does to the stack

A node of compiled code, run to its end, changes nothing on the stack but slots of the frame that it runs in, and of
these only the ones that it stores in itself. They are locals that were not set before.
-/

namespace ClosureLang

/-! ## Slots of a frame -/

namespace Code

mutual

theorem Within.stored {arity size : Nat} (c : Code) (h : c.Within arity size) :
    ∀ slot ∈ c.stored, 0 ≤ slot ∧ slot < size := by
  cases c with
  | const | load | global | closure => exact nofun
  | store slot value =>
    exact List.forall_mem_append.2 ⟨Within.stored value h.2.2, List.forall_mem_singleton.2 ⟨h.1, h.2.1⟩⟩
  | block stores result => exact List.forall_mem_append.2 ⟨AllWithin.stored stores h.1, Within.stored result h.2⟩
  | cond test onTrue onFalse line =>
    refine List.forall_mem_append.2 ⟨Within.stored test h.1, ?_⟩
    exact List.forall_mem_append.2 ⟨Within.stored onTrue h.2.1, Within.stored onFalse h.2.2⟩
  | call callee args line => exact List.forall_mem_append.2 ⟨Within.stored callee h.1, AllWithin.stored args h.2⟩

theorem AllWithin.stored {arity size : Nat} (cs : List Code) (h : AllWithin arity size cs) :
    ∀ slot ∈ storedAll cs, 0 ≤ slot ∧ slot < size := by
  cases cs with
  | nil => exact nofun
  | cons c cs => exact List.forall_mem_append.2 ⟨Within.stored c h.1, AllWithin.stored cs h.2⟩

end

end Code

theorem Slots.set_of_ne {σ : Slots} {n k : Nat} (h : n ≠ k) (v : Value) : σ.set n v k = σ k := if_neg h.symm

/-- Captures are stored in their slots only. -/
theorem Slots.fill_of_ne {itself : Value} {loads : List CaptureLoad} {captured : List Value} {σ σ' : Slots}
    (h : σ.fill itself loads captured = .ok σ') {n : Nat} (hn : ∀ load ∈ loads, load.slot.toNat ≠ n) : σ' n = σ n := by
  fun_induction fill itself loads captured σ with
  | case1 =>
    cases h
    rfl
  | case2 slot loads captured σ ih =>
    obtain ⟨hslot, hrest⟩ := List.forall_mem_cons.1 hn
    exact (ih h hrest).trans (set_of_ne hslot _)
  | case3 slot offset loads v captured σ ih =>
    obtain ⟨hslot, hrest⟩ := List.forall_mem_cons.1 hn
    exact (ih h hrest).trans (set_of_ne hslot _)
  | case4 => cases h

namespace Activation

mutual

/-- Slots that code does not store in stay as they are. -/
theorem eval_slots (a : Activation) (c : Code) {σ σ' : Slots} {v : Value} (h : a.eval c σ = .ok (v, σ')) {n : Nat}
    (hn : ∀ slot ∈ c.stored, slot.toNat ≠ n) : σ' n = σ n := by
  cases c with
  | const =>
    cases h
    rfl
  | load | closure =>
    obtain ⟨_, -, h⟩ := exists_of_bind_eq_ok h
    cases h
    rfl
  | global index =>
    rw [eval] at h
    split at h
    · cases h
      rfl
    · cases h
  | store slot value =>
    obtain ⟨hvalue, hslot⟩ := List.forall_mem_append.1 hn
    obtain ⟨⟨w, σ₁⟩, h₁, h⟩ := exists_of_bind_eq_ok h
    cases h
    have hne : slot.toNat ≠ n := hslot slot (List.mem_singleton_self slot)
    exact (Slots.set_of_ne hne v).trans (eval_slots a value h₁ hvalue)
  | block stores result =>
    obtain ⟨hstores, hresult⟩ := List.forall_mem_append.1 hn
    obtain ⟨σ₁, h₁, h⟩ := exists_of_bind_eq_ok h
    exact (eval_slots a result h hresult).trans (evalAll_slots a stores h₁ hstores)
  | cond test onTrue onFalse line =>
    obtain ⟨htest, hn⟩ := List.forall_mem_append.1 hn
    obtain ⟨hTrue, hFalse⟩ := List.forall_mem_append.1 hn
    obtain ⟨⟨w, σ₁⟩, h₁, h⟩ := exists_of_bind_eq_ok h
    have hkept := eval_slots a test h₁ htest
    cases w with
    | boolean b =>
      cases b with
      | true => exact (eval_slots a onTrue h hTrue).trans hkept
      | false => exact (eval_slots a onFalse h hFalse).trans hkept
    | number | builtin | closure => cases h
  | call callee args line =>
    obtain ⟨hcallee, hargs⟩ := List.forall_mem_append.1 hn
    obtain ⟨⟨f, σ₁⟩, h₁, h⟩ := exists_of_bind_eq_ok h
    have hkept := eval_slots a callee h₁ hcallee
    dsimp only at h
    split at h
    · cases h
    · obtain ⟨⟨vs, σ₂⟩, h₂, h⟩ := exists_of_bind_eq_ok h
      obtain ⟨w, -, h⟩ := exists_of_bind_eq_ok h
      cases h
      exact (evalArgs_slots a args h₂ hargs).trans hkept

theorem evalAll_slots (a : Activation) (cs : List Code) {σ σ' : Slots} (h : a.evalAll cs σ = .ok σ') {n : Nat}
    (hn : ∀ slot ∈ Code.storedAll cs, slot.toNat ≠ n) : σ' n = σ n := by
  cases cs with
  | nil =>
    cases h
    rfl
  | cons c cs =>
    obtain ⟨hc, hcs⟩ := List.forall_mem_append.1 hn
    obtain ⟨⟨w, σ₁⟩, h₁, h⟩ := exists_of_bind_eq_ok h
    exact (evalAll_slots a cs h hcs).trans (eval_slots a c h₁ hc)

theorem evalArgs_slots (a : Activation) (cs : List Code) {σ σ' : Slots} {vs : List Value}
    (h : a.evalArgs cs σ = .ok (vs, σ')) {n : Nat} (hn : ∀ slot ∈ Code.storedAll cs, slot.toNat ≠ n) : σ' n = σ n := by
  cases cs with
  | nil =>
    cases h
    rfl
  | cons c cs =>
    obtain ⟨hc, hcs⟩ := List.forall_mem_append.1 hn
    obtain ⟨⟨ws, σ₁⟩, h₁, h⟩ := exists_of_bind_eq_ok h
    obtain ⟨⟨w, σ₂⟩, h₂, h⟩ := exists_of_bind_eq_ok h
    cases h
    exact (eval_slots a c h₂ hc).trans (evalArgs_slots a cs h₁ hcs)

end

end Activation

namespace Machine

/-! ## The frame on top of the stack -/

/-- Above the frame there is nothing on the stack but the arguments that have been pushed for calls, the last one first.
-/
structure OnTop (a : Activation) (size : Nat) (σ : Slots) (vs : List Value) (m : Machine) : Prop where
  holds : Holds m a size σ
  height : m.stack.size = m.base + size + vs.length
  stacked : Stacked m vs

variable {a : Activation} {size : Nat} {σ σ' : Slots} {vs : List Value} {m m' : Machine}

theorem OnTop.setAccumulator (h : OnTop a size σ vs m) (v : Value) : OnTop a size σ vs { m with accumulator := v } :=
  ⟨h.holds.setAccumulator v, h.height, h.stacked.height, h.stacked.cells⟩

theorem OnTop.push (h : OnTop a size σ vs m) (v : Value) :
    OnTop a size σ (v :: vs) { m with stack := m.stack.push (.value v) } where
  holds := h.holds.push _
  height := by
    rw [Array.size_push, h.height, List.length_cons]
    rfl
  stacked := h.stacked.push v

theorem OnTop.store (h : OnTop a size σ vs m) {slot : Int} (hlow : 0 ≤ slot) (hhigh : slot < size) {v : Value}
    (hv : v.Every Routine.Fits) :
    wp (store slot v) (fun _ m' => OnTop a size (σ.set slot.toNat v) vs m' ∧ m'.base = m.base) (fun _ _ => True) m := by
  have hheight := h.height
  refine wp_mono (store_holds h.holds hlow hhigh hv) (fun _ m' ⟨_, hholds, hkept⟩ => ?_) fun _ _ => False.elim
  refine ⟨⟨hholds, ?_, h.stacked.kept (by omega) hkept⟩, hkept.base⟩
  rw [hkept.height, hkept.base, hheight]
  rfl

theorem Stacked.take (h : Stacked m vs) (n : Nat) : Stacked m (vs.take n) where
  height := Nat.le_trans (List.length_take_le' n vs) h.height
  cells {i v} hv := by
    rw [List.getElem?_take] at hv
    split at hv
    · exact h.cells hv
    · cases hv

theorem Stacked.every {Q : Routine → Prop} (h : Stacked m vs) (hm : m.Every Q) : ∀ v ∈ vs, v.Every Q := by
  intro v hv
  obtain ⟨i, hi⟩ := List.getElem?_of_mem hv
  exact hm.stack (h.cells hi)

/-- A call that is over has taken its arguments away and has left the rest as it was. -/
theorem OnTop.returned (h : OnTop a size σ vs m) {argc : Nat} (hargc : argc ≤ vs.length) (hr : Returned argc m m') :
    OnTop a size σ (vs.drop argc) m' := by
  have hheight := h.height
  have hheight' := hr.height
  have hbase := hr.base
  refine ⟨h.holds.congr hbase hr.limits hr.globals (n := m'.stack.size) (by omega) (Nat.le_refl _) hr.cells, ?_, ?_, ?_⟩
  · rw [List.length_drop]
    omega
  · rw [List.length_drop]
    omega
  · intro i v hv
    rw [List.getElem?_drop] at hv
    have hi : argc + i < vs.length := (List.getElem?_eq_some_iff.1 hv).1
    rw [hr.cells _ (by omega), show m'.stack.size - (i + 1) = m.stack.size - (argc + i + 1) by omega]
    exact h.stacked.cells hv

theorem OnTop.call (h : OnTop a size σ vs m) (hm : m.Every Routine.Fits) {callee : Callee}
    (hc : callee.toValue.Every Routine.Fits) {argc line : Nat} (hargc : argc ≤ vs.length)
    (hcall : Config.Reaches ⟨[.call callee argc line], m⟩ ⟨[], m'⟩) :
    OnTop a size σ (vs.drop argc) m' ∧ m'.base = m.base := by
  let n := m.limits.maxCallDepth - m.depth
  let a' : Activation := ⟨a.limit, a.globals, Activation.levels a.limit a.globals n, []⟩
  have hok := (call_does (levels_does n) (m := m) rfl callee argc line).eq_ok hcall
  have hargs := h.stacked.take argc
  have hlen : (vs.take argc).length = argc := List.length_take_of_le hargc
  have hevery : Activation.Every Routine.Fits { a' with args := vs.take argc } Slots.empty :=
    ⟨hargs.every hm, by rintro _ _ ⟨⟩, h.holds.every.globals⟩
  have hfollows := call_follows (levels_matches a' n) hc hargs h.holds.limit h.holds.globals hevery line
  rw [hlen] at hfollows
  obtain ⟨v, -, -, -, hreturned⟩ := wp_ok hfollows hok
  exact ⟨h.returned hargc hreturned, hreturned.base⟩

/-! ## Work in a frame -/

namespace Work

/-- The work keeps to a frame. A call that has been entered has a frame of its own. -/
def Within (arity size : Nat) : Work → Prop
  | run c => c.Within arity size
  | store slot => 0 ≤ slot ∧ slot < size
  | branch onTrue onFalse _ => onTrue.Within arity size ∧ onFalse.Within arity size
  | apply args _ => Code.AllWithin arity size args
  | push _ | call .. => True
  | enter .. | leave .. => False

/-- The slots that the work may still store in. -/
def stored : Work → List Int
  | run c => c.stored
  | store slot => [slot]
  | branch onTrue onFalse _ => onTrue.stored ++ onFalse.stored
  | apply args _ => Code.storedAll args
  | push _ | call .. | enter .. | leave .. => []

def storedAll (works : List Work) : List Int := works.flatMap stored

/-- All arguments of calls have been pushed when the calls start, given the number of those that have been pushed so
far. -/
def Balanced : Nat → List Work → Prop
  | _, [] => True
  | n, push _ :: works => Balanced (n + 1) works
  | n, call _ argc _ :: works => argc ≤ n ∧ Balanced (n - argc) works
  | n, run _ :: works | n, store _ :: works | n, branch .. :: works | n, apply .. :: works | n, enter .. :: works
  | n, leave .. :: works => Balanced n works

variable {arity size : Nat}

theorem Within.stored {w : Work} (h : w.Within arity size) : ∀ slot ∈ w.stored, 0 ≤ slot ∧ slot < size := by
  cases w with
  | run c => exact Code.Within.stored c h
  | store slot => exact List.forall_mem_singleton.2 h
  | branch onTrue onFalse line =>
    exact List.forall_mem_append.2 ⟨Code.Within.stored onTrue h.1, Code.Within.stored onFalse h.2⟩
  | apply args line => exact Code.AllWithin.stored args h
  | push | call | enter | leave => exact nofun

theorem storedAll_append (ws ws' : List Work) : storedAll (ws ++ ws') = storedAll ws ++ storedAll ws' :=
  List.flatMap_append

theorem storedAll_run (c : Code) : storedAll [run c] = c.stored := List.append_nil _

theorem storedAll_map_run (cs : List Code) : storedAll (cs.map run) = Code.storedAll cs := by
  induction cs with
  | nil => rfl
  | cons c cs ih => exact congrArg (c.stored ++ ·) ih

/-- Arguments are computed in another order than that in which they are written. -/
theorem storedAll_pushAll (line : Nat) (cs : List Code) : (storedAll (pushAll line cs)).Perm (Code.storedAll cs) := by
  induction cs with
  | nil => exact .refl _
  | cons c cs ih =>
    rw [pushAll, storedAll_append]
    refine (List.perm_append_comm).trans (.append ?_ ih)
    exact .of_eq (List.append_nil _)

theorem within_pushAll (line : Nat) {cs : List Code} (h : Code.AllWithin arity size cs) :
    ∀ w ∈ pushAll line cs, w.Within arity size := by
  induction cs with
  | nil => exact nofun
  | cons c cs ih =>
    refine List.forall_mem_append.2 ⟨ih h.2, ?_⟩
    exact List.forall_mem_cons.2 ⟨h.1, List.forall_mem_singleton.2 trivial⟩

theorem balanced_map_run (n : Nat) (cs : List Code) (works : List Work) :
    Balanced n (cs.map run ++ works) ↔ Balanced n works := by
  induction cs with
  | nil => exact Iff.rfl
  | cons c cs ih => exact ih

theorem balanced_pushAll (n line : Nat) (cs : List Code) (works : List Work) :
    Balanced n (pushAll line cs ++ works) ↔ Balanced (n + cs.length) works := by
  induction cs generalizing works with
  | nil => exact Iff.rfl
  | cons c cs ih =>
    rw [pushAll, List.append_assoc, ih]
    exact Iff.rfl

end Work

/-- The machine is in a frame: what is left to do keeps to the frame and finds the slots that it stores in unset. -/
structure Steady (a : Activation) (size : Nat) (σ : Slots) (vs : List Value) (c : Config) : Prop where
  frame : OnTop a size σ vs c.machine
  every : c.Every Routine.Fits
  within : ∀ w ∈ c.works, w.Within a.args.length size
  balanced : Work.Balanced vs.length c.works
  nodup : (Work.storedAll c.works).Nodup
  unset : ∀ slot ∈ Work.storedAll c.works, σ slot.toNat = none

/-- The machine is still in the frame, and no slot is stored in that would not have been stored in before. -/
def Continues (a : Activation) (size : Nat) (c c' : Config) : Prop :=
  ∃ σ vs, Steady a size σ vs c' ∧ c'.machine.base = c.machine.base ∧
    (Work.storedAll c'.works).Subperm (Work.storedAll c.works)

variable {w : Work} {works rest : List Work}

theorem Steady.next (h : Steady a size σ vs ⟨w :: rest, m⟩) (hperform : w.perform m = .ok works m') {vs' : List Value}
    (hframe : OnTop a size σ' vs' m') (hbase : m'.base = m.base) (hwithin : ∀ w ∈ works, w.Within a.args.length size)
    (hbalanced : Work.Balanced vs'.length (works ++ rest)) (hstored : (Work.storedAll works).Subperm w.stored)
    (hunset : ∀ slot ∈ Work.storedAll (works ++ rest), σ' slot.toNat = none) :
    Continues a size ⟨w :: rest, m⟩ ⟨works ++ rest, m'⟩ := by
  have hrest := List.forall_mem_cons.1 h.within
  have hsub : (Work.storedAll (works ++ rest)).Subperm (Work.storedAll (w :: rest)) := by
    rw [Work.storedAll_append]
    exact (List.subperm_append_right _).2 hstored
  have hnodup : (Work.storedAll (works ++ rest)).Nodup := by
    obtain ⟨slots, hperm, hslots⟩ := hsub
    exact hperm.nodup_iff.1 (h.nodup.sublist hslots)
  refine ⟨σ', vs', ⟨hframe, (Config.Next.perform hperform).every h.every, ?_, hbalanced, hnodup, hunset⟩, hbase, hsub⟩
  exact List.forall_mem_append.2 ⟨hwithin, hrest.2⟩

/-- Work that leaves the frame and what has been pushed as it is. -/
theorem Steady.same (h : Steady a size σ vs ⟨w :: rest, m⟩) (hperform : w.perform m = .ok works m')
    (hframe : OnTop a size σ vs m') (hbase : m'.base = m.base) (hwithin : ∀ w ∈ works, w.Within a.args.length size)
    (hbalanced : Work.Balanced vs.length (works ++ rest)) (hstored : (Work.storedAll works).Subperm w.stored) :
    Continues a size ⟨w :: rest, m⟩ ⟨works ++ rest, m'⟩ := by
  refine h.next hperform hframe hbase hwithin hbalanced hstored fun slot hslot => h.unset slot ?_
  rw [Work.storedAll_append] at hslot
  exact (List.mem_append.1 hslot).elim (fun hslot => List.mem_append_left _ (hstored.subset hslot))
    (List.mem_append_right _)

/-- Work that does nothing but compute a value. -/
theorem Steady.quiet (h : Steady a size σ vs ⟨w :: rest, m⟩) {f : Step Unit} (hw : w.perform = Work.following f [])
    (hf : wp f (fun _ m' => ∃ v, m' = { m with accumulator := v }) (fun _ _ => True) m)
    (hperform : w.perform m = .ok works m') (hbalanced : Work.Balanced vs.length rest) :
    Continues a size ⟨w :: rest, m⟩ ⟨works ++ rest, m'⟩ := by
  obtain ⟨hok, rfl⟩ := Work.following_eq_ok.1 ((congrFun hw m).symm.trans hperform)
  obtain ⟨v, rfl⟩ := wp_ok hf hok
  exact h.same hperform (h.frame.setAccumulator v) rfl nofun hbalanced List.nil_subperm

theorem Steady.step (h : Steady a size σ vs ⟨w :: rest, m⟩) (hcall : w.isCall = false)
    (hperform : w.perform m = .ok works m') : Continues a size ⟨w :: rest, m⟩ ⟨works ++ rest, m'⟩ := by
  obtain ⟨hw, -⟩ := List.forall_mem_cons.1 h.within
  cases w with
  | run c =>
    cases c with
    | const v => exact h.quiet rfl ⟨v, rfl⟩ hperform h.balanced
    | load offset =>
      refine h.quiet rfl ?_ hperform h.balanced
      rw [wp_bind]
      refine wp_mono (load_regular h.every.machine offset) ?_ fun _ _ _ => trivial
      rintro v _ ⟨rfl, -⟩
      exact ⟨v, rfl⟩
    | global index =>
      refine h.quiet rfl ?_ hperform h.balanced
      rw [wp_bind, wp_loadGlobal]
      split
      · exact ⟨_, rfl⟩
      · trivial
    | closure routine =>
      refine h.quiet rfl ?_ hperform h.balanced
      rw [wp_bind]
      refine wp_mono (loadAll_regular h.every.machine _) ?_ fun _ _ _ => trivial
      rintro captured _ ⟨rfl, -⟩
      exact ⟨_, rfl⟩
    | store slot value =>
      have hok : EStateM.Result.ok [.run value, .store slot] m = .ok works m' := hperform
      cases hok
      refine h.same hperform h.frame rfl ?_ h.balanced (.refl _)
      exact List.forall_mem_cons.2 ⟨hw.2.2, List.forall_mem_singleton.2 ⟨hw.1, hw.2.1⟩⟩
    | block stores result =>
      have hok : EStateM.Result.ok (stores.map .run ++ [.run result]) m = .ok works m' := hperform
      cases hok
      refine h.same hperform h.frame rfl ?_ ?_ (List.Perm.subperm (.of_eq ?_))
      · refine List.forall_mem_append.2 ⟨?_, List.forall_mem_singleton.2 hw.2⟩
        exact List.forall_mem_map.2 (Code.allWithin_iff.1 hw.1)
      · rw [List.append_assoc, Work.balanced_map_run]
        exact h.balanced
      · rw [Work.storedAll_append, Work.storedAll_map_run, Work.storedAll_run]
        rfl
    | cond test onTrue onFalse line =>
      have hok : EStateM.Result.ok [.run test, .branch onTrue onFalse line] m = .ok works m' := hperform
      cases hok
      refine h.same hperform h.frame rfl ?_ h.balanced (List.Perm.subperm (.of_eq ?_))
      · exact List.forall_mem_cons.2 ⟨hw.1, List.forall_mem_singleton.2 hw.2⟩
      · exact congrArg (test.stored ++ ·) (List.append_nil _)
    | call callee args line =>
      have hok : EStateM.Result.ok [.run callee, .apply args line] m = .ok works m' := hperform
      cases hok
      refine h.same hperform h.frame rfl ?_ h.balanced (List.Perm.subperm (.of_eq ?_))
      · exact List.forall_mem_cons.2 ⟨hw.1, List.forall_mem_singleton.2 hw.2⟩
      · exact congrArg (callee.stored ++ ·) (List.append_nil _)
  | store slot =>
    obtain ⟨hstore, rfl⟩ := Work.following_eq_ok.1 hperform
    have hstore : Machine.store slot m.accumulator m = .ok () m' := hstore
    obtain ⟨hframe, hbase⟩ := wp_ok (h.frame.store hw.1 hw.2 h.every.machine.accumulator) hstore
    refine h.next hperform hframe hbase (List.forall_mem_nil _) h.balanced List.nil_subperm fun slot' hslot' => ?_
    -- The slot is not among those that are left, so these are still unset.
    have hne : slot ≠ slot' := fun heq => (List.nodup_cons.1 h.nodup).1 (heq ▸ hslot')
    obtain ⟨w', hw', hslot⟩ := List.mem_flatMap.1 hslot'
    have hlow := ((h.within w' (List.mem_cons_of_mem _ hw')).stored slot' hslot).1
    have hlow' := hw.1
    exact (Slots.set_of_ne (by omega) _).trans (h.unset slot' (List.mem_cons_of_mem _ hslot'))
  | branch onTrue onFalse line =>
    have hok := (Work.perform_branch onTrue onFalse line m).symm.trans hperform
    split at hok
    · cases hok
      refine h.same hperform h.frame rfl (List.forall_mem_singleton.2 hw.1) h.balanced (List.Sublist.subperm ?_)
      rw [Work.storedAll_run]
      exact List.sublist_append_left ..
    · cases hok
      refine h.same hperform h.frame rfl (List.forall_mem_singleton.2 hw.2) h.balanced (List.Sublist.subperm ?_)
      rw [Work.storedAll_run]
      exact List.sublist_append_right ..
    · cases hok
  | apply args line =>
    have hok := (Work.perform_apply args line m).symm.trans hperform
    split at hok
    · cases hok
    · cases hok
      refine h.same hperform h.frame rfl ?_ ?_ (List.Perm.subperm ?_)
      · exact List.forall_mem_append.2 ⟨Work.within_pushAll line hw, List.forall_mem_singleton.2 trivial⟩
      · rw [List.append_assoc, Work.balanced_pushAll]
        refine ⟨Nat.le_add_left _ _, ?_⟩
        rw [Nat.add_sub_cancel]
        exact h.balanced
      · rw [Work.storedAll_append]
        exact .trans (.of_eq (List.append_nil _)) (Work.storedAll_pushAll line args)
  | push line =>
    obtain ⟨hpush, rfl⟩ := Work.following_eq_ok.1 hperform
    have hwp : wp (do (Machine.push (.value (← get).accumulator)).adaptExcept (·.atLine line))
        (fun _ m' => m' = { m with stack := m.stack.push (.value m.accumulator) }) (fun _ _ => True) m := by
      rw [wp_bind, wp_get, wp_adaptExcept, wp_push]
      split
      · rfl
      · trivial
    obtain rfl := wp_ok hwp hpush
    exact h.next hperform (h.frame.push m.accumulator) rfl (List.forall_mem_nil _) h.balanced List.nil_subperm h.unset
  | call => cases hcall
  | enter | leave =>
    -- Only a call leaves such work to do, and a call is not taken apart here.
    exact hw.elim

/-- As long as the machine stays in its frame, the slots that are left to store in are unset. -/
theorem Steady.stays {c c' : Config} (h : Steady a size σ vs c) (hstays : Config.Stays c c') :
    Continues a size c c' := by
  induction hstays with
  | refl => exact ⟨σ, vs, h, rfl, .refl _⟩
  | step _ hw hperform ih =>
    obtain ⟨σ₁, vs₁, h₁, hbase₁, hsub₁⟩ := ih
    obtain ⟨σ₂, vs₂, h₂, hbase₂, hsub₂⟩ := h₁.step hw hperform
    exact ⟨σ₂, vs₂, h₂, hbase₂.trans hbase₁, hsub₂.trans hsub₁⟩
  | @call callee argc line rest m₁ m₂ _ hcall ih =>
    obtain ⟨σ₁, vs₁, h₁, hbase₁, hsub₁⟩ := ih
    -- A call that is over has taken its arguments off the stack and left the frame as it was.
    obtain ⟨hargc, hbalanced⟩ := h₁.balanced
    have hcallee := h₁.every.works _ (List.mem_cons_self ..)
    obtain ⟨hframe, hbase₂⟩ := h₁.frame.call h₁.every.machine hcallee hargc hcall
    have hevery := (hcall.append rest).every h₁.every
    obtain ⟨-, hwithin⟩ := List.forall_mem_cons.1 h₁.within
    refine ⟨σ₁, vs₁.drop argc, ⟨hframe, hevery, hwithin, ?_, h₁.nodup, h₁.unset⟩, hbase₂.trans hbase₁, hsub₁⟩
    rwa [List.length_drop]

/-! ## What a node does -/

/-- From `m` to `m'` code has run in a frame of the routine. Of the cells that were on the stack, none but those of the
given slots may have changed, and these were not set. What lies below the base has not changed: arguments, saved bases
and all other frames. Nor has a slot that was captured. -/
structure Fills (routine : Routine) (slots : List Int) (m m' : Machine) : Prop where
  height : m'.stack.size = m.stack.size
  base : m'.base = m.base
  unset : ∀ slot ∈ slots, 0 ≤ slot ∧ slot < routine.frameSize ∧ m.stack[m.base + slot.toNat]? = some .unset
  cells : ∀ i < m.stack.size, (∀ slot ∈ slots, i ≠ m.base + slot.toNat) → m'.stack[i]? = m.stack[i]?
  below : ∀ i < m.base, m'.stack[i]? = m.stack[i]?
  captured : ∀ load ∈ routine.captures, m'.stack[m.base + load.slot.toNat]? = m.stack[m.base + load.slot.toNat]?

theorem Steady.fills {routine : Routine} (hfits : routine.Fits) {c : Code}
    (h : Steady a routine.frameSize.toNat σ vs ⟨.run c :: rest, m⟩)
    (hlocals : ∀ slot ∈ c.stored, ∀ load ∈ routine.captures, load.slot ≠ slot) (hexec : exec c m = .ok () m') :
    Fills routine c.stored m m' := by
  have hholds : Holds m a routine.frameSize.toNat σ := h.frame.holds
  have hwithin : c.Within a.args.length routine.frameSize.toNat := h.within _ (List.mem_cons_self ..)
  have hstored := Code.Within.stored c hwithin
  have hsized := hfits.sized
  have hroom := hholds.room
  -- The machine follows what the node computes in an activation, where the slots it sets can be read off its text.
  let n := m.limits.maxCallDepth - m.depth
  let a' : Activation := { a with deeper := Activation.levels a.limit a.globals n }
  have hfollows := execWith_follows (a := a') (levels_matches a' n) c hwithin (h.every.works _ (List.mem_cons_self ..))
    (hholds.withDeeper _)
  rw [← execWithin_eq] at hfollows
  obtain ⟨⟨v, σ'⟩, heval, hresult⟩ := wp_ok hfollows hexec
  have hkept : Kept routine.frameSize.toNat 0 m m' := hresult.kept
  have hcells : ∀ i < m.stack.size, (∀ slot ∈ c.stored, i ≠ m.base + slot.toNat) → m'.stack[i]? = m.stack[i]? := by
    intro i hi hne
    by_cases hin : m.base ≤ i ∧ i < m.base + routine.frameSize.toNat
    · obtain ⟨k, rfl⟩ := Nat.exists_eq_add_of_le hin.1
      have hk : k < routine.frameSize.toNat := by omega
      have hsame : σ' k = σ k := Activation.eval_slots a' c heval fun slot hslot heq => hne slot hslot (by omega)
      have hcell : m'.stack[m.base + k]? = some (.ofSlot (σ' k)) := hkept.base ▸ hresult.holds.slots hk
      rw [hcell, hholds.slots hk, hsame]
    · exact hkept.cells hi (by omega)
  refine ⟨hkept.height, hkept.base, fun slot hslot => ?_, hcells, fun i hi => ?_, fun load hload => ?_⟩
  · obtain ⟨hlow, hhigh⟩ := hstored slot hslot
    refine ⟨hlow, by omega, ?_⟩
    rw [hholds.slots (by omega), h.unset slot (List.mem_append_left _ hslot)]
    rfl
  · exact hcells i (by omega) fun _ _ => by omega
  · obtain ⟨hlow, hhigh⟩ := hfits.captures load hload
    refine hcells _ (by omega) fun slot hslot => ?_
    have hne := hlocals slot hslot load hload
    have := (hstored slot hslot).1
    omega

/-- No slot of the frame is stored in again: a store that comes later is one in another slot. -/
def Config.StoresOnce (start : Config) : Prop :=
  ∀ {slot slot' : Int} {works works' : List Work} {m m₁ m₂ : Machine},
    Stays start ⟨.store slot :: works, m⟩ → (Work.store slot).perform m = .ok [] m₁ →
    Stays ⟨works, m₁⟩ ⟨.store slot' :: works', m₂⟩ → slot ≠ slot'

theorem Steady.storesOnce {start : Config} (h : Steady a size σ vs start) : start.StoresOnce := by
  intro slot slot' works works' m m₁ m₂ hstays hstore hlater
  obtain ⟨σ₁, vs₁, h₁, -, -⟩ := h.stays hstays
  obtain ⟨σ₂, vs₂, h₂, -, -⟩ := h₁.step rfl hstore
  obtain ⟨-, -, -, -, hsub⟩ := h₂.stays hlater
  -- The slot of the later store was among those that were left after the first one.
  have hmem : slot' ∈ Work.storedAll works := hsub.subset (List.mem_cons_self ..)
  exact fun heq => (List.nodup_cons.1 h₁.nodup).1 (heq ▸ hmem)

/-! ## Where frames come from -/

/-- The body of a routine starts in a frame in which nothing is set but what the routine captures. -/
theorem steady_body {routine : Routine} (hfits : routine.Every Routine.Fits) (honce : routine.AssignsOnce)
    (hm : m.Every Routine.Fits) (harity : a.args.length = routine.arity)
    (hframe : OnTop a routine.frameSize.toNat σ [] m)
    (hunset : ∀ n, (∀ load ∈ routine.captures, load.slot.toNat ≠ n) → σ n = none) :
    Steady a routine.frameSize.toNat σ [] ⟨[.run routine.body], m⟩ := by
  obtain ⟨hroutine, hbody⟩ := Routine.every_iff.1 hfits
  have hwithin := hroutine.body
  rw [← harity] at hwithin
  obtain ⟨hnodup, -, hdisjoint⟩ := List.nodup_append.1 honce
  refine ⟨hframe, ⟨List.forall_mem_singleton.2 hbody, hm⟩, List.forall_mem_singleton.2 hwithin, trivial, ?_, ?_⟩
  · rwa [Work.storedAll_run]
  · rw [Work.storedAll_run]
    intro slot hslot
    refine hunset _ fun load hload => ?_
    have hne : slot ≠ load.slot := hdisjoint slot hslot load.slot (List.mem_map_of_mem hload)
    have := (Code.Within.stored routine.body hwithin slot hslot).1
    have := (hroutine.captures load hload).1
    omega

theorem OnTop.enter (h : OnTop a size σ vs m) (hm : m.Every Routine.Fits) {routine : Routine} {captured : List Value}
    (hv : (Value.closure routine captured).Every Routine.Fits) {argc line : Nat}
    (hstart : startCall (.closure routine captured) argc line m = .ok () m') {m₁ : Machine}
    (hbegin : beginCallee (.closure routine captured) m' = .ok () m₁) :
    argc = routine.arity ∧ ∃ σ', OnTop { a with args := vs.take argc } routine.frameSize.toNat σ' [] m₁ ∧
      ∀ n, (∀ load ∈ routine.captures, load.slot.toNat ≠ n) → σ' n = none := by
  obtain ⟨hfits, -⟩ := Routine.every_iff.1 hv.1
  have hsized := hfits.sized
  have hcaptures : ∀ load ∈ routine.captures, 0 ≤ load.slot ∧ load.slot < (routine.frameSize.toNat : Int) := by
    rw [Int.toNat_of_nonneg hsized]
    exact hfits.captures
  have hargs := h.stacked.take argc
  have hevery : Activation.Every Routine.Fits { a with args := vs.take argc } Slots.empty :=
    ⟨hargs.every hm, by rintro _ _ ⟨⟩, h.holds.every.globals⟩
  have hwp : wp (startCall (.closure routine captured) argc line)
      (fun _ m' => argc = routine.arity ∧ m' = m.started routine.label argc) (fun _ _ => True) m := by
    rw [wp_startCall]
    split
    · trivial
    next harity =>
    repeat' split
    · trivial
    · exact ⟨not_not.1 harity, rfl⟩
    · trivial
  obtain ⟨harity, rfl⟩ := wp_ok hwp hstart
  refine ⟨harity, ?_⟩
  -- The frame is made on top of the saved base, and captures are filled into slots that were just reserved.
  have hreserved := (hargs.started h.holds.limit h.holds.globals hevery routine.label argc).reserved
    (by simp [started]) routine.frameSize.toNat
  have hfill := fillCaptures_follows hv routine.captures hcaptures (Value.everyAll_iff.1 hv.2) hreserved
  have hwp' : wp (beginCallee (.closure routine captured)) (fun _ m₁ => ∃ σ',
      OnTop { a with args := vs.take argc } routine.frameSize.toNat σ' [] m₁ ∧
        ∀ n, (∀ load ∈ routine.captures, load.slot.toNat ≠ n) → σ' n = none) (fun _ _ => True)
      (m.started routine.label argc) := by
    rw [beginCallee, wp_bind, wp_grow_of_nonneg hsized, wp_reserve]
    split
    · refine wp_mono hfill ?_ fun _ _ _ => trivial
      rintro _ m₂ ⟨σ', hσ', hholds, hkept⟩
      refine ⟨σ', ⟨hholds, ?_, Nat.zero_le _, ?_⟩, ?_⟩
      · rw [hkept.height, hkept.base]
        simp [started]
      · intro i v hi
        cases List.getElem?_nil.symm.trans hi
      · cases hfilled : Slots.empty.fill (.closure routine captured) routine.captures captured with
        | error problem =>
          rw [hfilled] at hσ'
          cases hσ'
        | ok σ₁ =>
          rw [hfilled] at hσ'
          cases hσ'
          exact fun n hn => Slots.fill_of_ne hfilled hn
    · trivial
  exact wp_ok hwp' hbegin

end Machine

open Machine

/-- The body of a program that ends well does so too. -/
theorem Machine.exec_ok_of_run {p : Program} {m m' m₀ : Machine} {v : Value} (hrun : run p m = .ok v m')
    (hframe : grow p.main.frameSize (m.cleared p.globals) = .ok () m₀) : ∃ m₁, exec p.main.body m₀ = .ok () m₁ := by
  cases hexec : exec p.main.body m₀ with
  | ok _ m₁ => exact ⟨m₁, rfl⟩
  | error e m₁ =>
    have hwp : wp (run p) (fun _ _ => False) (fun _ _ => True) m := by
      rw [wp_run]
      exact wp_of_ok hframe (wp_of_error hexec trivial)
    exact (wp_ok hwp hrun).elim

namespace Program

variable {p : Program} {m m₀ : Machine} {routine : Routine} {outer : List Work}

theorem Enters.steady (hfits : p.Every Routine.Fits) (honce : p.Every Routine.AssignsOnce) (harity : p.main.arity = 0)
    {m₁ : Machine} (h : p.Enters m routine m₁ outer) :
    ∃ a σ, Steady a routine.frameSize.toNat σ [] ⟨[.run routine.body], m₁⟩ := by
  induction h with
  | @main m₀ hframe =>
    have hentered := (Enters.main hframe).every hfits
    have hsized := (Routine.every_iff.1 hentered.1).1.sized
    refine ⟨p.start m.limits.maxCallDepth, .empty, ?_⟩
    have hwp : wp (grow p.main.frameSize) (fun _ m₀ =>
        OnTop (p.start m.limits.maxCallDepth) p.main.frameSize.toNat .empty [] m₀) (fun _ _ => True)
        (m.cleared p.globals) := by
      rw [wp_grow_of_nonneg hsized, wp_reserve]
      split
      · exact ⟨Holds.start hfits m _, by simp [cleared, reset], Nat.zero_le _, nofun⟩
      · trivial
    have htop := wp_ok hwp hframe
    exact steady_body hentered.1 (Routine.every_iff.1 honce.main).1 hentered.2 harity.symm htop fun _ _ => rfl
  | @closure caller routine captured argc line outer rest m₀ m₁ m₂ m₃ hcaller hstays hstart hbegin ih =>
    have henters := hcaller.closure hstays hstart hbegin
    obtain ⟨a, σ, hstarted⟩ := ih
    obtain ⟨σ₁, vs, hcall, -, -⟩ := hstarted.stays hstays
    have hcallee := hcall.every.works _ (List.mem_cons_self ..)
    obtain ⟨hargs, σ₂, hframe, hunset⟩ :=
      hcall.frame.enter hcall.every.machine hcallee hstart hbegin
    have hentered := henters.every hfits
    have hassigns := (Routine.every_iff.1 (henters.every honce).1).1
    refine ⟨_, σ₂, steady_body hentered.1 hassigns hentered.2 ?_ hframe hunset⟩
    rw [← hargs]
    exact List.length_take_of_le hcall.balanced.1

/-- A node that a run comes to is run in a frame that the run has entered. -/
theorem Enters.exists_of_run (hframe : grow p.main.frameSize (m.cleared p.globals) = .ok () m₀) {c : Code}
    {works : List Work} {m₁ : Machine} (h : Config.Reaches ⟨[.run p.main.body], m₀⟩ ⟨.run c :: works, m₁⟩) :
    ∃ routine start outer rest, p.Enters m routine start outer ∧ works = rest ++ outer ∧
      Config.Stays ⟨[.run routine.body], start⟩ ⟨.run c :: rest, m₁⟩ := by
  obtain ⟨routine, start, outer, rest, henters, hworks, hat⟩ := exists_of_reaches hframe h
  cases rest with
  | nil =>
    -- The work that is left after a body does not begin with a node.
    cases henters <;> cases hworks
  | cons w rest =>
    obtain ⟨rfl, rfl⟩ := List.cons.inj hworks
    cases hat with
    | inside hstays => exact ⟨routine, start, outer, rest, henters, rfl, hstays⟩

end Program

/-- While a run that ends well comes to a node, the node runs in one of the frames that the run has entered, and it runs
to its end. It changes nothing on the stack but slots of that frame that it stores in itself, outside of its lambdas.
They are slots of locals, were not set before, and as long as the frame is there nothing is stored in them again. -/
theorem Resolver.program_keeps_frames {globals : Prelude} {e e' : Expr} {r : Resolver} {p : Program}
    (hplain : globals.Plain) (hresolved : (Resolver.new globals.names).program e = .done e' r)
    (hprogram : e'.toProgram r.scopes globals = .ok p) {m m' m₀ m₁ : Machine} {v : Value} (hrun : run p m = .ok v m')
    (hframe : grow p.main.frameSize (m.cleared p.globals) = .ok () m₀) {c : Code} {works : List Work}
    (hnode : Config.Reaches ⟨[.run p.main.body], m₀⟩ ⟨.run c :: works, m₁⟩) :
    ∃ routine start outer rest m₂, p.Enters m routine start outer ∧ works = rest ++ outer ∧
      Config.Stays ⟨[.run routine.body], start⟩ ⟨.run c :: rest, m₁⟩ ∧ m₁.base = start.base ∧
      exec c m₁ = .ok () m₂ ∧ Config.Reaches ⟨.run c :: works, m₁⟩ ⟨works, m₂⟩ ∧ Fills routine c.stored m₁ m₂ ∧
      Config.StoresOnce ⟨[.run routine.body], start⟩ := by
  obtain ⟨s, body, -, -, harity, hmain, hprogram'⟩ := (program_sound hresolved).program globals
  obtain rfl : p = ⟨.ofScope s [] body, globals⟩ := Except.ok.inj (hprogram.symm.trans hprogram')
  have hfits : Program.Every Routine.Fits ⟨.ofScope s [] body, globals⟩ := ⟨hmain, hplain.every⟩
  have honce : Program.Every Routine.AssignsOnce ⟨.ofScope s [] body, globals⟩ :=
    ⟨program_assignsOnce hresolved hprogram, hplain.every⟩
  obtain ⟨routine, start, outer, rest, henters, hworks, hstays⟩ := Program.Enters.exists_of_run hframe hnode
  obtain ⟨a, σ, hstart⟩ := henters.steady hfits honce harity
  obtain ⟨σ₁, vs, hsteady, hbase, hsub⟩ := hstart.stays hstays
  have hroutine := (Routine.every_iff.1 (henters.every hfits).1).1
  have hassigns := (Routine.every_iff.1 (henters.every honce).1).1
  have hlocals : ∀ slot ∈ c.stored, ∀ load ∈ routine.captures, load.slot ≠ slot := by
    intro slot hslot load hload heq
    have hbody := hsub.subset (List.mem_append_left _ hslot)
    rw [Work.storedAll_run] at hbody
    exact (List.nodup_append.1 hassigns).2.2 slot hbody load.slot (List.mem_map_of_mem hload) heq.symm
  obtain ⟨m₃, hmain⟩ := exec_ok_of_run hrun hframe
  obtain ⟨m₂, hexec⟩ := exec_ok_of_reaches ((wp_ok (exec_does _ m₀) hmain).to_done hnode)
  have hover : Config.Reaches ⟨[.run c], m₁⟩ ⟨[], m₂⟩ := wp_ok (exec_does c m₁) hexec
  exact ⟨routine, start, outer, rest, m₂, henters, hworks, hstays, hbase, hexec, hover.append works,
    hsteady.fills hroutine hlocals hexec, hstart.storesOnce⟩

/-- The configuration after so many steps. -/
def Machine.Config.after : Nat → Config → Option Config
  | 0, c => some c
  | _ + 1, ⟨[], _⟩ => none
  | n + 1, ⟨w :: rest, m⟩ =>
    match w.perform m with
    | .ok works m' => after n ⟨works ++ rest, m'⟩
    | .error _ _ => none

theorem Machine.Config.reaches_of_after {n : Nat} {c c' : Config} (h : after n c = some c') : Reaches c c' := by
  fun_induction after n c with
  | case1 =>
    cases h
    exact .refl
  | case2 => cases h
  | case3 n w rest m works m' hperform ih => exact .head (.perform hperform) (ih h)
  | case4 => cases h

/-- `{ flag = true; both = b -> and({ c = b; c }, flag); both(flag) }` -/
def bothFlags : Expr :=
  let x (name : String) : Expr := .name default name none
  let inner : Expr := .block default [.assign default "c" (x "b") none, x "c"]
  let both : Expr := .lambda default [x "b"] (.call default (x "and") [inner, x "flag"]) none none
  .block default
    [.assign default "flag" (x "true") none, .assign default "both" both none, .call default (x "both") [x "flag"]]

/-- What the node stores that a tree comes to after so many steps, the base of its frame and the height of the stack. -/
def Resolver.nodeAfter (limits : Limits) (steps : Nat) (e : Expr) : Option (List Int × Nat × Nat) :=
  match (Resolver.new Prelude.standard.names).program e with
  | .failed _ _ _ => none
  | .done e' r =>
    match e'.toProgram r.scopes .standard with
    | .error _ => none
    | .ok p =>
      match run p (.new limits), grow p.main.frameSize (cleared (.new limits) p.globals) with
      | .ok _ _, .ok _ m₀ =>
        match Config.after steps ⟨[.run p.main.body], m₀⟩ with
        | some ⟨.run c :: _, m₁⟩ => some (c.stored, m₁.base, m₁.stack.size)
        | _ => none
      | _, _ => none

/-- The inner block stores in slot 0 of the frame at 4. The value above the frame, which has been pushed for the call
around the block, is not the block's to change. -/
theorem Resolver.program_keeps_frames_bothFlags :
    ∃ e' r p v m' m₀ c works m₁ routine start outer rest m₂,
      (Resolver.new Prelude.standard.names).program bothFlags = .done e' r ∧
      e'.toProgram r.scopes .standard = .ok p ∧ run p (.new ⟨2, 20⟩) = .ok v m' ∧
      grow p.main.frameSize (cleared (.new ⟨2, 20⟩) p.globals) = .ok () m₀ ∧
      Config.Reaches ⟨[.run p.main.body], m₀⟩ ⟨.run c :: works, m₁⟩ ∧ c.stored = [0] ∧ m₁.base = 4 ∧ m₁.stack.size = 7 ∧
      p.Enters (.new ⟨2, 20⟩) routine start outer ∧ works = rest ++ outer ∧
      Config.Stays ⟨[.run routine.body], start⟩ ⟨.run c :: rest, m₁⟩ ∧ m₁.base = start.base ∧
      exec c m₁ = .ok () m₂ ∧ Config.Reaches ⟨.run c :: works, m₁⟩ ⟨works, m₂⟩ ∧ Fills routine c.stored m₁ m₂ ∧
      Config.StoresOnce ⟨[.run routine.body], start⟩ := by
  have hcomes : nodeAfter ⟨2, 20⟩ 19 bothFlags = some ([0], 4, 7) := by cbv
  unfold nodeAfter at hcomes
  split at hcomes
  · cases hcomes
  next e' r hresolved =>
  split at hcomes
  · cases hcomes
  next p hprogram =>
  split at hcomes
  · next v m' _ m₀ hrun hframe =>
    split at hcomes
    · next c works m₁ hafter =>
      obtain ⟨hstored, hbase, hsize⟩ : c.stored = [0] ∧ m₁.base = 4 ∧ m₁.stack.size = 7 := by simpa using hcomes
      have hreach := Config.reaches_of_after hafter
      obtain ⟨routine, start, outer, rest, m₂, hrest⟩ :=
        program_keeps_frames Prelude.plain_standard hresolved hprogram hrun hframe hreach
      exact ⟨e', r, p, v, m', m₀, c, works, m₁, routine, start, outer, rest, m₂, hresolved, hprogram, hrun, hframe,
        hreach, hstored, hbase, hsize, hrest⟩
    · cases hcomes
  · cases hcomes

end ClosureLang
