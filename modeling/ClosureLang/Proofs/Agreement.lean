import ClosureLang.Proofs.Compilation
import ClosureLang.Proofs.Evaluator

/-!
# Frames and environments

When a value of the machine stands for what an expression denotes, and when the frame of a function agrees with an
environment: every name that can be used finds in its cell a value that stands for what it is bound to. Each way in
which names come into scope keeps the agreement, since a cell that a name can still refer to is never used for
anything else.
-/

namespace ClosureLang

open ClosureLang.Frame

/-- The names that a new closure captures from the frame that makes it. -/
def capturedNames (captures : List Capture) : List String :=
  captures.filterMap fun c =>
    match c.source with
    | .parent _ => some c.name
    | .itself => none

/-- The value stands for the meaning. For a closure, the routine has the name of the closure, its arity and the code of
its body, and the captured values stand for what the captured names are bound to. -/
inductive Related (t : ScopeTable) (globals : List String) : Value → Meaning → Prop where
  | number (x : Float) : Related t globals (.number x) (.number x)
  | boolean (b : Bool) : Related t globals (.boolean b) (.boolean b)
  | builtin (b : Builtin) : Related t globals (.builtin b) (.builtin b)
  | closure {frames : List Frame} {id : Nat} {params : List String} {self : Option String} {s : Scope}
      {body body' : Expr} {code : Code} {captured : List Value} {env : Env}
      (valid : FramesValid t globals frames)
      (lambda : LambdaValid t globals frames id params self s)
      (tree : Elab t globals (.lambda id params self :: frames) none body body')
      (compiled : body'.compile t id = .ok code)
      (length : captured.length = (capturedNames s.captures).length)
      (bound : ∀ x ∈ capturedNames s.captures, ∃ d, env.lookup x = some d)
      (captures : ∀ {i : Nat} {x : String} {v : Value} {d : Meaning}, (capturedNames s.captures)[i]? = some x →
        captured[i]? = some v → env.lookup x = some d → Related t globals v d)
      (free : ∀ {x : String}, Bound x frames = false → env.lookup x = Env.standard.lookup x) :
      Related t globals (.closure (.ofScope s (s.captures.map t.load) code) captured)
        (.closure s.name params body self env)

/-- The name is bound to what the value stands for. -/
def Stands (t : ScopeTable) (globals : List String) (ρ : Env) (x : String) (v : Value) : Prop :=
  ∃ d, ρ.lookup x = some d ∧ Related t globals v d

/-- A frame agrees with an environment. -/
structure Agrees (t : ScopeTable) (globals : List String) (frames : List Frame) (ρ : Env) (args : List Value)
    (σ : Slots) : Prop where
  cells : ∀ {x : String} {v : Var}, Refers t globals x frames v → (∀ i, v ≠ .global i) →
    ∃ w, σ.read args (t.place v) = some w ∧ Stands t globals ρ x w
  free : ∀ {x : String}, Bound x frames = false → ρ.lookup x = Env.standard.lookup x

variable {t : ScopeTable} {globals : List String} {frames outer : List Frame} {x y : String} {v : Var} {n : Nat}
  {ρ : Env} {args : List Value} {σ σ' σ'' : Slots}

/-! ## Reading and storing -/

@[simp] theorem Slots.read_slot (args : List Value) (σ : Slots) (n : Nat) : σ.read args n = σ n := by
  rw [read, if_pos (by omega), Int.toNat_natCast]

@[simp] theorem Slots.read_arg (args : List Value) (σ : Slots) (i : Nat) :
    σ.read args (Var.argOffset i) = args[i]? := by
  rw [read, Var.argOffset, if_neg (by omega), if_pos (by omega)]
  congr
  omega

@[simp] theorem Slots.set_self (σ : Slots) (n : Nat) (w : Value) : σ.set n w n = some w := if_pos rfl

theorem Slots.set_ne (σ : Slots) {n k : Nat} (w : Value) (h : k ≠ n) : σ.set n w k = σ k := if_neg h

/-! ## Cells that are in use -/

/-- The slot belongs to an open block or to a capture. -/
def Reserved (t : ScopeTable) (frames : List Frame) (n : Nat) : Prop :=
  n ∈ blockSlots frames ∨ ∃ s, t[innermost frames]? = some s ∧ n ∈ s.captures.map (·.slot)

/-- The slots in use have not changed. -/
def Keeps (t : ScopeTable) (frames : List Frame) (σ σ' : Slots) : Prop := ∀ n, Reserved t frames n → σ' n = σ n

theorem Keeps.refl (t : ScopeTable) (frames : List Frame) (σ : Slots) : Keeps t frames σ σ := fun _ _ => rfl

theorem Keeps.trans (h : Keeps t frames σ σ') (h' : Keeps t frames σ' σ'') : Keeps t frames σ σ'' :=
  fun n hn => (h' n hn).trans (h n hn)

theorem reserved_block {owner : Nat} {locals : List BlockLocal} (h : BlockValid t outer owner locals) :
    Reserved t (.block owner locals :: outer) n ↔ n ∈ locals.map (·.slot) ∨ Reserved t outer n := by
  have hinner : innermost (.block owner locals :: outer) = innermost outer := h.owner_eq
  rw [Reserved, Reserved, hinner, blockSlots, List.mem_append, or_assoc]

/-- A block does not use slots that are in use already. -/
theorem BlockValid.not_reserved (hd : t.Dense) {owner : Nat} {locals : List BlockLocal}
    (h : BlockValid t outer owner locals) (hn : n ∈ locals.map (·.slot)) : ¬ Reserved t outer n := by
  rintro (hslot | ⟨s, hs, hslot⟩)
  · exact h.fresh n hn hslot
  · obtain ⟨s', hs', hsub⟩ := h.scope
    rw [h.owner_eq] at hs'
    cases hs.symm.trans hs'
    exact (hd hs).local_ne_capture (hsub hn) hslot

/-- What a name refers to is global, an argument, or a slot in use. -/
theorem Refers.reserved : ∀ {frames : List Frame}, FramesValid t globals frames → Refers t globals x frames v →
    (∃ i, v = .global i) ∨ (∃ i : Nat, v = .arg i) ∨ ∃ n : Nat, t.place v = n ∧ Reserved t frames n
  | [], _, h => .inl (h.imp fun _ h => h.2)
  | .lambda id params binding :: outer, _, h => by
    rw [Refers] at h
    cases hi : params.idxOf? x with
    | some i =>
      rw [hi] at h
      exact .inr (.inl ⟨i, h⟩)
    | none =>
      rw [hi] at h
      dsimp only at h
      split at h
      · obtain ⟨i, s, c, hs, hc, -, rfl⟩ := h
        refine .inr (.inr ⟨c.slot, by simp [ScopeTable.place, hs, hc], .inr ⟨s, hs, ?_⟩⟩)
        exact List.mem_map_of_mem (List.mem_of_getElem? hc)
      · exact .inl (h.imp fun _ h => h.2)
  | .block owner locals :: outer, hv, h => by
    rw [Refers] at h
    cases hl : locals.find? (·.name == x) with
    | some l =>
      rw [hl] at h
      obtain ⟨-, rfl⟩ := h
      refine .inr (.inr ⟨l.slot, rfl, (reserved_block hv.1).2 (.inl ?_)⟩)
      exact List.mem_map_of_mem (List.mem_of_find?_eq_some hl)
    | none =>
      rw [hl] at h
      refine (h.reserved hv.2).imp_right (Or.imp_right ?_)
      rintro ⟨n, hplace, hn⟩
      exact ⟨n, hplace, (reserved_block hv.1).2 (.inr hn)⟩

/-- Slots that are not in use may change. -/
theorem Agrees.keeps (h : Agrees t globals frames ρ args σ) (hv : FramesValid t globals frames)
    (hk : Keeps t frames σ σ') : Agrees t globals frames ρ args σ' where
  cells {x v} hx hglobal := by
    have hread : σ'.read args (t.place v) = σ.read args (t.place v) := by
      rcases hx.reserved hv with ⟨i, rfl⟩ | ⟨i, rfl⟩ | ⟨n, hplace, hn⟩
      · exact absurd rfl (hglobal i)
      · rw [ScopeTable.place, Slots.read_arg, Slots.read_arg]
      · rw [hplace, Slots.read_slot, Slots.read_slot, hk n hn]
    rw [hread]
    exact h.cells hx hglobal
  free := h.free

/-! ## Blocks -/

/-- In a block that has just been opened no local can be used. -/
theorem Agrees.block (h : Agrees t globals frames ρ args σ) (owner : Nat) {locals : List BlockLocal}
    (hpending : ∀ l ∈ locals, l.progress = .pending) :
    Agrees t globals (.block owner locals :: frames) ρ args σ where
  cells {x v} hx hglobal := by
    rw [Refers] at hx
    cases hl : locals.find? (·.name == x) with
    | some l =>
      rw [hl] at hx
      cases (hpending l (List.mem_of_find?_eq_some hl)).symm.trans hx.1
    | none =>
      rw [hl] at hx
      exact h.cells hx hglobal
  free hx := h.free (by simpa using (Bool.or_eq_false_iff.1 (bound_cons.symm.trans hx)).2)

theorem bound_mark (x y : String) (p : Progress) (frames : List Frame) :
    Bound y (mark x p frames) = Bound y frames := by
  rcases frames with _ | ⟨_ | ⟨owner, locals⟩, outer⟩
  · rfl
  · rfl
  · rw [mark, bound_cons, bound_cons, declares, declares, List.any_map]
    congr 2
    funext l
    by_cases h : l.name = x <;> simp [h]

/-- Marking a local changes only what its own name refers to. -/
theorem refers_mark_ne {p : Progress} (h : y ≠ x) :
    Refers t globals y (mark x p frames) v ↔ Refers t globals y frames v := by
  rcases frames with _ | ⟨_ | ⟨owner, locals⟩, outer⟩
  · exact Iff.rfl
  · exact Iff.rfl
  · rw [mark, Refers, Refers, find?_mark]
    cases hl : locals.find? (·.name == y) with
    | none => exact Iff.rfl
    | some l =>
      have hname : l.name = y := by simpa using List.find?_some hl
      simp [hname, h]

/-- The name that is being assigned cannot be used. -/
theorem Frame.Defining.not_refers (h : Defining x frames) : ¬ Refers t globals x frames v := by
  rcases frames with _ | ⟨_ | ⟨owner, locals⟩, outer⟩
  · exact h.elim
  · exact h.elim
  · obtain ⟨l, hl, hprogress⟩ := h
    intro hx
    rw [Refers, hl] at hx
    cases hprogress.symm.trans hx.1

theorem Frame.Defining.bound (h : Defining x frames) : Bound x frames = true := by
  rcases frames with _ | ⟨_ | ⟨owner, locals⟩, outer⟩
  · exact h.elim
  · exact h.elim
  · obtain ⟨l, hl, -⟩ := h
    rw [bound_cons, declares, List.any_eq_true.2 ⟨l, List.mem_of_find?_eq_some hl, List.find?_some hl⟩]
    rfl

theorem Agrees.defining (h : Agrees t globals frames ρ args σ) (hslot : slot? x frames = some n) :
    Agrees t globals (mark x .defining frames) ρ args σ where
  cells {y v} hy hglobal := by
    by_cases hyx : y = x
    · subst hyx
      exact absurd hy (defining_mark hslot).not_refers
    · exact h.cells ((refers_mark_ne hyx).1 hy) hglobal
  free {y} hy := h.free (bound_mark x y .defining frames ▸ hy)

theorem reserved_mark (x : String) (p : Progress) : Reserved t (mark x p frames) n ↔ Reserved t frames n := by
  have hslots : blockSlots (mark x p frames) = blockSlots frames := by
    rcases frames with _ | ⟨_ | ⟨owner, locals⟩, outer⟩
    · rfl
    · rfl
    · have hmap := congrArg (List.map Prod.snd) (map_mark x p locals)
      rw [mark, blockSlots, blockSlots]
      congr 1
      simpa [Function.comp_def] using hmap
  rw [Reserved, Reserved, hslots, innermost_mark]

/-- The slot of a local is not the cell of any other name. -/
theorem Refers.place_ne (hd : t.Dense) (hv : FramesValid t globals frames) (hslot : slot? x frames = some n)
    (h : Refers t globals y frames v) (hyx : y ≠ x) (hglobal : ∀ i, v ≠ .global i) : t.place v ≠ n := by
  rcases frames with _ | ⟨_ | ⟨owner, locals⟩, outer⟩
  · cases hslot
  · cases hslot
  · obtain ⟨l, hl, rfl⟩ := Option.map_eq_some_iff.1 hslot
    have hmem := List.mem_of_find?_eq_some hl
    have hname : l.name = x := by simpa using List.find?_some hl
    rw [Refers] at h
    cases hl' : locals.find? (·.name == y) with
    | some l' =>
      rw [hl'] at h
      obtain ⟨-, rfl⟩ := h
      -- Two locals of one block have different slots.
      intro hplace
      have hsame : l' = l :=
        List.inj_on_of_nodup_map hv.1.nodup (List.mem_of_find?_eq_some hl') hmem (Int.ofNat.inj hplace)
      have hname' : l'.name = y := by simpa using List.find?_some hl'
      exact hyx (by rw [← hname, ← hname', hsame])
    | none =>
      rw [hl'] at h
      rcases h.reserved hv.2 with ⟨i, rfl⟩ | ⟨i, rfl⟩ | ⟨k, hplace, hk⟩
      · exact absurd rfl (hglobal i)
      · rw [ScopeTable.place, Var.argOffset]
        omega
      · rw [hplace]
        rintro hkn
        obtain rfl : k = l.slot := Int.ofNat.inj hkn
        exact hv.1.not_reserved hd (List.mem_map_of_mem hmem) hk

theorem Refers.eq_slot (h : Refers t globals x frames v) (hslot : slot? x frames = some n) : v = .slot n := by
  rcases frames with _ | ⟨_ | ⟨owner, locals⟩, outer⟩
  · cases hslot
  · cases hslot
  · obtain ⟨l, hl, rfl⟩ := Option.map_eq_some_iff.1 hslot
    rw [Refers, hl] at h
    exact h.2

theorem Slots.read_set_ne (args : List Value) (σ : Slots) {offset : Int} (w : Value) (h : offset ≠ n) :
    (σ.set n w).read args offset = σ.read args offset := by
  rw [read, read]
  split
  · exact σ.set_ne w (by omega)
  · rfl

/-- After an assignment the name stands for what was assigned. -/
theorem Agrees.assign (hd : t.Dense) (hv : FramesValid t globals frames) (h : Agrees t globals frames ρ args σ)
    (hslot : slot? x frames = some n) {w : Value} {d : Meaning} (hw : Related t globals w d) :
    Agrees t globals (mark x .defined frames) ((x, d) :: ρ) args (σ.set n w) where
  cells {y v} hy hglobal := by
    by_cases hyx : y = x
    · subst hyx
      obtain rfl := hy.eq_slot ((slot?_mark y y .defined frames).trans hslot)
      exact ⟨w, by simp [ScopeTable.place], d, by simp, hw⟩
    · have hy' := (refers_mark_ne hyx).1 hy
      obtain ⟨u, hread, d', hlookup, hu⟩ := h.cells hy' hglobal
      refine ⟨u, ?_, d', ?_, hu⟩
      · rw [Slots.read_set_ne args σ w (hy'.place_ne hd hv hslot hyx hglobal), hread]
      · rw [List.lookup_cons, beq_eq_false_iff_ne.2 hyx]
        exact hlookup
  free {y} hy := by
    have hb : Bound y frames = false := bound_mark x y .defined frames ▸ hy
    have hyx : y ≠ x := by
      rintro rfl
      have hbound := (defining_mark hslot).bound
      rw [bound_mark, hb] at hbound
      cases hbound
    rw [List.lookup_cons, beq_eq_false_iff_ne.2 hyx]
    exact h.free hb

/-! ## Closures -/

section Captures

variable {names : List String} {binding : Option String} {c : Capture} {cs : List Capture}

theorem capturedNames_parent (h : c.source = .parent v) : capturedNames (c :: cs) = c.name :: capturedNames cs := by
  simp [capturedNames, h]

theorem capturedNames_itself (h : c.source = .itself) : capturedNames (c :: cs) = capturedNames cs := by
  simp [capturedNames, h]

theorem exists_of_mem_capturedNames (h : x ∈ capturedNames cs) : ∃ c ∈ cs, c.name = x ∧ ∃ v, c.source = .parent v := by
  obtain ⟨c, hc, hname⟩ := List.mem_filterMap.1 h
  cases hsource : c.source with
  | itself => rw [hsource] at hname; cases hname
  | parent v =>
    rw [hsource] at hname
    exact ⟨c, hc, Option.some.inj hname, v, hsource⟩

/-- The values are those of the captured names, in order. -/
structure Captured (t : ScopeTable) (globals : List String) (ρ : Env) (names : List String) (ws : List Value) :
    Prop where
  length : ws.length = names.length
  stands : ∀ {i : Nat} {x : String} {w : Value}, names[i]? = some x → ws[i]? = some w → Stands t globals ρ x w

/-- A new closure finds the values of all names that it captures. -/
theorem Agrees.captured {a : Activation} (h : Agrees t globals frames ρ a.args σ)
    (hcs : ∀ c ∈ cs, CaptureValid t globals names binding frames c) :
    ∃ ws, a.loadAll σ ((cs.map t.load).filterMap fun c =>
        match c.origin with
        | .frame offset => some offset
        | .itself => none) = .ok ws ∧ Captured t globals ρ (capturedNames cs) ws := by
  induction cs with
  | nil => exact ⟨[], rfl, rfl, fun hx => by cases hx⟩
  | cons c cs ih =>
    obtain ⟨ws, hws, hcaptured⟩ := ih fun c hc => hcs c (List.mem_cons_of_mem _ hc)
    cases hsource : c.source with
    | itself =>
      rw [capturedNames_itself hsource]
      exact ⟨ws, by simpa [ScopeTable.load, hsource] using hws, hcaptured⟩
    | parent v =>
      obtain ⟨hbound, hrefers⟩ := (hcs c List.mem_cons_self).parent v hsource
      have hglobal : ∀ i, v ≠ .global i := by
        rintro i rfl
        exact Refers.not_global hbound hrefers
      obtain ⟨w, hread, hw⟩ := h.cells hrefers hglobal
      rw [capturedNames_parent hsource]
      refine ⟨w :: ws, ?_, by simp [hcaptured.length], fun {i x u} hx hu => ?_⟩
      · have hload : a.load σ (t.place v) = .ok w := by rw [Activation.load, hread]
        simp only [List.map_cons, ScopeTable.load, hsource, List.filterMap_cons, Activation.loadAll, hload]
        exact congrArg (· >>= fun vs => pure (w :: vs)) hws
      · cases i with
        | zero =>
          cases hx
          cases hu
          exact hw
        | succ i => exact hcaptured.stands hx hu

/-- What fills the slots of captures stands for their names, and nothing else is stored. -/
theorem fill_stands {P : String → Value → Prop} {itself : Value} (t : ScopeTable)
    (hnodup : (cs.map (·.slot)).Nodup) (hself : ∀ c ∈ cs, c.source = .itself → P c.name itself) {ws : List Value}
    (hlength : ws.length = (capturedNames cs).length)
    (hws : ∀ {i : Nat} {x : String} {w : Value}, (capturedNames cs)[i]? = some x → ws[i]? = some w → P x w)
    (σ : Slots) :
    ∃ σ', σ.fill itself (cs.map t.load) ws = .ok σ' ∧ (∀ c ∈ cs, ∃ w, σ' c.slot = some w ∧ P c.name w) ∧
      ∀ n, n ∉ cs.map (·.slot) → σ' n = σ n := by
  induction cs generalizing ws σ with
  | nil => exact ⟨σ, rfl, by simp, fun _ _ => rfl⟩
  | cons c cs ih =>
    obtain ⟨hfresh, hnodup⟩ := List.nodup_cons.1 hnodup
    have hself' := fun c' hc' => hself c' (List.mem_cons_of_mem _ hc')
    -- Either way one value goes to the slot of `c`, and the rest leaves that slot alone.
    have step {w : Value} {ws' : List Value} (hw : P c.name w)
        (hfill : σ.fill itself ((c :: cs).map t.load) ws = (σ.set c.slot w).fill itself (cs.map t.load) ws')
        (hlength : ws'.length = (capturedNames cs).length)
        (hws : ∀ {i : Nat} {x : String} {w : Value}, (capturedNames cs)[i]? = some x → ws'[i]? = some w → P x w) :
        ∃ σ', σ.fill itself ((c :: cs).map t.load) ws = .ok σ' ∧
          (∀ c' ∈ c :: cs, ∃ w, σ' c'.slot = some w ∧ P c'.name w) ∧
          ∀ n, n ∉ (c :: cs).map (·.slot) → σ' n = σ n := by
      obtain ⟨σ', hσ', hcells, hrest⟩ := ih hnodup hself' hlength hws (σ.set c.slot w)
      refine ⟨σ', hfill.trans hσ', fun c' hc' => ?_, fun n hn => ?_⟩
      · rcases List.mem_cons.1 hc' with rfl | hc'
        · exact ⟨w, by rw [hrest _ hfresh, Slots.set_self], hw⟩
        · exact hcells c' hc'
      · rw [List.map_cons, List.mem_cons, not_or] at hn
        rw [hrest n hn.2, σ.set_ne w hn.1]
    cases hsource : c.source with
    | itself =>
      rw [capturedNames_itself hsource] at hlength hws
      refine step (hself c List.mem_cons_self hsource) ?_ hlength hws
      rw [List.map_cons, ScopeTable.load, hsource]
      rfl
    | parent v =>
      rw [capturedNames_parent hsource] at hlength hws
      obtain ⟨w, ws', rfl⟩ := List.exists_cons_of_length_eq_add_one hlength
      refine step (hws (i := 0) rfl rfl) ?_ (by simpa using hlength) fun {i x u} hx hu => hws (i := i + 1) hx hu
      rw [List.map_cons, ScopeTable.load, hsource]
      rfl

end Captures

section Lambda

variable {id : Nat} {params : List String} {self : Option String} {s : Scope} {body body' : Expr} {code : Code}
  {captured : List Value} {env : Env}

theorem Related.ofCaptured (hv : FramesValid t globals frames) (hl : LambdaValid t globals frames id params self s)
    (htree : Elab t globals (.lambda id params self :: frames) none body body') (hcode : body'.compile t id = .ok code)
    (hc : Captured t globals env (capturedNames s.captures) captured)
    (hfree : ∀ {x : String}, Bound x frames = false → env.lookup x = Env.standard.lookup x) :
    Related t globals (.closure (.ofScope s (s.captures.map t.load) code) captured)
      (.closure s.name params body self env) := by
  refine .closure hv hl htree hcode hc.length (fun x hx => ?_) (fun {i x w d} hx hw hd => ?_) hfree
  · obtain ⟨i, hi⟩ := List.mem_iff_getElem?.1 hx
    have hlt : i < captured.length := hc.length ▸ (List.getElem?_eq_some_iff.1 hi).1
    obtain ⟨d, hd, -⟩ := hc.stands hi (List.getElem?_eq_getElem hlt)
    exact ⟨d, hd⟩
  · obtain ⟨d', hd', hrelated⟩ := hc.stands hx hw
    cases hd.symm.trans hd'
    exact hrelated

/-- The bindings of parameters to arguments. -/
theorem lookup_zip {ds : List Meaning} {i : Nat} (h : params.idxOf? x = some i) (hlen : ds.length = params.length) :
    (params.zip ds).lookup x = ds[i]? := by
  induction params generalizing ds i with
  | nil => cases h
  | cons p params ih =>
    obtain ⟨d, ds, rfl⟩ := List.exists_cons_of_length_eq_add_one hlen
    rw [List.idxOf?_cons] at h
    rw [List.zip_cons_cons, List.lookup_cons]
    by_cases hp : p = x
    · subst hp
      obtain rfl : 0 = i := by simpa using h
      simp
    · rw [beq_eq_false_iff_ne.2 hp] at h
      obtain ⟨j, hj, rfl⟩ := Option.map_eq_some_iff.1 h
      rw [beq_eq_false_iff_ne.2 (Ne.symm hp)]
      exact ih hj (by simpa using hlen)

theorem lookup_zip_none {ds : List Meaning} (h : x ∉ params) : (params.zip ds).lookup x = none := by
  rw [List.lookup_eq_none_iff]
  rintro ⟨p, d⟩ hp
  refine bne_iff_ne.2 ?_
  rintro rfl
  exact h (List.of_mem_zip hp).1

namespace Meaning

variable {f : Meaning} {ds : List Meaning}

theorem lookup_scope_param {i : Nat} {d : Meaning} (h : params.idxOf? x = some i) (hlen : ds.length = params.length)
    (hd : ds[i]? = some d) : (f.scope params self env ds).lookup x = some d := by
  rw [scope, List.append_assoc, List.lookup_append, lookup_zip h hlen, hd]
  rfl

theorem lookup_scope_self (h : x ∉ params) : (f.scope params (some x) env ds).lookup x = some f := by
  rw [scope, List.append_assoc, List.lookup_append, lookup_zip_none h]
  simp

theorem lookup_scope_env (h : x ∉ params) (hself : self ≠ some x) :
    (f.scope params self env ds).lookup x = env.lookup x := by
  have hnone : (self.toList.map fun x => (x, f)).lookup x = none := by
    cases self with
    | none => rfl
    | some y =>
      have hxy : x ≠ y := fun h => hself (h ▸ rfl)
      simp [hxy]
  rw [scope, List.append_assoc, List.lookup_append, lookup_zip_none h, List.lookup_append, hnone]
  rfl

end Meaning

/-- A function starts in a frame that agrees with the bindings for its body. -/
theorem Agrees.enter (hd : t.Dense) (hl : LambdaValid t globals frames id params self s) {itself : Value}
    {f : Meaning} (hf : Related t globals itself f)
    (hc : Captured t globals env (capturedNames s.captures) captured)
    (hfree : ∀ {x : String}, Bound x frames = false → env.lookup x = Env.standard.lookup x)
    {ds : List Meaning} (hlen : ds.length = params.length) (hlen' : args.length = params.length)
    (hargs : ∀ {i : Nat} {w : Value} {d : Meaning}, args[i]? = some w → ds[i]? = some d → Related t globals w d) :
    ∃ σ, Slots.empty.fill itself (s.captures.map t.load) captured = .ok σ ∧
      Agrees t globals (.lambda id params self :: frames) (f.scope params self env ds) args σ := by
  have hnodup : (s.captures.map (·.slot)).Nodup :=
    (List.nodup_append.1 ((hd hl.scope).nodup_iff.2 List.nodup_range)).2.1
  have hitself : ∀ c ∈ s.captures, c.source = .itself →
      Stands t globals (f.scope params self env ds) c.name itself := by
    intro c hmem hsource
    have hvalid := hl.captures c hmem
    obtain rfl := hvalid.itself hsource
    exact ⟨f, Meaning.lookup_scope_self hvalid.notParam, hf⟩
  have hparent {i : Nat} {x : String} {w : Value} (hx : (capturedNames s.captures)[i]? = some x)
      (hw : captured[i]? = some w) : Stands t globals (f.scope params self env ds) x w := by
    obtain ⟨c, hmem, rfl, v, hsource⟩ := exists_of_mem_capturedNames (List.mem_of_getElem? hx)
    have hvalid := hl.captures c hmem
    -- A name that is captured from around the lambda has been assigned, so it is not the lambda's own.
    have hself : self ≠ some c.name := fun h => (hl.defining _ h).not_refers (hvalid.parent v hsource).2
    obtain ⟨d, hlookup, hrelated⟩ := hc.stands hx hw
    exact ⟨d, (Meaning.lookup_scope_env hvalid.notParam hself).trans hlookup, hrelated⟩
  obtain ⟨σ, hσ, hcells, -⟩ := fill_stands t hnodup hitself hc.length hparent Slots.empty
  refine ⟨σ, hσ, fun {x v} hx hglobal => ?_, fun {x} hx => ?_⟩
  · rw [Refers] at hx
    cases hi : params.idxOf? x with
    | some i =>
      rw [hi] at hx
      subst hx
      have hlt : i < params.length := (List.findIdx?_eq_some_iff_getElem.1 hi).1
      have hw := List.getElem?_eq_getElem (l := args) (i := i) (by omega)
      have hd' := List.getElem?_eq_getElem (l := ds) (i := i) (by omega)
      refine ⟨args[i], by rw [ScopeTable.place, Slots.read_arg, hw], ds[i], ?_, hargs hw hd'⟩
      exact Meaning.lookup_scope_param hi hlen hd'
    | none =>
      rw [hi] at hx
      dsimp only at hx
      split at hx
      · -- Several names may be captured, each in a slot of its own that has been filled by now.
        obtain ⟨i, s', c, hs', hmem, rfl, rfl⟩ := hx
        cases hl.scope.symm.trans hs'
        obtain ⟨w, hw, hstands⟩ := hcells c (List.mem_of_getElem? hmem)
        exact ⟨w, by simp [ScopeTable.place, hs', hmem, hw], hstands⟩
      · obtain ⟨i, -, rfl⟩ := hx
        exact absurd rfl (hglobal i)
  · obtain ⟨hparams, hb⟩ : x ∉ params ∧ Bound x frames = false := by simpa [declares] using hx
    have hself : self ≠ some x := by
      intro h
      have hbound := (hl.defining x h).bound
      rw [hb] at hbound
      cases hbound
    rw [Meaning.lookup_scope_env hparams hself]
    exact hfree hb

end Lambda

/-! ## The prelude -/

/-- The names of the prelude stand for what they are bound to at the start. -/
theorem standard_stands {i : Nat} (h : Prelude.standard.names.idxOf? x = some i) :
    ∃ w, Prelude.standard.value? i = some w ∧ Stands t globals Env.standard x w := by
  let ds : List Meaning := Builtin.all.map .builtin ++ [.boolean true, .boolean false]
  let ws : List Value := Builtin.all.map .builtin ++ [.boolean true, .boolean false]
  have hlookup : Env.standard.lookup x = ds[i]? := by
    have hzip : Env.standard = Prelude.standard.names.zip ds := rfl
    rw [hzip]
    exact lookup_zip h rfl
  have hvalue : Prelude.standard.value? i = ws[i]? := by
    have hws : Prelude.standard.entries.map (·.2) = ws := rfl
    rw [Prelude.value?, ← List.getElem?_map, hws]
  have hlt : i < 17 := (List.findIdx?_eq_some_iff_getElem.1 h).1
  simp only [hvalue, Stands, hlookup]
  by_cases hi : i < Builtin.all.length
  · refine ⟨.builtin Builtin.all[i], ?_, .builtin Builtin.all[i], ?_, .builtin _⟩ <;>
      rw [List.getElem?_append_left (by simpa using hi), List.getElem?_map, List.getElem?_eq_getElem hi] <;> rfl
  · have hall : Builtin.all.length = 15 := rfl
    obtain rfl | rfl : i = 15 ∨ i = 16 := by omega
    · exact ⟨_, rfl, _, rfl, .boolean true⟩
    · exact ⟨_, rfl, _, rfl, .boolean false⟩

end ClosureLang
