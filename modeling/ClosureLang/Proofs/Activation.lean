import ClosureLang.Proofs.Balance

/-!
# Code in the frame of one call

What code computes depends only on the arguments and the slots of the frame it runs in. `Activation.eval` says what it
computes there, without a stack. For code that keeps to its frame the machine does the same, unless it runs out of
stack: what lies outside the frame stays as it is.
-/

namespace ClosureLang

/-- The slots of a frame. A slot that nothing was stored in yet has no value. -/
abbrev Slots := Nat → Option Value

namespace Slots

def empty : Slots := fun _ => none

def set (σ : Slots) (n : Nat) (v : Value) : Slots := fun k => if k = n then some v else σ k

/-- The value at an offset from the base of a frame with these arguments. -/
def read (args : List Value) (σ : Slots) (offset : Int) : Option Value :=
  if 0 ≤ offset then σ offset.toNat
  else if offset ≤ -2 then args[(-offset - 2).toNat]?
  else none

/-- Stores captured values in their slots. -/
def fill (itself : Value) : List CaptureLoad → List Value → Slots → Except RuntimeProblem Slots
  | [], _, σ => .ok σ
  | ⟨slot, .itself⟩ :: loads, captured, σ => fill itself loads captured (σ.set slot.toNat itself)
  | ⟨slot, .frame _⟩ :: loads, v :: captured, σ => fill itself loads captured (σ.set slot.toNat v)
  | ⟨_, .frame _⟩ :: _, [], _ => .error .missingCapture

end Slots

/-- A builtin on all of its arguments. -/
def Builtin.apply (b : Builtin) : List Value → Except RuntimeProblem Value
  | [v] => b.apply₁ v
  | [v, w] => b.apply₂ v w
  | _ => .error .underflow

open Machine (Callee)

/-- Runs the body of a function, given its arguments and its slots. -/
abbrev Body := List Value → Code → Slots → Except RuntimeError (Value × Slots)

/-- What code can use besides the slots of its frame: the limit on nested calls, the prelude, what runs one level deeper
if anything does, and the arguments. -/
structure Activation where
  limit : Nat
  globals : Prelude
  deeper : Option Body
  args : List Value

namespace Activation

variable (a : Activation)

def load (σ : Slots) (offset : Int) : Except RuntimeError Value :=
  match σ.read a.args offset with
  | some v => .ok v
  | none => .error (.of (.readOfUnset offset) 0)

def loadAll (σ : Slots) : List Int → Except RuntimeError (List Value)
  | [] => .ok []
  | offset :: offsets => do
    let v ← a.load σ offset
    let vs ← loadAll σ offsets
    return v :: vs

/-- Runs a function in a frame of its own. -/
def enter (run : Body) : Callee → List Value → Except RuntimeError Value
  | .builtin b, vs => (b.apply vs).mapError (.of · 0)
  | .closure routine captured, vs => do
    let σ ← (Slots.empty.fill (.closure routine captured) routine.captures captured).mapError (.of · 0)
    return (← run vs routine.body σ).1

def call (callee : Callee) (vs : List Value) (line : Nat) : Except RuntimeError Value :=
  if vs.length ≠ callee.arity then .error (.of (.wrongArity callee.name callee.arity vs.length) line)
  else
    match a.deeper with
    | none => .error (.of (.callsTooDeep a.limit) line)
    | some run => (enter run callee vs).mapError fun e => (e.atLine line).leaving callee.name line

mutual

/-- The result of code, and the slots when it is over. -/
def eval : Code → Slots → Except RuntimeError (Value × Slots)
  | .const v, σ => .ok (v, σ)
  | .load offset, σ => do return (← a.load σ offset, σ)
  | .global index, σ =>
    match a.globals.value? index with
    | some v => .ok (v, σ)
    | none => .error (.of (.unknownGlobal index) 0)
  | .store slot value, σ => do
    let (v, σ) ← eval value σ
    return (v, σ.set slot.toNat v)
  | .block stores result, σ => do
    let σ ← evalAll stores σ
    eval result σ
  | .cond test onTrue onFalse line, σ => do
    let (v, σ) ← eval test σ
    match v with
    | .boolean true => eval onTrue σ
    | .boolean false => eval onFalse σ
    | found => .error (.of (.conditionNotBoolean found) line)
  | .closure routine, σ => do return (.closure routine (← a.loadAll σ routine.sources), σ)
  | .call callee args line, σ => do
    let (f, σ) ← eval callee σ
    match Callee.ofValue? f with
    | none => .error (.of (.notCallable f) line)
    | some callee =>
      let (vs, σ) ← evalArgs args σ
      return (← a.call callee vs line, σ)

/-- The slots after several pieces of code in order. -/
def evalAll : List Code → Slots → Except RuntimeError Slots
  | [], σ => .ok σ
  | c :: cs, σ => do
    let (_, σ) ← eval c σ
    evalAll cs σ

/-- The results of arguments, of which the last one is computed first. -/
def evalArgs : List Code → Slots → Except RuntimeError (List Value × Slots)
  | [], σ => .ok ([], σ)
  | c :: cs, σ => do
    let (vs, σ) ← evalArgs cs σ
    let (v, σ) ← eval c σ
    return (v :: vs, σ)

end

/-- What is there for calls that may nest `n` deep. -/
def levels (limit : Nat) (globals : Prelude) : (n : Nat) → Option Body
  | 0 => none
  | n + 1 => some fun args => eval ⟨limit, globals, levels limit globals n, args⟩

end Activation

/-- Every routine that code can reach from an activation satisfies `P`. -/
structure Activation.Every (P : Routine → Prop) (a : Activation) (σ : Slots) : Prop where
  args : ∀ v ∈ a.args, v.Every P
  slots : ∀ {n : Nat} {v : Value}, σ n = some v → v.Every P
  globals : ∀ {i : Nat} {v : Value}, a.globals.value? i = some v → v.Every P

section Every

variable {P : Routine → Prop} {a : Activation} {σ : Slots}

theorem Activation.Every.read (h : a.Every P σ) {offset : Int} {v : Value} (hv : σ.read a.args offset = some v) :
    v.Every P := by
  unfold Slots.read at hv
  split at hv
  · exact h.slots hv
  · split at hv
    · exact h.args v (List.mem_of_getElem? hv)
    · cases hv

theorem Activation.Every.set (h : a.Every P σ) (n : Nat) {v : Value} (hv : v.Every P) : a.Every P (σ.set n v) where
  args := h.args
  slots {k w} hw := by
    unfold Slots.set at hw
    split at hw
    · cases hw
      exact hv
    · exact h.slots hw
  globals := h.globals

theorem Activation.Every.start (h : a.Every P σ) {vs : List Value} (hvs : ∀ v ∈ vs, v.Every P) :
    Activation.Every P { a with args := vs } Slots.empty :=
  ⟨hvs, (fun hv => by cases hv), h.globals⟩

end Every

/-! ## Code that keeps to its frame -/

/-- An offset of an argument or of a slot. -/
def InFrame (arity size : Nat) (offset : Int) : Prop :=
  0 ≤ offset ∧ offset < size ∨ offset ≤ -2 ∧ -offset - 2 < arity

namespace Code

mutual

/-- The code loads only arguments and slots of its frame and stores only in its slots. -/
def Within (arity size : Nat) : Code → Prop
  | .const _ | .global _ => True
  | .load offset => InFrame arity size offset
  | .store slot value => 0 ≤ slot ∧ slot < size ∧ value.Within arity size
  | .block stores result => AllWithin arity size stores ∧ result.Within arity size
  | .cond test onTrue onFalse _ =>
    test.Within arity size ∧ onTrue.Within arity size ∧ onFalse.Within arity size
  | .closure routine => ∀ offset ∈ routine.sources, InFrame arity size offset
  | .call callee args _ => callee.Within arity size ∧ AllWithin arity size args

def AllWithin (arity size : Nat) : List Code → Prop
  | [] => True
  | c :: cs => c.Within arity size ∧ AllWithin arity size cs

end

theorem allWithin_iff {arity size : Nat} {cs : List Code} :
    AllWithin arity size cs ↔ ∀ c ∈ cs, c.Within arity size := by
  induction cs with
  | nil => simp [AllWithin]
  | cons c cs ih => simp [AllWithin, ih]

end Code

/-- The code of a routine keeps to the frame that is made for it. -/
structure Routine.Fits (r : Routine) : Prop where
  sized : 0 ≤ r.frameSize
  captures : ∀ c ∈ r.captures, 0 ≤ c.slot ∧ c.slot < r.frameSize
  body : r.body.Within r.arity r.frameSize.toNat

/-! ## A step of the machine and what it should come to -/

/-- An unset slot is an unset cell. -/
def Cell.ofSlot : Option Value → Cell
  | some v => .value v
  | none => .unset

namespace Machine

variable {α β γ δ : Type} {m m' m'' : Machine}

/-- The step ends as the outcome says, or there is no room on the stack. -/
def Follows (f : Step α) (m : Machine) (outcome : Except RuntimeError β) (Q : α → β → Machine → Prop) : Prop :=
  wp f (fun x m' => ∃ b, outcome = .ok b ∧ Q x b m') (fun e _ => e.problem = .stackFull ∨ outcome = .error e) m

namespace Follows

variable {f : Step α} {x : Except RuntimeError β} {Q : α → β → Machine → Prop}

theorem mono {Q' : α → β → Machine → Prop} (h : Follows f m x Q) (hQ : ∀ a b m', Q a b m' → Q' a b m') :
    Follows f m x Q' :=
  wp_mono h (fun _ _ ⟨b, hx, hb⟩ => ⟨b, hx, hQ _ _ _ hb⟩) fun _ _ => id

theorem bind {g : α → Step γ} {k : β → Except RuntimeError δ} {R : γ → δ → Machine → Prop} (h : Follows f m x Q)
    (hg : ∀ a b m', Q a b m' → Follows (g a) m' (k b) R) : Follows (f >>= g) m (x >>= k) R := by
  rw [Follows, wp_bind]
  refine wp_mono h (fun a m' ⟨b, hx, hb⟩ => ?_) fun e _ he => ?_
  · rw [hx]
    exact hg a b m' hb
  · rcases he with he | he
    · exact .inl he
    · rw [he]
      exact .inr rfl

/-- A step that can only run out of room has no part in the outcome. -/
theorem step {g : α → Step γ} {R : γ → β → Machine → Prop}
    (h : wp f (fun a m' => Follows (g a) m' x R) (fun e _ => e.problem = .stackFull) m) :
    Follows (f >>= g) m x R := by
  rw [Follows, wp_bind]
  exact wp_mono h (fun _ _ => id) fun _ _ => .inl

theorem of_ok {b : β} (h : wp f (fun a m' => Q a b m') (fun e _ => e.problem = .stackFull) m) :
    Follows f m (.ok b) Q :=
  wp_mono h (fun _ _ hb => ⟨b, rfl, hb⟩) fun _ _ => .inl

end Follows

/-! ## Frames on the stack -/

/-- The frame on the machine has these arguments below its base and these slots from its base on. -/
structure Holds (m : Machine) (a : Activation) (size : Nat) (σ : Slots) : Prop where
  room : m.base + size ≤ m.stack.size
  args : ∀ {i : Nat} {v : Value}, a.args[i]? = some v →
    i + 2 ≤ m.base ∧ m.stack[m.base - (i + 2)]? = some (.value v)
  slots : ∀ {n : Nat}, n < size → m.stack[m.base + n]? = some (.ofSlot (σ n))
  limit : m.limits.maxCallDepth = a.limit
  globals : m.globals = a.globals
  every : a.Every Routine.Fits σ

/-- From `m` to `m'`, `n` cells were pushed, and of the cells in `m` only the slots of the frame may have changed. -/
structure Kept (size n : Nat) (m m' : Machine) : Prop where
  height : m'.stack.size = m.stack.size + n
  base : m'.base = m.base
  limits : m'.limits = m.limits
  globals : m'.globals = m.globals
  cells : ∀ {i : Nat}, i < m.stack.size → i < m.base ∨ m.base + size ≤ i → m'.stack[i]? = m.stack[i]?

variable {a : Activation} {size n k : Nat} {σ σ' : Slots}

theorem Kept.refl (size : Nat) (m : Machine) : Kept size 0 m m := ⟨rfl, rfl, rfl, rfl, fun _ _ => rfl⟩

theorem Kept.trans (h : Kept size n m m') (h' : Kept size k m' m'') : Kept size (n + k) m m'' where
  height := by rw [h'.height, h.height, Nat.add_assoc]
  base := h'.base.trans h.base
  limits := h'.limits.trans h.limits
  globals := h'.globals.trans h.globals
  cells hi hout := by
    rw [h'.cells (by rw [h.height]; omega) (by rwa [h.base]), h.cells hi hout]

theorem Kept.setAccumulator (h : Kept size n m m') (v : Value) : Kept size n m { m' with accumulator := v } :=
  ⟨h.height, h.base, h.limits, h.globals, h.cells⟩

/-- A frame is still there when the cells up to its end are. -/
theorem Holds.congr (h : Holds m a size σ) (hbase : m'.base = m.base) (hlimits : m'.limits = m.limits)
    (hglobals : m'.globals = m.globals) (hroom : m.base + size ≤ n) (hn : n ≤ m'.stack.size)
    (hcells : ∀ i < n, m'.stack[i]? = m.stack[i]?) : Holds m' a size σ where
  room := by omega
  args {i v} hv := by
    have ⟨hi, hat⟩ := h.args hv
    rw [hbase, hcells _ (by omega)]
    exact ⟨hi, hat⟩
  slots {j} hj := by
    rw [hbase, hcells _ (by omega)]
    exact h.slots hj
  limit := by rw [hlimits, h.limit]
  globals := by rw [hglobals, h.globals]
  every := h.every

theorem Holds.setAccumulator (h : Holds m a size σ) (v : Value) : Holds { m with accumulator := v } a size σ :=
  ⟨h.room, h.args, h.slots, h.limit, h.globals, h.every⟩

theorem Holds.push (h : Holds m a size σ) (cell : Cell) : Holds { m with stack := m.stack.push cell } a size σ := by
  refine h.congr rfl rfl rfl h.room (by rw [Array.size_push]; omega) fun i hi => ?_
  rw [Array.getElem?_push, if_neg (by omega)]

/-! ## Loads and stores -/

theorem index?_eq {offset : Int} {i : Nat} (h : (m.base : Int) + offset = i) (hi : i < m.stack.size) :
    m.index? offset = some i := by
  simp only [index?, h]
  rw [if_pos (by omega), Int.toNat_natCast]

/-- The cell at an offset in the frame holds what the activation reads there. -/
theorem Holds.cell (h : Holds m a size σ) {offset : Int} (hin : InFrame a.args.length size offset) :
    ∃ i, m.index? offset = some i ∧ m.stack.getD i .unset = .ofSlot (σ.read a.args offset) := by
  rcases hin with ⟨hlow, hhigh⟩ | ⟨hlow, hhigh⟩
  · have hat := h.slots (n := offset.toNat) (by omega)
    refine ⟨m.base + offset.toNat, index?_eq (by omega) (Array.getElem?_eq_some_iff.1 hat).1, ?_⟩
    rw [Array.getD_eq_getD_getElem?, hat, Slots.read, if_pos hlow]
    rfl
  · have hlt : (-offset - 2).toNat < a.args.length := by omega
    have harg := List.getElem?_eq_getElem hlt
    have ⟨hbase, hat⟩ := h.args harg
    refine ⟨_, index?_eq (by omega) (Array.getElem?_eq_some_iff.1 hat).1, ?_⟩
    rw [Array.getD_eq_getD_getElem?, hat, Slots.read, if_neg (by omega), if_pos hlow, harg]
    rfl

theorem load_follows (h : Holds m a size σ) {offset : Int} (hin : InFrame a.args.length size offset) :
    Follows (load offset) m (a.load σ offset) fun v w m' => v = w ∧ m' = m ∧ v.Every Routine.Fits := by
  obtain ⟨i, hi, hcell⟩ := h.cell hin
  rw [Follows, wp_load, hi, Activation.load]
  dsimp only
  cases hread : σ.read a.args offset with
  | none =>
    rw [hcell, hread]
    exact .inr rfl
  | some v =>
    rw [hcell, hread]
    exact ⟨v, rfl, rfl, rfl, h.every.read hread⟩

theorem loadAll_follows (h : Holds m a size σ) {offsets : List Int}
    (hin : ∀ offset ∈ offsets, InFrame a.args.length size offset) :
    Follows (loadAll offsets) m (a.loadAll σ offsets) fun vs ws m' =>
      vs = ws ∧ m' = m ∧ ∀ v ∈ vs, v.Every Routine.Fits := by
  induction offsets with
  | nil => exact ⟨[], rfl, rfl, rfl, by simp⟩
  | cons offset offsets ih =>
    rw [loadAll, Activation.loadAll]
    refine (load_follows h (hin offset (by simp))).bind ?_
    rintro v _ _ ⟨rfl, rfl, hv⟩
    refine (ih fun o ho => hin o (by simp [ho])).bind ?_
    rintro vs _ _ ⟨rfl, rfl, hvs⟩
    exact ⟨v :: vs, rfl, rfl, rfl, by simpa using ⟨hv, hvs⟩⟩

/-- A store in a slot changes that slot and nothing else. -/
theorem store_holds (h : Holds m a size σ) {slot : Int} (hlow : 0 ≤ slot) (hhigh : slot < size) {v : Value}
    (hv : v.Every Routine.Fits) :
    wp (store slot v)
      (fun _ m' => m'.accumulator = m.accumulator ∧ Holds m' a size (σ.set slot.toNat v) ∧ Kept size 0 m m')
      (fun _ _ => False) m := by
  have hroom := h.room
  rw [wp_store, index?_eq (i := m.base + slot.toNat) (by omega) (by omega)]
  have hcells (i : Nat) (hi : i ≠ m.base + slot.toNat) :
      (m.stack.setIfInBounds (m.base + slot.toNat) (.value v))[i]? = m.stack[i]? := by
    rw [Array.getElem?_setIfInBounds, if_neg (Ne.symm hi)]
  refine ⟨rfl, ⟨?_, fun {i w} hw => ?_, fun {n} hn => ?_, h.limit, h.globals, h.every.set _ hv⟩, ?_⟩
  · rw [Array.size_setIfInBounds]
    exact hroom
  · have ⟨hi, hat⟩ := h.args hw
    exact ⟨hi, (hcells (m.base - (i + 2)) (by omega)).trans hat⟩
  · by_cases hslot : n = slot.toNat
    · subst hslot
      rw [Array.getElem?_setIfInBounds, if_pos rfl, if_pos (by omega), Slots.set, if_pos rfl]
      rfl
    · rw [hcells (m.base + n) (by omega), Slots.set, if_neg hslot]
      exact h.slots hn
  · exact ⟨Array.size_setIfInBounds, rfl, rfl, rfl, fun _ hout => hcells _ (by omega)⟩

theorem fillCaptures_follows {itself : Value} (hi : itself.Every Routine.Fits) (loads : List CaptureLoad) :
    ∀ {captured : List Value} {m : Machine} {σ : Slots}, (∀ c ∈ loads, 0 ≤ c.slot ∧ c.slot < size) →
      (∀ v ∈ captured, v.Every Routine.Fits) → Holds m a size σ →
      Follows (fillCaptures itself loads captured) m
        ((σ.fill itself loads captured).mapError (RuntimeError.of · 0))
        fun _ σ' m' => Holds m' a size σ' ∧ Kept size 0 m m' := by
  induction loads with
  | nil =>
    intro captured m σ _ _ h
    rw [fillCaptures, Slots.fill]
    exact ⟨σ, rfl, h, .refl size m⟩
  | cons load loads ih =>
    intro captured m σ hloads hcaptured h
    obtain ⟨slot, origin⟩ := load
    have hslot := hloads _ (List.mem_cons_self ..)
    have hrest := fun c hc => hloads c (List.mem_cons_of_mem _ hc)
    cases origin with
    | itself =>
      rw [fillCaptures, Slots.fill]
      refine .step (wp_mono (store_holds h hslot.1 hslot.2 hi) ?_ fun _ _ => False.elim)
      rintro _ m₁ ⟨-, h₁, hk₁⟩
      exact (ih hrest hcaptured h₁).mono fun _ _ _ h₂ => ⟨h₂.1, hk₁.trans h₂.2⟩
    | frame offset =>
      cases captured with
      | nil =>
        rw [fillCaptures, Slots.fill]
        exact .inr rfl
      | cons v captured =>
        rw [fillCaptures, Slots.fill]
        have hv := hcaptured v (by simp)
        refine .step (wp_mono (store_holds h hslot.1 hslot.2 hv) ?_ fun _ _ => False.elim)
        rintro _ m₁ ⟨-, h₁, hk₁⟩
        exact (ih hrest (fun w hw => hcaptured w (by simp [hw])) h₁).mono fun _ _ _ h₂ => ⟨h₂.1, hk₁.trans h₂.2⟩

/-! ## Calls -/

/-- What holds after code: its result is in the accumulator and the frame is still there. -/
structure Result (a : Activation) (size : Nat) (m : Machine) (r : Value × Slots) (m' : Machine) : Prop where
  value : m'.accumulator = r.1
  every : r.1.Every Routine.Fits
  holds : Holds m' a size r.2
  kept : Kept size 0 m m'

/-- The machine runs bodies as the activation does. -/
def Serves (a : Activation) (run : Code → Step Unit) (body : Body) : Prop :=
  ∀ (args : List Value) (c : Code) {size : Nat} {σ : Slots} {m : Machine}, c.Within args.length size →
    c.Every Routine.Fits → Holds m { a with args } size σ →
    Follows (run c) m (body args c σ) fun _ => Result { a with args } size m

/-- Both can run functions one level deeper, in the same way, or neither can. -/
def Deeper.Matches (a : Activation) : Deeper → Option Body → Prop
  | none, none => True
  | some run, some body => Serves a run body
  | _, _ => False

/-- The arguments of a call have been pushed: the first one is on top of the stack. -/
structure Stacked (m : Machine) (vs : List Value) : Prop where
  height : vs.length ≤ m.stack.size
  cells : ∀ {i : Nat} {v : Value}, vs[i]? = some v → m.stack[m.stack.size - (i + 1)]? = some (.value v)

/-- A function starts in a frame that has its arguments and no slots yet. -/
theorem Stacked.started {vs : List Value} (hs : Stacked m vs) (hlimit : m.limits.maxCallDepth = a.limit)
    (hglobals : m.globals = a.globals) (he : Activation.Every Routine.Fits { a with args := vs } Slots.empty)
    (function : String) (argc : Nat) : Holds (m.started function argc) { a with args := vs } 0 Slots.empty where
  room := by simp [Machine.started]
  args {i v} hv := by
    have hlt : i < vs.length := (List.getElem?_eq_some_iff.1 hv).1
    have hheight := hs.height
    refine ⟨by simp only [Machine.started]; omega, ?_⟩
    simp only [Machine.started]
    rw [Array.getElem?_push, if_neg (by omega), show m.stack.size + 1 - (i + 2) = m.stack.size - (i + 1) by omega]
    exact hs.cells hv
  slots hn := absurd hn (by omega)
  limit := hlimit
  globals := hglobals
  every := he

/-- Reserving cells on top of the stack gives the frame its slots, none of which is set. -/
theorem Holds.reserved (h : Holds m a 0 σ) (hbase : m.base = m.stack.size) (n : Nat) :
    Holds { m with stack := pushUnset n m.stack } a n Slots.empty where
  room := by simp [hbase]
  args {i v} hv := by
    have ⟨hi, hat⟩ := h.args hv
    refine ⟨hi, ?_⟩
    dsimp only
    rw [getElem?_pushUnset, if_pos (by omega)]
    exact hat
  slots {j} hj := by
    dsimp only
    rw [getElem?_pushUnset, if_neg (by omega), if_pos (by omega)]
    rfl
  limit := h.limit
  globals := h.globals
  every := h.every.start h.every.args

theorem kept_reserved (m : Machine) (n : Nat) : Kept 0 n m { m with stack := pushUnset n m.stack } :=
  ⟨size_pushUnset n m.stack, rfl, rfl, rfl, fun hi _ => by dsimp only; rw [getElem?_pushUnset, if_pos hi]⟩

/-- Taking the slots away again leaves the stack below the frame as it was. -/
theorem Kept.released (h : Kept 0 n m m') (hbase : m.base = m.stack.size) (h' : Kept n 0 m' m'') :
    Kept 0 0 m { m'' with stack := m''.stack.shrink (m''.stack.size - n) } where
  height := by
    have := h.height
    have := h'.height
    rw [Array.size_shrink]
    omega
  base := h'.base.trans h.base
  limits := h'.limits.trans h.limits
  globals := h'.globals.trans h.globals
  cells {i} hi hout := by
    have := h.height
    have := h'.height
    have := h.base
    dsimp only
    rw [getElem?_shrink, if_pos (by omega), h'.cells (by omega) (by omega), h.cells hi hout]

theorem load_arg (h : Holds m a size σ) {i : Nat} {v : Value} (hv : a.args[i]? = some v) {offset : Int}
    (ho : offset = -(i : Int) - 2) : load offset m = .ok v m := by
  have ⟨hi, hat⟩ := h.args hv
  rw [load, index?_eq (i := m.base - (i + 2)) (by omega) (Array.getElem?_eq_some_iff.1 hat).1]
  dsimp only
  rw [Array.getD_eq_getD_getElem?, hat]
  rfl

theorem applyBuiltin_follows {b : Builtin} {vs : List Value} (hargs : vs.length = b.arity)
    (h : Holds m { a with args := vs } size σ) :
    Follows (applyBuiltin b) m ((b.apply vs).mapError (RuntimeError.of · 0)) fun v w m' =>
      v = w ∧ m' = m ∧ v.Every Routine.Fits := by
  rw [applyBuiltin, Follows, wp_bind]
  by_cases hone : b.arity = 1
  · obtain ⟨v, rfl⟩ := List.length_eq_one_iff.1 (hargs.trans hone)
    refine wp_of_ok (load_arg h (i := 0) rfl (by omega)) ?_
    rw [if_pos hone, pure_bind, Builtin.apply]
    cases hu : b.apply₁ v with
    | ok u => exact ⟨u, rfl, rfl, rfl, Builtin.every_of_apply₁ hu⟩
    | error problem => exact .inr rfl
  · have htwo : b.arity = 2 := by cases b <;> simp_all [Builtin.arity]
    obtain ⟨v, w, rfl⟩ := List.length_eq_two.1 (hargs.trans htwo)
    refine wp_of_ok (load_arg h (i := 0) rfl (by omega)) ?_
    rw [if_neg hone, wp_bind]
    refine wp_of_ok (load_arg h (i := 1) rfl (by omega)) ?_
    rw [pure_bind, Builtin.apply]
    cases hu : b.apply₂ v w with
    | ok u => exact ⟨u, rfl, rfl, rfl, Builtin.every_of_apply₂ hu⟩
    | error problem => exact .inr rfl

theorem enter_follows {run : Code → Step Unit} {body : Body} (hrun : Serves a run body) {routine : Routine}
    {captured vs : List Value} (hv : (Value.closure routine captured).Every Routine.Fits)
    (hargs : vs.length = routine.arity) (hbase : m.base = m.stack.size)
    (h : Holds m { a with args := vs } 0 Slots.empty) :
    Follows (enter run routine captured) m (Activation.enter body (.closure routine captured) vs) fun _ v m' =>
      m'.accumulator = v ∧ v.Every Routine.Fits ∧ Kept 0 0 m m' := by
  have ⟨hfits, hbody⟩ := Routine.every_iff.1 hv.1
  have hsize : ((routine.frameSize.toNat : Nat) : Int) = routine.frameSize := Int.toNat_of_nonneg hfits.sized
  rw [enter, Activation.enter]
  -- Making the frame has no counterpart: all that can go wrong is that there is no room.
  refine .step ?_
  rw [wp_grow_of_nonneg hfits.sized, wp_reserve]
  split
  case isFalse => rfl
  have h₁ := h.reserved hbase routine.frameSize.toNat
  have hk₁ := kept_reserved m routine.frameSize.toNat
  refine (fillCaptures_follows hv routine.captures (by rw [hsize]; exact hfits.captures)
    (Value.everyAll_iff.1 hv.2) h₁).bind ?_
  rintro _ σ₂ m₂ ⟨h₂, hk₂⟩
  refine (hrun vs routine.body (by rw [hargs]; exact hfits.body) hbody h₂).bind fun _ r m₃ h₃ => ?_
  -- The frame is on top of the stack, so what is given back is the frame.
  have hk₃ := hk₂.trans h₃.kept
  have hheight := hk₃.height
  refine .of_ok ?_
  rw [wp_grow_neg_of_nonneg hfits.sized, wp_release, if_pos (by rw [hheight]; simp)]
  exact ⟨h₃.value, h₃.every, hk₁.released hbase hk₃⟩

theorem runCallee_follows {run : Code → Step Unit} {body : Body} (hrun : Serves a run body) {callee : Callee}
    (hc : callee.toValue.Every Routine.Fits) {vs : List Value} (hargs : vs.length = callee.arity)
    (hbase : m.base = m.stack.size) (h : Holds m { a with args := vs } 0 Slots.empty) :
    Follows (runCallee run callee) m (Activation.enter body callee vs) fun _ v m' =>
      m'.accumulator = v ∧ v.Every Routine.Fits ∧ Kept 0 0 m m' := by
  cases callee with
  | closure routine captured => exact enter_follows hrun hc hargs hbase h
  | builtin b =>
    rw [runCallee, Activation.enter, Follows, wp_bind]
    refine wp_mono (applyBuiltin_follows hargs h) ?_ fun _ _ => id
    rintro v _ ⟨w, hw, rfl, rfl, hv⟩
    exact ⟨v, hw, rfl, hv, (Kept.refl 0 _).setAccumulator v⟩

/-- After a call its arguments are gone and the stack below them is as it was. -/
structure Returned (argc : Nat) (m m' : Machine) : Prop where
  height : m'.stack.size + argc = m.stack.size
  base : m'.base = m.base
  limits : m'.limits = m.limits
  globals : m'.globals = m.globals
  cells : ∀ i < m'.stack.size, m'.stack[i]? = m.stack[i]?

theorem call_follows {deeper : Deeper} (hd : deeper.Matches a a.deeper) {callee : Callee}
    (hc : callee.toValue.Every Routine.Fits) {vs : List Value} (hs : Stacked m vs)
    (hlimit : m.limits.maxCallDepth = a.limit) (hglobals : m.globals = a.globals)
    (he : Activation.Every Routine.Fits { a with args := vs } Slots.empty) (line : Nat) :
    Follows (call deeper callee vs.length line) m (a.call callee vs line) fun _ v m' =>
      m'.accumulator = v ∧ v.Every Routine.Fits ∧ Returned vs.length m m' := by
  have hheight := hs.height
  rw [Follows, wp_call, Activation.call]
  split
  case isTrue => exact .inr rfl
  case isFalse harity =>
  cases deeper with
  | none =>
    cases hbody : a.deeper with
    | some body => rw [hbody] at hd; exact hd.elim
    | none => exact .inr (by rw [hlimit])
  | some run =>
    cases hbody : a.deeper with
    | none => rw [hbody] at hd; exact hd.elim
    | some body =>
      rw [hbody] at hd
      dsimp only
      split
      case isFalse => exact .inl (RuntimeError.problem_atLine _ _)
      have hstart := hs.started hlimit hglobals he callee.name vs.length
      have hfollows := runCallee_follows hd hc (by simpa using harity) (by simp [started]) hstart
      refine wp_mono hfollows ?_ fun e _ herr => ?_
      · rintro _ m₁ ⟨v, hv, hacc, hev, hk⟩
        have hsize : m₁.stack.size = m.stack.size + 1 := by rw [hk.height]; simp [started]
        -- Nothing below the frame has changed, so the base that was saved is on top.
        have htop : m₁.stack[m.stack.size + 1 - 1]? = some (.base m.base) := by
          rw [hk.cells (by simp [started]) (by simp [started])]
          simp [started]
        rw [wp_closeFrame, Array.back?_eq_getElem?, hsize, htop]
        dsimp only
        rw [wp_release, if_pos (by rw [Array.size_pop]; omega)]
        refine ⟨v, by rw [hv]; rfl, hacc, hev, ?_, rfl, hk.limits, hk.globals, fun i hi => ?_⟩
        · simp only [Array.size_shrink, Array.size_pop]
          omega
        · simp only [Array.size_shrink, Array.size_pop] at hi
          dsimp only
          rw [getElem?_shrink, if_pos (by rw [Array.size_pop]; omega), Array.getElem?_pop, if_pos (by omega),
            hk.cells (by simp only [started, Array.size_push]; omega) (by simp only [started]; omega)]
          simp only [started]
          rw [Array.getElem?_push, if_neg (by omega)]
      · rcases herr with herr | herr
        · exact .inl (by simpa using herr)
        · exact .inr (by rw [herr]; rfl)

/-! ## Code -/

theorem Holds.result (h : Holds m a size σ) {v : Value} (hv : v.Every Routine.Fits) :
    Result a size m (v, σ) { m with accumulator := v } :=
  ⟨rfl, hv, h.setAccumulator v, (Kept.refl size m).setAccumulator v⟩

theorem Result.trans {r r' : Value × Slots} (h : Result a size m r m') (h' : Result a size m' r' m'') :
    Result a size m r' m'' :=
  ⟨h'.value, h'.every, h'.holds, h.kept.trans h'.kept⟩

/-- The arguments of a call are above the frame of the caller, which the call leaves as it is. -/
theorem Holds.returned (h : Holds m a size σ) {argc : Nat} (hk : Kept size argc m m')
    (h' : Holds m' a size σ') (hr : Returned argc m' m'') : Holds m'' a size σ' ∧ Kept size 0 m m'' := by
  have hheight : m''.stack.size = m.stack.size := by
    have := hr.height
    have := hk.height
    omega
  refine ⟨h'.congr hr.base hr.limits hr.globals ?_ (Nat.le_refl _) hr.cells, ?_⟩
  · rw [hk.base, hheight]
    exact h.room
  · refine ⟨hheight, hr.base.trans hk.base, hr.limits.trans hk.limits, hr.globals.trans hk.globals, fun hi hout => ?_⟩
    rw [hr.cells _ (by omega), hk.cells hi hout]

/-- Arguments that have been pushed lie above the frame, so they stay when code runs in it. -/
theorem Stacked.kept {vs : List Value} (hs : Stacked m vs) (hroom : m.base + size ≤ m.stack.size - vs.length)
    (hk : Kept size 0 m m') : Stacked m' vs where
  height := by
    rw [hk.height]
    exact hs.height
  cells {i v} hv := by
    have hlt : i < vs.length := (List.getElem?_eq_some_iff.1 hv).1
    have hheight := hs.height
    rw [hk.height, Nat.add_zero, hk.cells (by omega) (by omega)]
    exact hs.cells hv

/-- The next argument goes on top of those that have been pushed. -/
theorem Stacked.push {vs : List Value} (hs : Stacked m vs) (v : Value) :
    Stacked { m with stack := m.stack.push (.value v) } (v :: vs) where
  height := by
    rw [Array.size_push, List.length_cons]
    exact Nat.succ_le_succ hs.height
  cells {i w} hw := by
    dsimp only
    rw [Array.size_push]
    cases i with
    | zero =>
      rw [List.getElem?_cons_zero] at hw
      cases hw
      simp
    | succ i =>
      rw [List.getElem?_cons_succ] at hw
      have hlt : i < vs.length := (List.getElem?_eq_some_iff.1 hw).1
      have hheight := hs.height
      rw [Nat.add_sub_add_right, Array.getElem?_push, if_neg (by omega)]
      exact hs.cells hw

mutual

/-- Code that keeps to its frame computes on the machine what it computes in the activation. -/
theorem execWith_follows {a : Activation} {deeper : Deeper} (hd : deeper.Matches a a.deeper) (c : Code) {size : Nat}
    {σ : Slots} {m : Machine} (hw : c.Within a.args.length size) (he : c.Every Routine.Fits)
    (h : Holds m a size σ) :
    Follows (execWith deeper c) m (a.eval c σ) fun _ => Result a size m := by
  cases c with
  | const v =>
    rw [Activation.eval]
    exact ⟨(v, σ), rfl, h.result he⟩
  | load offset =>
    rw [execWith, Activation.eval]
    refine (load_follows h hw).bind ?_
    rintro v _ _ ⟨rfl, rfl, hv⟩
    exact ⟨(v, σ), rfl, h.result hv⟩
  | global index =>
    rw [execWith, Activation.eval, Follows, wp_bind, wp_loadGlobal, ← h.globals]
    cases hv : m.globals.value? index with
    | none => exact .inr rfl
    | some v => exact ⟨(v, σ), rfl, h.result (h.every.globals (h.globals ▸ hv))⟩
  | store slot value =>
    rw [execWith, Activation.eval]
    refine (execWith_follows hd value hw.2.2 he h).bind fun _ r m₁ h₁ => ?_
    refine .of_ok ?_
    rw [wp_bind, wp_get, h₁.value]
    refine wp_mono (store_holds h₁.holds hw.1 hw.2.1 h₁.every) (fun _ m₂ ⟨hacc, h₂, hk₂⟩ => ?_) fun _ _ => False.elim
    exact ⟨hacc.trans h₁.value, h₁.every, h₂, h₁.kept.trans hk₂⟩
  | block stores result =>
    rw [execWith, Activation.eval]
    refine (execAll_follows hd stores hw.1 he.1 h).bind fun _ σ₁ m₁ ⟨h₁, hk₁⟩ => ?_
    exact (execWith_follows hd result hw.2 he.2 h₁).mono fun _ _ _ h₂ =>
      ⟨h₂.value, h₂.every, h₂.holds, hk₁.trans h₂.kept⟩
  | cond test onTrue onFalse line =>
    rw [execWith, Activation.eval]
    refine (execWith_follows hd test hw.1 he.1 h).bind fun _ r m₁ h₁ => ?_
    obtain ⟨v, σ₁⟩ := r
    rw [Follows, wp_bind, wp_get, h₁.value]
    cases v with
    | boolean b =>
      cases b with
      | true => exact (execWith_follows hd onTrue hw.2.1 he.2.1 h₁.holds).mono fun _ _ _ => h₁.trans
      | false => exact (execWith_follows hd onFalse hw.2.2 he.2.2 h₁.holds).mono fun _ _ _ => h₁.trans
    | number _ | builtin _ | closure _ _ => exact .inr rfl
  | closure routine =>
    rw [execWith, Activation.eval]
    refine (loadAll_follows h hw).bind ?_
    rintro vs _ _ ⟨rfl, rfl, hvs⟩
    exact ⟨_, rfl, h.result ⟨he, Value.everyAll_iff.2 hvs⟩⟩
  | call callee args line =>
    rw [execWith, Activation.eval]
    refine (execWith_follows hd callee hw.1 he.1 h).bind fun _ r m₁ h₁ => ?_
    obtain ⟨f, σ₁⟩ := r
    rw [Follows, wp_bind, wp_get, h₁.value]
    dsimp only
    cases hf : Callee.ofValue? f with
    | none => exact .inr rfl
    | some found =>
      have hfound : found.toValue.Every Routine.Fits := by
        rw [Callee.toValue_of_ofValue? hf]
        exact h₁.every
      -- Arguments go on top of the stack, above the frame that they are computed in.
      refine (pushArgs_follows hd line args hw.2 he.2 h₁.holds).bind fun _ r m₂ ⟨h₂, hk₂, hs, hvs, hlen⟩ => ?_
      obtain ⟨vs, σ₂⟩ := r
      rw [← hlen]
      have hcall := call_follows hd hfound hs h₂.limit h₂.globals (h₂.every.start hvs) line
      rw [← bind_pure (call deeper found vs.length line)]
      refine hcall.bind fun _ v m₃ ⟨hacc, hev, hr⟩ => ?_
      have hback := h₁.holds.returned (hlen ▸ hk₂) h₂ hr
      exact ⟨(v, σ₂), rfl, hacc, hev, hback.1, h₁.kept.trans hback.2⟩

theorem execAll_follows {a : Activation} {deeper : Deeper} (hd : deeper.Matches a a.deeper) (cs : List Code)
    {size : Nat} {σ : Slots} {m : Machine} (hw : Code.AllWithin a.args.length size cs)
    (he : Code.EveryAll Routine.Fits cs) (h : Holds m a size σ) :
    Follows (execAll deeper cs) m (a.evalAll cs σ) fun _ σ' m' => Holds m' a size σ' ∧ Kept size 0 m m' := by
  cases cs with
  | nil =>
    rw [Activation.evalAll]
    exact ⟨σ, rfl, h, .refl size m⟩
  | cons c cs =>
    rw [execAll, Activation.evalAll]
    refine (execWith_follows hd c hw.1 he.1 h).bind fun _ r m₁ h₁ => ?_
    exact (execAll_follows hd cs hw.2 he.2 h₁.holds).mono fun _ _ _ ⟨h₂, hk₂⟩ => ⟨h₂, h₁.kept.trans hk₂⟩

theorem pushArgs_follows {a : Activation} {deeper : Deeper} (hd : deeper.Matches a a.deeper) (line : Nat)
    (cs : List Code) {size : Nat} {σ : Slots} {m : Machine} (hw : Code.AllWithin a.args.length size cs)
    (he : Code.EveryAll Routine.Fits cs) (h : Holds m a size σ) :
    Follows (pushArgs deeper line cs) m (a.evalArgs cs σ) fun _ r m' =>
      Holds m' a size r.2 ∧ Kept size cs.length m m' ∧ Stacked m' r.1 ∧ (∀ v ∈ r.1, v.Every Routine.Fits) ∧
        r.1.length = cs.length := by
  cases cs with
  | nil =>
    rw [Activation.evalArgs]
    exact ⟨([], σ), rfl, h, .refl size m, ⟨Nat.zero_le _, fun hv => by cases hv⟩, by simp, rfl⟩
  | cons c cs =>
    rw [pushArgs, Activation.evalArgs]
    refine (pushArgs_follows hd line cs hw.2 he.2 h).bind fun _ r m₁ ⟨h₁, hk₁, hs₁, hvs, hlen⟩ => ?_
    obtain ⟨vs, σ₁⟩ := r
    refine (execWith_follows hd c hw.1 he.1 h₁).bind fun _ r m₂ h₂ => ?_
    obtain ⟨v, σ₂⟩ := r
    obtain rfl : m₂.accumulator = v := h₂.value
    refine .of_ok ?_
    rw [wp_bind, wp_get, wp_adaptExcept, wp_push]
    split
    case isFalse => exact RuntimeError.problem_atLine _ _
    have hroom : m₁.base + size ≤ m₁.stack.size - vs.length := by
      have := h.room
      have := hk₁.height
      have := hk₁.base
      dsimp only at hlen
      omega
    have hpush : Kept size 1 m₂ { m₂ with stack := m₂.stack.push (.value m₂.accumulator) } := by
      refine ⟨Array.size_push _, rfl, rfl, rfl, fun hi _ => ?_⟩
      dsimp only
      rw [Array.getElem?_push, if_neg (by omega)]
    exact ⟨h₂.holds.push _, (hk₁.trans h₂.kept).trans hpush, (hs₁.kept hroom h₂.kept).push _,
      by simpa using ⟨h₂.every, hvs⟩, by simpa using hlen⟩

end

/-! ## Programs -/

theorem Holds.withDeeper (h : Holds m a size σ) (deeper : Option Body) : Holds m { a with deeper } size σ :=
  ⟨h.room, h.args, h.slots, h.limit, h.globals, h.every.args, h.every.slots, h.every.globals⟩

/-- At every depth the machine runs bodies as the activation does. -/
theorem levels_matches (a : Activation) (n : Nat) :
    (levels n).Matches a (Activation.levels a.limit a.globals n) := by
  induction n generalizing a with
  | zero => trivial
  | succ n ih =>
    intro args c size σ m hw he h
    rw [execWithin_eq]
    refine (execWith_follows (ih _) c hw he (h.withDeeper _)).mono fun _ r m' hr => ?_
    exact ⟨hr.value, hr.every, hr.holds.withDeeper _, hr.kept⟩

end Machine

/-- What a program computes when its calls may nest `limit` deep. -/
def Program.eval (p : Program) (limit : Nat) : Except RuntimeError Value := do
  return (← Activation.eval ⟨limit, p.globals, Activation.levels limit p.globals limit, []⟩ p.main.body .empty).1

/-- The activation in which a program starts. -/
def Program.start (p : Program) (limit : Nat) : Activation :=
  ⟨limit, p.globals, Activation.levels limit p.globals limit, []⟩

theorem Program.eval_eq (p : Program) (limit : Nat) :
    p.eval limit = (do return (← (p.start limit).eval p.main.body .empty).1) := rfl

/-- The frame in which a program starts has no arguments, and none of its slots is set. -/
theorem Machine.Holds.start {p : Program} (hp : p.Every Routine.Fits) (m : Machine) (size : Nat) :
    Holds { m.cleared p.globals with stack := pushUnset size (m.cleared p.globals).stack }
      (p.start m.limits.maxCallDepth) size .empty := by
  have h₀ : Holds (m.cleared p.globals) (p.start m.limits.maxCallDepth) 0 .empty :=
    ⟨Nat.le_refl _, (fun hv => by cases hv), fun hn => absurd hn (by omega), rfl, rfl, (fun v hv => by cases hv),
      (fun hv => by cases hv), hp.globals⟩
  exact h₀.reserved rfl size

/-- A program whose code keeps to its frames computes on the machine what it computes in its activations. -/
theorem Machine.run_follows {p : Program} (hp : p.Every Routine.Fits) (harity : p.main.arity = 0) (m : Machine) :
    Follows (run p) m (p.eval m.limits.maxCallDepth) fun v w _ => v = w := by
  have ⟨hfits, hbody⟩ := Routine.every_iff.1 hp.main
  have hwithin := hfits.body
  rw [harity] at hwithin
  have hk₁ := kept_reserved (m.cleared p.globals) p.main.frameSize.toNat
  have h₁ := Holds.start hp m p.main.frameSize.toNat
  have hexec := execWith_follows (levels_matches (p.start m.limits.maxCallDepth) m.limits.maxCallDepth) p.main.body
    hwithin hbody h₁
  rw [← execWithin_eq] at hexec
  rw [Follows, wp_run, wp_grow_of_nonneg hfits.sized, wp_reserve]
  split
  case isFalse => exact .inl rfl
  rw [Program.eval_eq]
  refine wp_mono hexec ?_ fun e _ he => ?_
  · rintro _ m₂ ⟨r, hr, h₂⟩
    have hkept := hk₁.released rfl h₂.kept
    have hheight := h₂.kept.height
    rw [wp_grow_neg_of_nonneg hfits.sized, wp_release, if_pos (by rw [hheight, size_pushUnset]; omega),
      if_pos (by rw [hkept.height]; rfl)]
    exact ⟨r.1, by rw [hr]; rfl, h₂.value⟩
  · rcases he with he | he
    · exact .inl he
    · exact .inr (by rw [he]; rfl)

end ClosureLang
