import ClosureLang.Proofs.Compilation

/-!
# The slots of locals

The locals of all blocks of a lambda share its frame with what the lambda captures. The walk over names gives every
local a slot of its own, also where two blocks stand side by side and could share one. So the slots that the body of a
lambda assigns are those of its locals, each of them once, and none of them is the slot of a capture. Code stores where
its tree assigns.
-/

namespace ClosureLang

open ClosureLang.Frame

/-! ## Slots of trees and code -/

namespace Expr

mutual

/-- The slots that are assigned in a tree. Its lambdas have frames of their own. -/
def slots : Expr → List Int
  | number .. | name .. | lambda .. => []
  | call _ callee args => callee.slots ++ slotsAll args
  | block _ statements => slotsAll statements
  | assign _ _ value (some (.slot n)) => value.slots ++ [n]
  | assign _ _ value _ => value.slots
  | cond _ test onTrue onFalse => test.slots ++ (onTrue.slots ++ onFalse.slots)

def slotsAll : List Expr → List Int
  | [] => []
  | e :: es => e.slots ++ slotsAll es

end

mutual

/-- The frames of the lambdas in a tree, each with the slots that its body assigns. -/
def bodies : Expr → List (Nat × List Int)
  | number .. | name .. => []
  | call _ callee args => callee.bodies ++ bodiesAll args
  | lambda _ _ body (some id) _ => (id, body.slots) :: body.bodies
  | lambda _ _ body none _ => body.bodies
  | block _ statements => bodiesAll statements
  | assign _ _ value _ => value.bodies
  | cond _ test onTrue onFalse => test.bodies ++ (onTrue.bodies ++ onFalse.bodies)

def bodiesAll : List Expr → List (Nat × List Int)
  | [] => []
  | e :: es => e.bodies ++ bodiesAll es

end

/-- The slots that are assigned inside the statements of a block, without those of the block itself. -/
def innerSlots : List Expr → List Int
  | [] => []
  | assign _ _ value _ :: es => value.slots ++ innerSlots es
  | e :: es => e.slots ++ innerSlots es

/-- A block assigns its own slots and those inside its statements. -/
theorem slotsAll_perm (es : List Expr) : (slotsAll es).Perm ((localSlots es).map (·.2) ++ innerSlots es) := by
  induction es with
  | nil => exact .refl _
  | cons e es ih =>
    -- What is inside the statement moves past the slots that the other statements assign.
    have hinside (inside : List Int) :
        (inside ++ slotsAll es).Perm ((localSlots es).map (·.2) ++ (inside ++ innerSlots es)) :=
      (ih.append_left inside).trans (List.perm_append_comm_assoc ..)
    cases e with
    | assign span x value var =>
      rcases var with _ | v
      · exact hinside value.slots
      cases v with
      | arg | captured | global => exact hinside value.slots
      | slot n =>
        refine .trans ?_ ((hinside value.slots).cons n)
        show (value.slots ++ [n] ++ slotsAll es).Perm (n :: (value.slots ++ slotsAll es))
        rw [List.append_assoc]
        exact List.perm_middle
    | number | name | call | lambda | block | cond => exact hinside _

theorem innerSlots_result {e : Expr} (h : e.isAssign = false) : innerSlots [e] = e.slots := by
  cases e with
  | assign => cases h
  | number | name | call | lambda | block | cond => exact List.append_nil _

end Expr

namespace Code

mutual

/-- The slots that code stores in. Its routines have frames of their own. -/
def stored : Code → List Int
  | const _ | load _ | global _ | closure _ => []
  | store slot value => value.stored ++ [slot]
  | block stores result => storedAll stores ++ result.stored
  | cond test onTrue onFalse _ => test.stored ++ (onTrue.stored ++ onFalse.stored)
  | call callee args _ => callee.stored ++ storedAll args

def storedAll : List Code → List Int
  | [] => []
  | c :: cs => c.stored ++ storedAll cs

end

end Code

/-! ## The walk -/

namespace ScopeTable

/-- The slots of the locals of a scope, in the order in which they were given out. -/
def localSlots (t : ScopeTable) (id : Nat) : List Int := (t.getD id default).locals.map fun l => (l.slot : Int)

variable {t t' t'' : ScopeTable} {id : Nat} {slots slots' : List Int} {bodies bodies' : List (Nat × List Int)}

theorem localSlots_push (t : ScopeTable) (s : Scope) (h : id < t.size) :
    localSlots (t.push s) id = t.localSlots id := by
  unfold localSlots
  rw [Array.getD_eq_getD_getElem?, Array.getD_eq_getD_getElem?, Array.getElem?_push, if_neg (Nat.ne_of_lt h)]

theorem localSlots_push_size (t : ScopeTable) (s : Scope) (h : s.locals = []) : localSlots (t.push s) t.size = [] := by
  unfold localSlots
  rw [Array.getD_eq_getD_getElem?, Array.getElem?_push_size, Option.getD_some, h]
  rfl

theorem localSlots_modify_ne (t : ScopeTable) {i : Nat} (f : Scope → Scope) (h : i ≠ id) :
    localSlots (t.modify i f) id = t.localSlots id := by
  unfold localSlots
  rw [Array.getD_eq_getD_getElem?, Array.getD_eq_getD_getElem?, Array.getElem?_modify, if_neg h]

theorem localSlots_addCapture (t : ScopeTable) (i : Nat) (x : String) (source : CaptureSource) (id : Nat) :
    localSlots (t.modify i (·.addCapture x source)) id = t.localSlots id := by
  by_cases h : i = id
  · unfold localSlots
    rw [Array.getD_eq_getD_getElem?, Array.getD_eq_getD_getElem?, Array.getElem?_modify, if_pos h]
    cases t[id]? <;> rfl
  · exact localSlots_modify_ne t _ h

/-- From `t` to `t'` the scope `id` got locals in these slots and the other scopes got none. The scopes of the lambdas
that were added have the locals that their bodies assign. -/
structure Allots (id : Nat) (t t' : ScopeTable) (slots : List Int) (bodies : List (Nat × List Int)) : Prop where
  size : t.size ≤ t'.size
  here : ∃ added, t'.localSlots id = t.localSlots id ++ added ∧ added.Perm slots
  elsewhere : ∀ i < t.size, i ≠ id → t'.localSlots i = t.localSlots i
  bodies : ∀ b ∈ bodies, t.size ≤ b.1 ∧ b.1 < t'.size ∧ (t'.localSlots b.1).Perm b.2

theorem Allots.nothing (hsize : t'.size = t.size) (h : ∀ i, t'.localSlots i = t.localSlots i) :
    Allots id t t' [] [] where
  size := Nat.le_of_eq hsize.symm
  here := ⟨[], by rw [h, List.append_nil], .refl _⟩
  elsewhere i _ _ := h i
  bodies := nofun

theorem allots_addLocal (x : String) (hid : id < t.size) :
    Allots id t (t.modify id (·.addLocal x)) [((t.getD id default).frameSize : Int)] [] where
  size := Nat.le_of_eq Array.size_modify.symm
  here := by
    refine ⟨_, ?_, .refl _⟩
    unfold localSlots
    rw [Array.getD_eq_getD_getElem?, Array.getD_eq_getD_getElem?, Array.getElem?_modify, if_pos rfl,
      Array.getElem?_eq_getElem hid]
    simp [Scope.addLocal]
  elsewhere i _ hne := localSlots_modify_ne t _ hne.symm
  bodies := nofun

theorem Allots.perm (h : Allots id t t' slots bodies) (hslots : slots.Perm slots') : Allots id t t' slots' bodies :=
  ⟨h.size, h.here.imp fun _ ⟨hadded, hperm⟩ => ⟨hadded, hperm.trans hslots⟩, h.elsewhere, h.bodies⟩

theorem Allots.append (hid : id < t.size) (h : Allots id t t' slots bodies) (h' : Allots id t' t'' slots' bodies') :
    Allots id t t'' (slots ++ slots') (bodies ++ bodies') where
  size := Nat.le_trans h.size h'.size
  here := by
    obtain ⟨added, hadded, hperm⟩ := h.here
    obtain ⟨added', hadded', hperm'⟩ := h'.here
    exact ⟨added ++ added', by rw [hadded', hadded, List.append_assoc], hperm.append hperm'⟩
  elsewhere i hi hne := by rw [h'.elsewhere i (Nat.lt_of_lt_of_le hi h.size) hne, h.elsewhere i hi hne]
  bodies b hb := by
    rcases List.mem_append.1 hb with hb | hb
    · obtain ⟨hlow, hhigh, hperm⟩ := h.bodies b hb
      -- The lambda has been left, so it is not the one that gets more locals.
      have hne : b.1 ≠ id := by omega
      rw [h'.elsewhere b.1 hhigh hne]
      exact ⟨hlow, Nat.lt_of_lt_of_le hhigh h'.size, hperm⟩
    · obtain ⟨hlow, hhigh, hperm⟩ := h'.bodies b hb
      exact ⟨Nat.le_trans h.size hlow, hhigh, hperm⟩

/-- What is assigned in a lambda goes to the scope that the lambda adds. -/
theorem Allots.lambda {s : Scope} (hs : s.locals = []) (hid : id < t.size)
    (h : Allots t.size (t.push s) t' slots bodies) : Allots id t t' [] ((t.size, slots) :: bodies) := by
  have hsize : (t.push s).size = t.size + 1 := Array.size_push s
  have hgrown := h.size
  have hold : ∀ i < t.size, t'.localSlots i = t.localSlots i := fun i hi => by
    rw [h.elsewhere i (by omega) (by omega), localSlots_push t s hi]
  refine ⟨by omega, ⟨[], by rw [hold id hid, List.append_nil], .refl _⟩, fun i hi _ => hold i hi, ?_⟩
  refine List.forall_mem_cons.2 ⟨⟨Nat.le_refl _, by omega, ?_⟩, fun b hb => ?_⟩
  · obtain ⟨added, hadded, hperm⟩ := h.here
    rw [localSlots_push_size t s hs, List.nil_append] at hadded
    rwa [← hadded] at hperm
  · obtain ⟨hlow, hhigh, hperm⟩ := h.bodies b hb
    exact ⟨by omega, hhigh, hperm⟩

end ScopeTable

namespace Resolver

open ClosureLang.ScopeTable (Allots)

variable {r r' : Resolver}

theorem localSlots_capture (r : Resolver) (x : String) (source : CaptureSource) (frame i : Nat) :
    (r.capture x source frame).2.scopes.localSlots i = r.scopes.localSlots i := by
  unfold capture
  dsimp only
  split
  · rfl
  · exact ScopeTable.localSlots_addCapture _ _ _ _ _

theorem localSlots_captureThrough (r : Resolver) (x : String) (var : Var) (source : CaptureSource) (ids : List Nat)
    (i : Nat) : (r.captureThrough x var source ids).2.scopes.localSlots i = r.scopes.localSlots i := by
  induction ids generalizing r var source with
  | nil => rfl
  | cons id ids ih => exact (ih _ _ _).trans (localSlots_capture r x source id i)

/-- Captures take slots too, but a lambda that captures a name gets no local. -/
theorem allots_lookup {x : String} {v : Var} (h : r.lookup x = .ok (v, r')) :
    Allots (innermost r.frames) r.scopes r'.scopes [] [] := by
  refine .nothing (makes_lookup h).size fun i => ?_
  unfold lookup at h
  split at h
  · cases h
  next found _ =>
  have hslots := localSlots_captureThrough r x found.var (if found.isItself then .itself else .parent found.var)
    found.crossed i
  rwa [Except.ok.inj h] at hslots

theorem allots_declare {statements : List Expr} {declared locals : List BlockLocal}
    (h : r.declare declared statements = (r', .ok locals)) (hid : innermost r.frames < r.scopes.size) :
    ∃ added, locals = declared ++ added ∧ r'.frames = r.frames ∧
      Allots (innermost r.frames) r.scopes r'.scopes (added.map fun l => (l.slot : Int)) [] := by
  induction statements generalizing r declared with
  | nil =>
    cases h
    exact ⟨[], (List.append_nil _).symm, rfl, .nothing rfl fun _ => rfl⟩
  | cons e statements ih =>
    cases e with
    | assign span x value var =>
      rw [declare] at h
      split at h
      · cases h
      obtain ⟨added, rfl, hframes, hadded⟩ := ih (r := r.withLocal x) h (by rwa [withLocal, Array.size_modify])
      have hadd := (ScopeTable.allots_addLocal x hid).append hid hadded
      exact ⟨_ :: added, List.append_assoc .., hframes, hadd⟩
    | number | name | call | lambda | block | cond => simp [declare] at h

theorem allots_openBlock {span : Span} {statements : List Expr} (h : r.openBlock span statements = (r', none))
    (hid : innermost r.frames < r.scopes.size) :
    ∃ locals, r'.frames = .block (innermost r.frames) locals :: r.frames ∧
      Allots (innermost r.frames) r.scopes r'.scopes (locals.map fun l => (l.slot : Int)) [] := by
  obtain ⟨last, r₁, locals, -, -, hdeclare, rfl⟩ := openBlock_eq h
  obtain ⟨added, heq, hframes, hadded⟩ := allots_declare hdeclare hid
  obtain rfl : locals = added := heq
  refine ⟨locals, ?_, hadded⟩
  rw [openFrame, current, hframes]
  rfl

theorem Ready.innermost_lt (hr : Ready r) : innermost r.frames < r.scopes.size := by
  obtain ⟨s, hs⟩ := hr.scope
  exact (Array.getElem?_eq_some_iff.1 hs).1

end Resolver

namespace Expr

open Resolver Resolution
open ClosureLang.ScopeTable (Allots)

mutual

/-- The walk gives a slot to every assignment in the tree. -/
theorem resolve_allots {r r' : Resolver} {binding : Option String} {e' : Expr} (e : Expr)
    (h : e.resolve binding r = .done e' r') (hr : Ready r) (hb : ∀ b, binding = some b → Defining b r.frames) :
    Allots (innermost r.frames) r.scopes r'.scopes e'.slots e'.bodies := by
  have hid := hr.innermost_lt
  cases e with
  | number span value =>
    cases h
    exact .nothing rfl fun _ => rfl
  | name span x var =>
    rw [resolve] at h
    split at h
    · next hlookup =>
      cases h
      exact allots_lookup hlookup
    · cases h
  | call span callee args =>
    rw [resolve] at h
    obtain ⟨callee', r₁, hcallee, h⟩ := andThen_eq_done h
    obtain ⟨args', hargs, rfl⟩ := map_eq_done h
    obtain ⟨hy, hf⟩ := resolve_sound callee hcallee hr (by simp)
    have hargs := resolveAll_allots args hargs (hr.advance hy.advances hf)
    rw [hf] at hargs
    exact (resolve_allots callee hcallee hr (by simp)).append hid hargs
  | lambda span params body frame label =>
    rw [resolve] at h
    split at h
    · cases h
    next params' names hparams =>
    obtain ⟨body', r₁, hbody, h⟩ := andThen_eq_done h
    cases h
    exact Allots.lambda rfl hid (resolve_allots body hbody (hr.openLambda (label.or binding) names hb) (by simp))
  | block span statements =>
    rw [resolve] at h
    split at h
    · cases h
    next r₁ hopen =>
    obtain ⟨statements', r₂, hstatements, h⟩ := andThen_eq_done h
    cases h
    obtain ⟨locals, hframes, hform, hnames, -, hr₁, -⟩ := openBlock_sound hopen hr
    obtain ⟨locals', hframes', hlocals⟩ := allots_openBlock hopen hid
    obtain rfl : locals = locals' := by simpa [hframes] using hframes'
    have hslots : ∀ x ∈ assigned statements, Frame.slot? x r₁.frames ≠ none := by
      rw [hframes, ← hnames]
      exact fun x hx => slot?_block_ne_none hx
    obtain ⟨hy, -⟩ := resolveStatements_sound statements hstatements hr₁ hform hslots
    have hinner := resolveStatements_allots statements hstatements hr₁ hform hslots
    -- The slots that the block was given are those that its statements name.
    have hvalid := hr₁.valid
    have htree := hy.holds _ (.refl _ _)
    rw [hframes] at hvalid htree
    have hlocal := localSlots_of_block hvalid.1.names hnames htree
    rw [hframes] at hinner
    refine (hlocals.append hid hinner).perm (List.Perm.symm ?_)
    have hperm := slotsAll_perm statements'
    rwa [hlocal, List.map_map] at hperm
  | assign span x value var => cases h
  | cond span test onTrue onFalse =>
    rw [resolve] at h
    obtain ⟨test', r₁, htest, h⟩ := andThen_eq_done h
    obtain ⟨onTrue', r₂, hthen, h⟩ := andThen_eq_done h
    obtain ⟨onFalse', helse, rfl⟩ := map_eq_done h
    obtain ⟨hy, hf⟩ := resolve_sound test htest hr (by simp)
    have hr₁ := hr.advance hy.advances hf
    obtain ⟨hy₁, hf₁⟩ := resolve_sound onTrue hthen hr₁ (by simp)
    have hthen := resolve_allots onTrue hthen hr₁ (by simp)
    have helse := resolve_allots onFalse helse (hr₁.advance hy₁.advances hf₁) (by simp)
    rw [hf₁] at helse
    have hbranches := hthen.append hr₁.innermost_lt helse
    rw [hf] at hbranches
    exact (resolve_allots test htest hr (by simp)).append hid hbranches

theorem resolveAll_allots {r r' : Resolver} {es' : List Expr} (es : List Expr) (h : resolveAll es r = .done es' r')
    (hr : Ready r) : Allots (innermost r.frames) r.scopes r'.scopes (slotsAll es') (bodiesAll es') := by
  cases es with
  | nil =>
    cases h
    exact .nothing rfl fun _ => rfl
  | cons e es =>
    rw [resolveAll] at h
    obtain ⟨e', r₁, he, h⟩ := andThen_eq_done h
    obtain ⟨rest', hes, rfl⟩ := map_eq_done h
    obtain ⟨hy, hf⟩ := resolve_sound e he hr (by simp)
    have hes := resolveAll_allots es hes (hr.advance hy.advances hf)
    rw [hf] at hes
    exact (resolve_allots e he hr (by simp)).append hr.innermost_lt hes

/-- The slots of the block itself were given out when it was opened. -/
theorem resolveStatements_allots {r r' : Resolver} {es' : List Expr} (es : List Expr)
    (h : resolveStatements es r = .done es' r') (hr : Ready r) (hform : BlockForm es)
    (hs : ∀ x ∈ assigned es, Frame.slot? x r.frames ≠ none) :
    Allots (innermost r.frames) r.scopes r'.scopes (innerSlots es') (bodiesAll es') := by
  cases hform with
  | @result e he =>
    rw [resolveStatements_result he] at h
    obtain ⟨e', r₁, he', h⟩ := andThen_eq_done h
    cases h
    obtain ⟨hy, -⟩ := resolve_sound e he' hr (by simp)
    rw [innerSlots_result (hy.holds _ (.refl _ _)).isAssign.2, bodiesAll, bodiesAll, List.append_nil]
    exact resolve_allots e he' hr (by simp)
  | @assign span x value var es hform =>
    rw [resolveStatements] at h
    obtain ⟨value', r₁, hvalue, h⟩ := andThen_eq_done h
    obtain ⟨es', hes, rfl⟩ := map_eq_done h
    obtain ⟨s, hslot⟩ := Option.ne_none_iff_exists'.1 (hs x List.mem_cons_self)
    have hdefining : ∀ b, some x = some b → Defining b (r.mark x .defining).frames := by
      simpa using defining_mark hslot
    obtain ⟨hy, hf⟩ := resolve_sound value hvalue (hr.mark x .defining) hdefining
    have hr₁ := (hr.mark x .defining).advance hy.advances hf
    have hslots : ∀ y ∈ assigned es, Frame.slot? y (r₁.mark x .defined).frames ≠ none := by
      intro y hy
      simpa [hf, slot?_mark] using hs y (List.mem_cons_of_mem _ hy)
    have hvalue := resolve_allots value hvalue (hr.mark x .defining) hdefining
    have hes := resolveStatements_allots es hes (hr₁.mark x .defined) hform hslots
    rw [frames_mark, innermost_mark, scopes_mark] at hvalue
    rw [frames_mark, innermost_mark, scopes_mark, hf, frames_mark, innermost_mark] at hes
    exact hvalue.append hr.innermost_lt hes

end

end Expr

/-! ## Code -/

/-- The body stores in every slot at most once, and in no slot of a capture. -/
def Routine.AssignsOnce (r : Routine) : Prop := (r.body.stored ++ r.captures.map (·.slot)).Nodup

namespace ScopeTable

variable {t : ScopeTable} {id : Nat} {s : Scope} {loads : List CaptureLoad} {span : Span}

theorem layout_eq_ok (hd : t.Dense) (hn : ∀ id s, t[id]? = some s → t.Nested id s)
    (h : t.layout id span = .ok (s, loads)) : t[id]? = some s ∧ loads = s.captures.map t.load := by
  cases hs : t[id]? with
  | none =>
    rw [layout, hs] at h
    cases h
  | some s' =>
    cases ((hn id s' hs).layout hd hs span).symm.trans h
    exact ⟨rfl, rfl⟩

/-- A frame has room for each of its locals and captures. -/
theorem Dense.assignsOnce (hd : t.Dense) (hs : t[id]? = some s) {body : Code}
    (hbody : (t.localSlots id).Perm body.stored) :
    (Routine.ofScope s (s.captures.map t.load) body).AssignsOnce := by
  have hnodup : (s.slots.map fun n : Nat => (n : Int)).Nodup :=
    ((hd hs).nodup_iff.2 List.nodup_range).map fun _ _ => Int.ofNat_inj.1
  rw [Scope.slots, List.map_append, List.map_map, List.map_map] at hnodup
  have hlocals : t.localSlots id = s.locals.map fun l => (l.slot : Int) := by
    rw [localSlots, Array.getD_eq_getD_getElem?, hs]
    rfl
  have hcaptures : (s.captures.map t.load).map (·.slot) = s.captures.map fun c => (c.slot : Int) := by
    rw [List.map_map]
    exact List.map_congr_left fun c _ => t.slot_load c
  rw [hlocals] at hbody
  exact ((hbody.append (.of_eq hcaptures.symm)).nodup_iff).1 hnodup

end ScopeTable

namespace Expr

variable {t : ScopeTable}

mutual

/-- Code stores where its tree assigns. If the lambdas of the tree have the locals that their bodies assign, no routine
stores twice in a slot. -/
theorem compile_stored (hd : t.Dense) (hn : ∀ id s, t[id]? = some s → t.Nested id s) {frame : Nat} (e : Expr)
    (he : ∀ b ∈ e.bodies, (t.localSlots b.1).Perm b.2) {c : Code} (h : e.compile t frame = .ok c) :
    c.stored = e.slots ∧ c.Every Routine.AssignsOnce := by
  cases e with
  | number =>
    cases h
    exact ⟨rfl, trivial⟩
  | name span x var =>
    rcases var with _ | v
    · cases h
    cases v with
    | global =>
      cases h
      exact ⟨rfl, trivial⟩
    | arg | slot | captured =>
      obtain ⟨n, -, h⟩ := exists_of_bind_eq_ok h
      cases h
      exact ⟨rfl, trivial⟩
  | call span callee args =>
    rw [compile] at h
    obtain ⟨c₁, hc, h⟩ := exists_of_bind_eq_ok h
    obtain ⟨cs, hcs, h⟩ := exists_of_bind_eq_ok h
    cases h
    obtain ⟨hcallee, hargs⟩ := List.forall_mem_append.1 he
    obtain ⟨hcallee, hevery⟩ := compile_stored hd hn callee hcallee hc
    obtain ⟨hargs, heveryAll⟩ := compileAll_stored hd hn args hargs hcs
    exact ⟨congrArg₂ _ hcallee hargs, hevery, heveryAll⟩
  | lambda span params body id label =>
    rcases id with _ | id
    · cases h
    rw [compile] at h
    obtain ⟨⟨s, loads⟩, hlayout, h⟩ := exists_of_bind_eq_ok h
    obtain ⟨c₁, hc, h⟩ := exists_of_bind_eq_ok h
    cases h
    obtain ⟨hown, hinner⟩ := List.forall_mem_cons.1 he
    obtain ⟨hbody, hevery⟩ := compile_stored hd hn body hinner hc
    obtain ⟨hs, rfl⟩ := ScopeTable.layout_eq_ok hd hn hlayout
    exact ⟨rfl, Routine.every_iff.2 ⟨hd.assignsOnce hs (hbody ▸ hown), hevery⟩⟩
  | block span statements =>
    rw [compile] at h
    obtain ⟨⟨stores, result⟩, hs, h⟩ := exists_of_bind_eq_ok h
    cases h
    obtain ⟨hstored, hstores, hresult⟩ := compileStatements_stored hd hn statements he hs
    exact ⟨hstored, hstores, hresult⟩
  | assign => cases h
  | cond span test onTrue onFalse =>
    rw [compile] at h
    obtain ⟨c₁, htest, h⟩ := exists_of_bind_eq_ok h
    obtain ⟨c₂, hTrue, h⟩ := exists_of_bind_eq_ok h
    obtain ⟨c₃, hFalse, h⟩ := exists_of_bind_eq_ok h
    cases h
    obtain ⟨he₁, he⟩ := List.forall_mem_append.1 he
    obtain ⟨he₂, he₃⟩ := List.forall_mem_append.1 he
    obtain ⟨htest, h₁⟩ := compile_stored hd hn test he₁ htest
    obtain ⟨hTrue, h₂⟩ := compile_stored hd hn onTrue he₂ hTrue
    obtain ⟨hFalse, h₃⟩ := compile_stored hd hn onFalse he₃ hFalse
    exact ⟨congrArg₂ _ htest (congrArg₂ _ hTrue hFalse), h₁, h₂, h₃⟩

theorem compileAll_stored (hd : t.Dense) (hn : ∀ id s, t[id]? = some s → t.Nested id s) {frame : Nat} (es : List Expr)
    (hes : ∀ b ∈ bodiesAll es, (t.localSlots b.1).Perm b.2) {cs : List Code} (h : compileAll t frame es = .ok cs) :
    Code.storedAll cs = slotsAll es ∧ Code.EveryAll Routine.AssignsOnce cs := by
  cases es with
  | nil =>
    cases h
    exact ⟨rfl, trivial⟩
  | cons e es =>
    rw [compileAll] at h
    obtain ⟨c, hc, h⟩ := exists_of_bind_eq_ok h
    obtain ⟨cs, hcs, h⟩ := exists_of_bind_eq_ok h
    cases h
    obtain ⟨he, hes⟩ := List.forall_mem_append.1 hes
    obtain ⟨hstored, hevery⟩ := compile_stored hd hn e he hc
    obtain ⟨hstoredAll, heveryAll⟩ := compileAll_stored hd hn es hes hcs
    exact ⟨congrArg₂ _ hstored hstoredAll, hevery, heveryAll⟩

theorem compileStatements_stored (hd : t.Dense) (hn : ∀ id s, t[id]? = some s → t.Nested id s) {frame : Nat}
    {span : Span} (es : List Expr) (hes : ∀ b ∈ bodiesAll es, (t.localSlots b.1).Perm b.2) {stores : List Code}
    {result : Code} (h : compileStatements t frame span es = .ok (stores, result)) :
    Code.storedAll stores ++ result.stored = slotsAll es ∧ Code.EveryAll Routine.AssignsOnce stores ∧
      result.Every Routine.AssignsOnce := by
  match es with
  | [] => cases h
  | [e] =>
    rw [compileStatements] at h
    obtain ⟨c, hc, h⟩ := exists_of_bind_eq_ok h
    cases h
    obtain ⟨he, -⟩ := List.forall_mem_append.1 hes
    obtain ⟨hstored, hevery⟩ := compile_stored hd hn e he hc
    exact ⟨hstored.trans (List.append_nil _).symm, trivial, hevery⟩
  | e :: e₁ :: es =>
    cases e with
    | assign aspan x value var =>
      rcases var with _ | v
      · cases h
      cases v with
      | arg | captured | global => cases h
      | slot n =>
        rw [compileStatements] at h
        · obtain ⟨c, hc, h⟩ := exists_of_bind_eq_ok h
          obtain ⟨⟨stores, result⟩, hs, h⟩ := exists_of_bind_eq_ok h
          cases h
          obtain ⟨hvalue, hes⟩ := List.forall_mem_append.1 hes
          obtain ⟨hstored, hevery⟩ := compile_stored hd hn value hvalue hc
          obtain ⟨hrest, hstores, hresult⟩ := compileStatements_stored hd hn (e₁ :: es) hes hs
          refine ⟨?_, ⟨hevery, hstores⟩, hresult⟩
          show c.stored ++ [(n : Int)] ++ Code.storedAll stores ++ result.stored = value.slots ++ [(n : Int)] ++ _
          rw [List.append_assoc, hrest, hstored]
        · exact nofun
    | number | name | call | lambda | block | cond => cases h

end

end Expr

/-- The routines of a program store at most once in every slot. -/
theorem Resolver.program_assignsOnce {globals : Prelude} {e e' : Expr} {r : Resolver} {p : Program}
    (h : (Resolver.new globals.names).program e = .done e' r) (hp : e'.toProgram r.scopes globals = .ok p) :
    p.main.Every Routine.AssignsOnce := by
  have hdescribes := program_describes h
  obtain ⟨tree, r', htree, h⟩ := Resolution.andThen_eq_done h
  cases h
  have hallots := Expr.resolve_allots e htree (ready_main _) (by simp)
  obtain ⟨⟨s, loads⟩, hlayout, hp⟩ := exists_of_bind_eq_ok hp
  obtain ⟨c, hc, hp⟩ := exists_of_bind_eq_ok hp
  cases hp
  obtain ⟨hs, rfl⟩ := ScopeTable.layout_eq_ok hdescribes.dense hdescribes.nested hlayout
  obtain ⟨hstored, hevery⟩ := Expr.compile_stored hdescribes.dense hdescribes.nested e'
    (fun b hb => (hallots.bodies b hb).2.2) hc
  refine Routine.every_iff.2 ⟨ScopeTable.Dense.assignsOnce hdescribes.dense hs ?_, hevery⟩
  -- The scope of the program has no locals when the walk begins.
  obtain ⟨added, hadded, hperm⟩ := hallots.here
  rw [hstored]
  exact .trans (.of_eq hadded) hperm

end ClosureLang
