import ClosureLang.Proofs.Elaboration

/-!
# The walk gives resolved trees

Whatever the walk over a tree accepts is a resolved tree in the sense of `Elab`, for the table that the walk ends
with. The invariant of the walk says that every open lambda has only valid captures and that every open block has
slots of its own. A search for a name adds one capture to each lambda that it crosses, and the captures are made once
for each name. This is right because the frames around a lambda do not change while the walk is inside it, so that a
name means the same whenever it is looked for across that lambda.
-/

namespace ClosureLang

open ClosureLang.Frame

/-! ## The invariant of the walk -/

/-- Every open lambda has valid captures, every open block valid slots. -/
def FramesValid (t : ScopeTable) (globals : List String) : List Frame → Prop
  | [] => True
  | .lambda id params binding :: outer =>
    (∃ s, LambdaValid t globals outer id params binding s) ∧ FramesValid t globals outer
  | .block owner locals :: outer => BlockValid t outer owner locals ∧ FramesValid t globals outer

section Frames

variable {t t' : ScopeTable} {globals : List String} {x : String} {frames : List Frame} {ids : List Nat}

theorem FramesValid.grow (hg : t.Grows ids t') : ∀ {frames : List Frame},
    (∀ i ∈ lambdaIds frames, ∀ s s', t[i]? = some s → t'[i]? = some s' → s'.captures = s.captures) →
    FramesValid t globals frames → FramesValid t' globals frames
  | [], _, _ => trivial
  | .lambda id params binding :: outer, hc, h => by
    obtain ⟨⟨s, hs⟩, houter⟩ := h
    obtain ⟨s', hs', -, -⟩ := hg.scope hs.scope
    have hcaptures := hc id (by simp [lambdaIds]) s s' hs.scope hs'
    exact ⟨⟨s', hs.grow hg hs' hcaptures⟩, houter.grow hg fun i hi => hc i (by simp [lambdaIds, hi])⟩
  | .block owner locals :: outer, hc, h => ⟨h.1.grow hg, h.2.grow hg hc⟩

theorem FramesValid.lt_size (h : FramesValid t globals frames) {i : Nat} (hi : i ∈ lambdaIds frames) : i < t.size := by
  induction frames with
  | nil => cases hi
  | cons frame outer ih =>
    cases frame with
    | lambda id params binding =>
      rcases List.mem_cons.1 hi with rfl | hi
      · obtain ⟨⟨s, hs⟩, -⟩ := h
        exact (Array.getElem?_eq_some_iff.1 hs.scope).1
      · exact ih h.2 hi
    | block owner locals => exact ih h.2 hi

theorem FramesValid.innermost_mem (h : FramesValid t globals frames) (hne : frames ≠ []) :
    innermost frames ∈ lambdaIds frames := by
  induction frames with
  | nil => exact absurd rfl hne
  | cons frame outer ih =>
    cases frame with
    | lambda id params binding => exact List.mem_cons_self
    | block owner locals =>
      have howner : innermost (.block owner locals :: outer) = innermost outer := h.1.owner_eq
      rw [howner]
      exact ih h.2 h.1.outer_ne

theorem FramesValid.blockSlots_sub (h : FramesValid t globals frames) {n : Nat} (hn : n ∈ blockSlots frames) :
    ∃ s, t[innermost frames]? = some s ∧ n ∈ s.locals.map (·.slot) := by
  induction frames with
  | nil => cases hn
  | cons frame outer ih =>
    cases frame with
    | lambda id params binding => cases hn
    | block owner locals =>
      have howner : innermost (.block owner locals :: outer) = owner := rfl
      rw [howner]
      rcases List.mem_append.1 hn with hn | hn
      · obtain ⟨s, hs, hl⟩ := h.1.scope
        exact ⟨s, hs, hl hn⟩
      · rw [h.1.owner_eq]
        exact ih h.2 hn

/-! ## Marking -/

@[simp] theorem lambdaIds_mark (x : String) (p : Progress) (frames : List Frame) :
    lambdaIds (mark x p frames) = lambdaIds frames := by
  rcases frames with _ | ⟨_ | _, _⟩ <;> rfl

@[simp] theorem innermost_mark (x : String) (p : Progress) (frames : List Frame) :
    innermost (mark x p frames) = innermost frames := by
  rcases frames with _ | ⟨_ | _, _⟩ <;> rfl

@[simp] theorem tail_mark (x : String) (p : Progress) (frames : List Frame) :
    (mark x p frames).tail = frames.tail := by
  rcases frames with _ | ⟨_ | _, _⟩ <;> rfl

@[simp] theorem mark_mark (x : String) (p p' : Progress) (frames : List Frame) :
    mark x p' (mark x p frames) = mark x p' frames := by
  rcases frames with _ | ⟨_ | ⟨owner, locals⟩, outer⟩ <;> simp only [mark, List.map_map]
  congr 2
  refine List.map_congr_left fun l _ => ?_
  by_cases h : l.name = x <;> simp [h]

theorem map_mark (x : String) (p : Progress) (locals : List BlockLocal) :
    (locals.map fun l => if l.name == x then { l with progress := p } else l).map (fun l => (l.name, l.slot)) =
      locals.map fun l => (l.name, l.slot) := by
  rw [List.map_map]
  refine List.map_congr_left fun l _ => ?_
  by_cases h : l.name = x <;> simp [h]

/-- Only the names and slots of a block's locals matter to whether they are valid. -/
theorem BlockValid.congr {outer : List Frame} {owner : Nat} {locals locals' : List BlockLocal}
    (heq : locals'.map (fun l => (l.name, l.slot)) = locals.map fun l => (l.name, l.slot))
    (h : BlockValid t outer owner locals) : BlockValid t outer owner locals' := by
  have hnames : locals'.map (·.name) = locals.map (·.name) := by
    simpa [Function.comp_def] using congrArg (List.map Prod.fst) heq
  have hslots : locals'.map (·.slot) = locals.map (·.slot) := by
    simpa [Function.comp_def] using congrArg (List.map Prod.snd) heq
  exact ⟨h.outer_ne, h.owner_eq, by rw [hslots]; exact h.scope, by rw [hnames]; exact h.names,
    by rw [hslots]; exact h.nodup, by rw [hslots]; exact h.fresh⟩

theorem framesValid_mark (x : String) (p : Progress) :
    FramesValid t globals (mark x p frames) ↔ FramesValid t globals frames := by
  rcases frames with _ | ⟨_ | ⟨owner, locals⟩, outer⟩
  · exact Iff.rfl
  · exact Iff.rfl
  · rw [mark, FramesValid, FramesValid]
    exact and_congr_left' ⟨.congr (map_mark x p locals).symm, .congr (map_mark x p locals)⟩

theorem find?_mark (x y : String) (p : Progress) (locals : List BlockLocal) :
    (locals.map fun l => if l.name == x then { l with progress := p } else l).find? (·.name == y) =
      (locals.find? (·.name == y)).map fun l => if l.name == x then { l with progress := p } else l := by
  rw [List.find?_map]
  congr 2
  funext l
  by_cases h : l.name = x <;> simp [h]

theorem slot?_mark (x y : String) (p : Progress) (frames : List Frame) :
    slot? y (mark x p frames) = slot? y frames := by
  rcases frames with _ | ⟨_ | ⟨owner, locals⟩, outer⟩
  · rfl
  · rfl
  · rw [mark, slot?, slot?, find?_mark, Option.map_map]
    congr 1
    funext l
    by_cases h : l.name = x <;> simp [h]

theorem slot?_block_ne_none {owner : Nat} {locals : List BlockLocal} {outer : List Frame}
    (h : x ∈ locals.map (·.name)) : slot? x (.block owner locals :: outer) ≠ none := by
  obtain ⟨l, hl, rfl⟩ := List.mem_map.1 h
  simpa [slot?] using ⟨l, hl, rfl⟩

/-- A local that is marked as about to be assigned is. -/
theorem defining_mark {s : Nat} (h : slot? x frames = some s) : Defining x (mark x .defining frames) := by
  rcases frames with _ | ⟨_ | ⟨owner, locals⟩, outer⟩
  · cases h
  · cases h
  · obtain ⟨l, hl, -⟩ := Option.map_eq_some_iff.1 h
    have hname : l.name = x := by simpa using List.find?_some hl
    refine ⟨{ l with progress := .defining }, ?_, rfl⟩
    rw [find?_mark, hl, Option.map_some, hname, beq_self_eq_true, if_pos rfl]

end Frames

/-! ## Looking names up -/

namespace Resolver

/-- From `r` to `r'` the table grew, and the invariant was kept for these frames. -/
structure Advances (frames : List Frame) (r r' : Resolver) : Prop where
  globals : r'.globals = r.globals
  grows : r.scopes.Grows (lambdaIds frames) r'.scopes
  dense : r.scopes.Dense → r'.scopes.Dense
  valid : FramesValid r.scopes r.globals frames → FramesValid r'.scopes r.globals frames

variable {r r' r'' : Resolver} {x : String} {frames : List Frame}

theorem Advances.refl (frames : List Frame) (r : Resolver) : Advances frames r r :=
  ⟨rfl, .refl _ _, id, id⟩

theorem Advances.trans (h : Advances frames r r') (h' : Advances frames r' r'') : Advances frames r r'' where
  globals := h'.globals.trans h.globals
  grows := h.grows.trans h'.grows
  dense hd := h'.dense (h.dense hd)
  valid hv := h.globals ▸ h'.valid (h.globals.symm ▸ h.valid hv)

/-- What changes only frames further out keeps a frame inside them valid. -/
theorem Advances.cons (frame : Frame) (h : Advances frames r r') : Advances (frame :: frames) r r' where
  globals := h.globals
  grows := h.grows.weaken (by cases frame <;> simp [lambdaIds])
  dense := h.dense
  valid hv := by
    cases frame with
    | lambda id params binding =>
      obtain ⟨⟨s, hs⟩, houter⟩ := hv
      obtain ⟨s', hs', -, heq⟩ := h.grows.scope hs.scope
      have hid : id ∉ lambdaIds frames := fun hi => Nat.lt_irrefl _ (hs.inside id hi)
      exact ⟨⟨s', hs.grow h.grows hs' (by rw [heq hid])⟩, h.valid houter⟩
    | block owner locals => exact ⟨hv.1.grow h.grows, h.valid hv.2⟩

theorem frames_capture (r : Resolver) (x : String) (source : CaptureSource) (id : Nat) :
    (r.capture x source id).2.frames = r.frames := by
  unfold capture
  dsimp only
  split <;> rfl

/-- A lambda captures a name once. -/
theorem capture_sound {id : Nat} {params : List String} {binding : Option String} {outer : List Frame}
    (source : CaptureSource) (hv : FramesValid r.scopes r.globals (.lambda id params binding :: outer))
    (hx : x ∉ params) (hi : source = .itself → binding = some x)
    (hp : ∀ v, source = .parent v → Bound x outer ∧ Refers r.scopes r.globals x outer v) :
    RefersCapture (r.capture x source id).2.scopes id x (r.capture x source id).1 ∧
      Advances (.lambda id params binding :: outer) r (r.capture x source id).2 := by
  obtain ⟨⟨s, hs⟩, houter⟩ := hv
  have hget : r.scopes.getD id default = s := by
    rw [Array.getD_eq_getD_getElem?, hs.scope]
    rfl
  unfold capture
  rw [hget]
  dsimp only
  cases hfind : s.captures.findIdx? (·.name == x) with
  | some i =>
    obtain ⟨hlt, hname, -⟩ := List.findIdx?_eq_some_iff_getElem.1 hfind
    refine ⟨⟨i, s, s.captures[i], hs.scope, List.getElem?_eq_getElem hlt, by simpa using hname, rfl⟩, .refl _ _⟩
  | none =>
    -- Only the scope of this lambda changes, and it is further in than all those around it.
    have hg : r.scopes.Grows [id] (r.scopes.modify id (·.addCapture x source)) :=
      ScopeTable.grows_modify (List.mem_singleton.2 rfl) _ fun s => s.extends_addCapture x source
    have hs' : (r.scopes.modify id (·.addCapture x source))[id]? = some (s.addCapture x source) := by
      simp [Array.getElem?_modify, hs.scope]
    refine ⟨⟨s.captures.length, s.addCapture x source, ⟨x, source, s.frameSize⟩, hs', ?_, rfl, rfl⟩, rfl, ?_, ?_, ?_⟩
    · simp [Scope.addCapture]
    · exact hg.weaken (by simp [lambdaIds])
    · exact fun hd => hd.modify id fun s hs => hs.addCapture x source
    · intro _
      refine ⟨⟨s.addCapture x source, hs', hs.params_eq, hs.parent_eq, ?_, hs.defining, hs.inside⟩, ?_⟩
      · intro c hc
        rcases List.mem_append.1 hc with hc | hc
        · exact (hs.captures c hc).grow hg
        · obtain rfl := List.mem_singleton.1 hc
          exact ⟨hx, hi, fun v hv => ⟨(hp v hv).1, (hp v hv).2.grow hg⟩⟩
      · refine houter.grow hg fun i hmem s₁ s₂ h₁ h₂ => ?_
        obtain ⟨s₃, h₃, -, heq⟩ := hg.scope h₁
        have hne : i ∉ [id] := by
          have := hs.inside i hmem
          simp
          omega
        rw [h₂] at h₃
        cases h₃
        rw [heq hne]

theorem captureThrough_concat (r : Resolver) (x : String) (var : Var) (source : CaptureSource) (ids : List Nat)
    (id : Nat) :
    r.captureThrough x var source (ids ++ [id]) =
      (r.captureThrough x var source ids).2.capture x
        (if ids = [] then source else .parent (r.captureThrough x var source ids).1) id := by
  induction ids generalizing r var source with
  | nil => rfl
  | cons i ids ih =>
    rw [List.cons_append, captureThrough, captureThrough]
    dsimp only
    rw [ih]
    by_cases h : ids = []
    · subst h
      rfl
    · simp [h]

theorem frames_captureThrough (r : Resolver) (x : String) (var : Var) (source : CaptureSource) (ids : List Nat) :
    (r.captureThrough x var source ids).2.frames = r.frames := by
  induction ids generalizing r var source with
  | nil => rfl
  | cons i ids ih =>
    rw [captureThrough]
    dsimp only
    rw [ih, frames_capture]

/-- Where the captures of a found name start. -/
def Found.source (found : Found) : CaptureSource := if found.isItself then .itself else .parent found.var

/-- Passing a found name inwards through the lambdas `ids` gives its place in the innermost of the frames. -/
def Found.Places (found : Found) (globals : List String) (x : String) (frames : List Frame) (ids : List Nat) : Prop :=
  ∀ r : Resolver, r.globals = globals → FramesValid r.scopes globals frames →
    Refers (r.captureThrough x found.var found.source ids).2.scopes globals x frames
      (r.captureThrough x found.var found.source ids).1 ∧
    Advances frames r (r.captureThrough x found.var found.source ids).2

/-- How a search that started further in can end when it goes on with `frames`: at a global name; at the name that the
lambda searched last is assigned to, which then stands for the closure; or at any other name, after crossing some
lambdas. -/
inductive Found.Ends (found : Found) (globals : List String) (x : String) (inner : Option Frame) (crossed : List Nat)
    (frames : List Frame) : Prop where
  | global (unbound : Bound x frames = false) (var : RefersGlobal globals x found.var) (ids : found.crossed = [])
  | itself (bound : Bound x frames = true) (binds : inner.any (·.binds x) = true) (defining : Defining x frames)
      (itself : found.isItself = true) (ids : found.crossed = crossed)
  | place (bound : Bound x frames = true) (passed : List Nat) (ids : found.crossed = passed ++ crossed)
      (itself : passed = [] → found.isItself = false) (places : found.Places globals x frames passed)

theorem search_ends {globals : List String} {found : Found} {inner : Option Frame} {crossed : List Nat}
    (h : search globals x inner crossed frames = .ok found) : found.Ends globals x inner crossed frames := by
  induction frames generalizing inner crossed with
  | nil =>
    rw [search] at h
    split at h
    · next i hi =>
      cases h
      exact .global rfl ⟨i, hi, rfl⟩ rfl
    · cases h
  | cons frame outer ih =>
    cases frame with
    | lambda id params binding =>
      rw [search] at h
      cases hi : params.idxOf? x with
      | some i =>
        rw [hi] at h
        cases h
        have hx : x ∈ params := by
          rw [← List.isSome_idxOf?, hi]
          rfl
        refine .place (by simp [declares, hx]) [] rfl (fun _ => rfl) fun r _ hv => ?_
        rw [captureThrough]
        exact ⟨by rw [Refers, hi], .refl _ _⟩
      | none =>
        rw [hi] at h
        have hx : x ∉ params := List.idxOf?_eq_none_iff.1 hi
        have hbound : Bound x (.lambda id params binding :: outer) = Bound x outer := by simp [declares, hx]
        cases ih h with
        | global unbound var ids => exact .global (hbound.trans unbound) var ids
        | itself bound binds defining itself ids =>
          -- The lambda is the one that is assigned to the name, so it captures itself.
          have hbinding : binding = some x := by simpa [Frame.binds] using binds
          refine .place (hbound.trans bound) [id] ids (by simp) fun r hr hv => ?_
          subst hr
          have hsource : found.source = .itself := by simp [Found.source, itself]
          obtain ⟨hrefers, hadv⟩ := capture_sound found.source hv hx (fun _ => hbinding)
            (fun v hv => by rw [hsource] at hv; cases hv)
          refine ⟨?_, hadv⟩
          rw [Refers, hi]
          simp only [bound, if_true]
          exact hrefers
        | place bound passed ids itself places =>
          -- The name has a place in the frame around the lambda, and the lambda captures that place.
          refine .place (hbound.trans bound) (passed ++ [id]) (by simpa using ids) (by simp) fun r hr hv => ?_
          subst hr
          obtain ⟨hplace, hadv⟩ := places r rfl hv.2
          have hsource : (if passed = [] then found.source
              else .parent (r.captureThrough x found.var found.source passed).1) =
              .parent (r.captureThrough x found.var found.source passed).1 := by
            split
            · next hpassed =>
              subst hpassed
              simp [Found.source, itself rfl, captureThrough]
            · rfl
          rw [captureThrough_concat, hsource]
          generalize r.captureThrough x found.var found.source passed = placed at hplace hadv ⊢
          have hcons := hadv.cons (.lambda id params binding)
          rw [← hadv.globals] at hplace
          obtain ⟨hrefers, hadv'⟩ := capture_sound (.parent placed.1)
            (hadv.globals.symm ▸ hcons.valid hv) hx (fun h => by cases h)
            (fun v hv => by cases hv; exact ⟨bound, hplace⟩)
          refine ⟨?_, hcons.trans hadv'⟩
          rw [Refers, hi]
          simp only [bound, if_true]
          exact hrefers
    | block owner locals =>
      rw [search] at h
      cases hl : locals.find? (·.name == x) with
      | none =>
        rw [hl] at h
        have hx : locals.any (·.name == x) = false := by
          rw [List.any_eq_false]
          exact List.find?_eq_none.1 hl
        have hbound : Bound x (.block owner locals :: outer) = Bound x outer := by simp [declares, hx]
        cases ih h with
        | global unbound var ids => exact .global (hbound.trans unbound) var ids
        | itself bound binds defining itself ids => cases binds
        | place bound passed ids itself places =>
          refine .place (hbound.trans bound) passed ids itself fun r hr hv => ?_
          obtain ⟨hplace, hadv⟩ := places r hr hv.2
          exact ⟨by rw [Refers, hl]; exact hplace, hadv.cons _⟩
      | some l =>
        rw [hl] at h
        have hbound : Bound x (.block owner locals :: outer) = true := by
          have hany : locals.any (·.name == x) = true :=
            List.any_eq_true.2 ⟨l, List.mem_of_find?_eq_some hl, by simpa using List.find?_some hl⟩
          simp [declares, hany]
        -- A local that is being assigned can be reached only from inside the lambda that is assigned to it.
        cases hp : l.progress with
        | defined =>
          simp only [hp] at h
          cases h
          refine .place hbound [] rfl (fun _ => rfl) fun r _ hv => ?_
          rw [captureThrough]
          exact ⟨by rw [Refers, hl]; exact ⟨hp, rfl⟩, .refl _ _⟩
        | defining =>
          simp only [hp] at h
          split at h
          · next hb =>
            cases h
            exact .itself hbound hb ⟨l, hl, hp⟩ rfl rfl
          · cases h
        | pending =>
          simp only [hp] at h
          cases h

theorem lookup_sound {v : Var} (h : r.lookup x = .ok (v, r')) (hv : FramesValid r.scopes r.globals r.frames) :
    Refers r'.scopes r.globals x r.frames v ∧ Advances r.frames r r' ∧ r'.frames = r.frames := by
  unfold lookup at h
  cases hs : search r.globals x none [] r.frames with
  | error problem => rw [hs] at h; cases h
  | ok found =>
    rw [hs] at h
    have h' : r.captureThrough x found.var found.source found.crossed = (v, r') := Except.ok.inj h
    cases search_ends hs with
    | global unbound var ids =>
      rw [ids, captureThrough] at h'
      obtain ⟨rfl, rfl⟩ := Prod.mk.inj h'
      exact ⟨(refers_iff_global unbound).2 var, .refl _ _, rfl⟩
    | itself bound binds defining itself ids => cases binds
    | place bound passed ids itself places =>
      obtain ⟨hplace, hadv⟩ := places r rfl hv
      have hframes := r.frames_captureThrough x found.var found.source passed
      rw [ids, List.append_nil] at h'
      rw [h'] at hplace hadv hframes
      exact ⟨hplace, hadv, hframes⟩

/-! ## Blocks -/

/-- A state in which an expression can be resolved. -/
structure Ready (r : Resolver) : Prop where
  valid : FramesValid r.scopes r.globals r.frames
  dense : r.scopes.Dense
  nonempty : r.frames ≠ []

theorem Ready.advance (hr : Ready r) (h : Advances r.frames r r') (hframes : r'.frames = r.frames) : Ready r' where
  valid := by
    rw [hframes, h.globals]
    exact h.valid hr.valid
  dense := h.dense hr.dense
  nonempty := hframes ▸ hr.nonempty

theorem Ready.scope (hr : Ready r) : ∃ s, r.scopes[innermost r.frames]? = some s := by
  have hlt := hr.valid.lt_size (hr.valid.innermost_mem hr.nonempty)
  exact ⟨r.scopes[innermost r.frames], Array.getElem?_eq_getElem hlt⟩

/-- The resolver with one more local in the innermost lambda. -/
def withLocal (r : Resolver) (x : String) : Resolver :=
  { r with scopes := r.scopes.modify (innermost r.frames) (·.addLocal x) }

theorem advances_withLocal (hr : Ready r) (x : String) : Advances r.frames r (r.withLocal x) where
  globals := rfl
  grows := ScopeTable.grows_modify (hr.valid.innermost_mem hr.nonempty) _ fun s => s.extends_addLocal x
  dense hd := hd.modify _ fun _ hs => hs.addLocal x
  valid hv := by
    have hg : r.scopes.Grows (lambdaIds r.frames) (r.withLocal x).scopes :=
      ScopeTable.grows_modify (hr.valid.innermost_mem hr.nonempty) _ fun s => s.extends_addLocal x
    refine hv.grow hg fun i _ s s' hs hs' => ?_
    rw [withLocal, Array.getElem?_modify, hs] at hs'
    split at hs' <;> cases hs' <;> rfl

/-- What declaring the names of statements does: the new locals take slots above all that the frame has so far. -/
structure Declares (r : Resolver) (s : Scope) (declared : List BlockLocal) (statements : List Expr)
    (locals : List BlockLocal) (r' : Resolver) : Prop where
  assigns : ∀ e ∈ statements, e.isAssign = true
  names : locals.map (·.name) = Expr.assigned statements
  pending : ∀ l ∈ locals, l.progress = .pending
  nodup : (Expr.assigned statements).Nodup
  undeclared : ∀ x ∈ Expr.assigned statements, declared.any (·.name == x) = false
  above : ∀ n ∈ locals.map (·.slot), s.frameSize ≤ n
  slots_nodup : (locals.map (·.slot)).Nodup
  scope : ∃ s' : Scope, r'.scopes[innermost r.frames]? = some s' ∧ locals.map (·.slot) ⊆ s'.locals.map (·.slot)
  advances : Advances r.frames r r'
  frames : r'.frames = r.frames

theorem declare_sound {statements : List Expr} {declared locals : List BlockLocal} {s : Scope}
    (h : r.declare declared statements = (r', .ok locals)) (hr : Ready r)
    (hs : r.scopes[innermost r.frames]? = some s) :
    ∃ added, locals = declared ++ added ∧ Declares r s declared statements added r' := by
  induction statements generalizing r declared s with
  | nil =>
    rw [declare] at h
    obtain ⟨rfl, rfl⟩ : r = r' ∧ declared = locals := by simpa using h
    exact ⟨[], by simp, by simp, rfl, by simp, List.nodup_nil, by simp [Expr.assigned], by simp, List.nodup_nil,
      ⟨s, hs, by simp⟩, .refl _ _, rfl⟩
  | cons e statements ih =>
    cases e with
    | assign span x value var =>
      rw [declare] at h
      split at h
      · cases h
      next hx =>
      have hget : (r.scopes.getD r.current default) = s := by
        rw [Array.getD_eq_getD_getElem?, show r.current = innermost r.frames from rfl, hs]
        rfl
      have hs₁ : (r.withLocal x).scopes[innermost r.frames]? = some (s.addLocal x) := by
        simp [withLocal, Array.getElem?_modify, hs]
      have hadv := advances_withLocal hr x
      obtain ⟨added, rfl, hd⟩ := ih (r := r.withLocal x) (hget ▸ h) (hr.advance hadv rfl) hs₁
      have hsize : (s.addLocal x).frameSize = s.frameSize + 1 := by
        simp [Scope.addLocal, Scope.frameSize]
        omega
      have hx' : x ∉ Expr.assigned statements := fun hmem => by
        have := hd.undeclared x hmem
        simp at this
      obtain ⟨s', hs', hsub⟩ := hd.scope
      refine ⟨⟨x, s.frameSize, .pending⟩ :: added, by simp, ?_⟩
      exact {
        assigns := by simpa [Expr.isAssign] using hd.assigns
        names := by simp [Expr.assigned, hd.names]
        pending := by simpa using hd.pending
        nodup := List.nodup_cons.2 ⟨hx', hd.nodup⟩
        undeclared := by
          intro y hy
          rcases List.mem_cons.1 hy with rfl | hy
          · simpa using hx
          · have hundeclared := hd.undeclared y hy
            rw [List.any_append, Bool.or_eq_false_iff] at hundeclared
            exact hundeclared.1
        above := by
          intro n hn
          rcases List.mem_cons.1 hn with rfl | hn
          · exact Nat.le_refl _
          · have := hd.above n hn
            omega
        slots_nodup := by
          refine List.nodup_cons.2 ⟨fun hn => ?_, hd.slots_nodup⟩
          have habove := hd.above s.frameSize hn
          omega
        scope := by
          refine ⟨s', hs', List.cons_subset.2 ⟨?_, hsub⟩⟩
          obtain ⟨s'', hs'', hext, -⟩ := hd.advances.grows.scope hs₁
          obtain rfl : s' = s'' := Option.some.inj (hs'.symm.trans hs'')
          exact (hext.locals.map _).subset (by simp [Scope.addLocal])
        advances := hadv.trans hd.advances
        frames := hd.frames }
    | number | name | call | lambda | block | cond => simp [declare] at h

theorem openBlock_eq {span : Span} {statements : List Expr} (h : r.openBlock span statements = (r', none)) :
    ∃ last r₁ locals, statements.getLast? = some last ∧ last.isAssign = false ∧
      r.declare [] statements.dropLast = (r₁, .ok locals) ∧ r' = r₁.openFrame (.block r₁.current locals) := by
  unfold openBlock at h
  split at h
  · cases h
  · cases h
  next last hnot hlast =>
  have hl : last.isAssign = false := by
    cases last with
    | assign => exact absurd rfl (hnot _ _ _ _)
    | number | name | call | lambda | block | cond => rfl
  split at h
  · cases h
  next r₁ locals hd =>
  exact ⟨last, r₁, locals, hlast, hl, hd, (Prod.mk.inj h).1.symm⟩

theorem openBlock_sound {span : Span} {statements : List Expr} (h : r.openBlock span statements = (r', none))
    (hr : Ready r) :
    ∃ locals, r'.frames = .block (innermost r.frames) locals :: r.frames ∧ Expr.BlockForm statements ∧
      locals.map (·.name) = Expr.assigned statements ∧ (∀ l ∈ locals, l.progress = .pending) ∧ Ready r' ∧
      Advances r.frames r r' := by
  obtain ⟨s, hs⟩ := hr.scope
  obtain ⟨last, r₁, locals, hlast, hl, hd, rfl⟩ := openBlock_eq h
  obtain ⟨added, hadded, hd⟩ := declare_sound hd hr hs
  rw [List.nil_append] at hadded
  subst hadded
  have hform := Expr.blockForm_of hlast hl hd.assigns
  have hready := hr.advance hd.advances hd.frames
  have hvalid : BlockValid r₁.scopes r.frames (innermost r.frames) locals := by
    refine ⟨hr.nonempty, rfl, hd.scope, hd.names ▸ hd.nodup, hd.slots_nodup, fun n hn hmem => ?_⟩
    -- The slots of open blocks were given out before, so they are below the size that the frame had.
    obtain ⟨s', hs', hsub⟩ := hr.valid.blockSlots_sub hmem
    obtain rfl : s = s' := Option.some.inj (hs.symm.trans hs')
    have hlt : n < s.frameSize := (hr.dense hs).lt (List.mem_append_left _ hsub)
    have := hd.above n hn
    omega
  have hcur : r₁.current = innermost r.frames := by rw [← hd.frames]; rfl
  refine ⟨locals, ?_, hform, ?_, hd.pending, ⟨?_, hready.dense, by simp [openFrame]⟩, ?_⟩
  · simp [openFrame, hd.frames, hcur]
  · rw [hd.names, hform.assigned_dropLast]
  · rw [openFrame, hcur, hd.frames]
    exact ⟨hvalid, hd.frames ▸ hready.valid⟩
  · exact ⟨hd.advances.globals, hd.advances.grows, hd.advances.dense, hd.advances.valid⟩

/-! ## The walk -/

/-- On the way from `r` to `r'` something came about that holds for any table that grows from then on while these frames
are open. -/
structure Yields (frames : List Frame) (r r' : Resolver) (P : ScopeTable → Prop) : Prop where
  advances : Advances frames r r'
  holds : ∀ t, r'.scopes.Grows (lambdaIds frames) t → P t

variable {P Q : ScopeTable → Prop}

theorem Yields.map (h : Yields frames r r' P) (hPQ : ∀ t, P t → Q t) : Yields frames r r' Q :=
  ⟨h.advances, fun t ht => hPQ t (h.holds t ht)⟩

theorem Yields.seq (h : Yields frames r r' P) (h' : Yields frames r' r'' Q) :
    Yields frames r r'' fun t => P t ∧ Q t :=
  ⟨h.advances.trans h'.advances, fun t ht => ⟨h.holds t (h'.advances.grows.trans ht), h'.holds t ht⟩⟩

theorem mark_eq (r : Resolver) (x : String) (p : Progress) :
    r.mark x p = { r with frames := Frame.mark x p r.frames } := by
  obtain ⟨globals, frames, scopes, events⟩ := r
  rcases frames with _ | ⟨_ | _, _⟩ <;> rfl

theorem slot?_eq (r : Resolver) (x : String) : r.slot? x = Frame.slot? x r.frames := by
  obtain ⟨globals, frames, scopes, events⟩ := r
  rcases frames with _ | ⟨_ | _, _⟩ <;> rfl

theorem Ready.mark (hr : Ready r) (x : String) (p : Progress) : Ready (r.mark x p) := by
  rw [mark_eq]
  refine ⟨(framesValid_mark x p).2 hr.valid, hr.dense, fun hnil => hr.nonempty ?_⟩
  have hids := congrArg lambdaIds hnil
  have hmem := hr.valid.innermost_mem hr.nonempty
  rw [lambdaIds_mark] at hids
  rw [hids] at hmem
  cases hmem

/-- The frames of a lambda that has just been opened are valid. -/
theorem Ready.openLambda (hr : Ready r) (label : Option String) {binding : Option String} (names : List String)
    (hb : ∀ b, binding = some b → Defining b r.frames) : Ready (r.openLambda label binding names) where
  valid := by
    have hg := ScopeTable.grows_push [] r.scopes (.ofLambda label (some r.current) names)
    refine ⟨⟨.ofLambda label (some r.current) names, ?_, rfl, ?_, ?_, hb, fun i hi => hr.valid.lt_size hi⟩, ?_⟩
    · exact Array.getElem?_push_size
    · cases hf : r.frames with
      | nil => exact absurd hf hr.nonempty
      | cons frame outer => simp [Scope.ofLambda, current, addScope, hf]
    · intro c hc
      cases hc
    · refine hr.valid.grow hg fun i _ s s' hs hs' => ?_
      obtain ⟨s'', hs'', -, heq⟩ := hg.scope hs
      obtain rfl : s' = s'' := Option.some.inj (hs'.symm.trans hs'')
      rw [heq (List.not_mem_nil)]
  dense := ScopeTable.Dense.push hr.dense (Scope.dense_ofLambda _ _ _)
  nonempty := by simp [Resolver.openLambda, openFrame]

@[simp] theorem frames_mark (r : Resolver) (x : String) (p : Progress) :
    (r.mark x p).frames = Frame.mark x p r.frames := by rw [mark_eq]

@[simp] theorem globals_mark (r : Resolver) (x : String) (p : Progress) : (r.mark x p).globals = r.globals := by
  rw [mark_eq]

/-- How far the locals of the innermost block have come does not matter to the table. -/
theorem Yields.ofMark {x : String} {p : Progress} (h : Yields (Frame.mark x p frames) (r.mark x p) r' P) :
    Yields frames r r' P := by
  obtain ⟨⟨hglobals, hgrows, hdense, hvalid⟩, hholds⟩ := h
  rw [mark_eq] at hglobals hgrows hdense hvalid
  rw [lambdaIds_mark] at hgrows hholds
  exact ⟨⟨hglobals, hgrows, hdense, fun hv => (framesValid_mark x p).1 (hvalid ((framesValid_mark x p).2 hv))⟩, hholds⟩

/-- Leaving a block. -/
theorem Yields.closeBlock {owner : Nat} {locals : List BlockLocal} (hr : Ready r)
    (hf : r.frames = .block owner locals :: frames) (h : Yields (.block owner locals :: frames) r r' P) :
    Yields frames r r'.closeFrame fun t => BlockValid t frames owner locals ∧ P t := by
  have hvalid := h.advances.valid (hf ▸ hr.valid)
  exact ⟨⟨h.advances.globals, h.advances.grows, h.advances.dense, fun _ => hvalid.2⟩,
    fun t ht => ⟨hvalid.1.grow ht, h.holds t ht⟩⟩

/-- Leaving a lambda. Its scope is final then, because only open lambdas get new captures. -/
theorem Yields.closeLambda {label binding : Option String} {names : List String} (hr : Ready r)
    (hb : ∀ b, binding = some b → Defining b r.frames)
    (h : Yields (.lambda r.scopes.size names binding :: r.frames) (r.openLambda label binding names) r' P) :
    Yields r.frames r r'.closeFrame fun t =>
      (∃ s, LambdaValid t r.globals r.frames r.scopes.size names binding s ∧ s.name = label) ∧ P t := by
  have hready := hr.openLambda label names hb
  have hpush := ScopeTable.grows_push (r.scopes.size :: lambdaIds r.frames) r.scopes
    (.ofLambda label (some r.current) names)
  have hvalid := h.advances.valid hready.valid
  refine ⟨⟨h.advances.globals, ?_, fun _ => h.advances.dense hready.dense, fun _ => hvalid.2⟩, fun t ht => ⟨?_, ?_⟩⟩
  · exact (hpush.trans h.advances.grows).strengthen (Nat.le_refl _)
  · obtain ⟨⟨s, hs⟩, -⟩ := hvalid
    have hid : r.scopes.size ∉ lambdaIds r.frames := fun hi => Nat.lt_irrefl _ (hs.inside _ hi)
    obtain ⟨s', hs', -, heq⟩ := ht.scope hs.scope
    obtain ⟨s₀, hs₀, hext, -⟩ := h.advances.grows.scope (i := r.scopes.size) Array.getElem?_push_size
    obtain rfl : s = s₀ := Option.some.inj (hs.scope.symm.trans hs₀)
    exact ⟨s', hs.grow ht hs' (by rw [heq hid]), by rw [heq hid, hext.name]; rfl⟩
  · exact h.holds t (ht.weaken (List.subset_cons_self _ _))

end Resolver

namespace Resolution

variable {α β : Type} {step : Resolution α} {f : α → β} {next : α → Resolver → Resolution β} {tree : β} {r : Resolver}

theorem andThen_eq_done (h : step.andThen f next = .done tree r) :
    ∃ a r', step = .done a r' ∧ next a r' = .done tree r := by
  cases step with
  | done a r' => exact ⟨a, r', rfl, h⟩
  | failed a error r' => cases h

theorem map_eq_done (h : step.map f = .done tree r) : ∃ a, step = .done a r ∧ f a = tree := by
  cases step with
  | done a r' =>
    cases h
    exact ⟨a, rfl, rfl⟩
  | failed a error r' => cases h

end Resolution

namespace Expr

open Resolver Resolution

theorem resolveStatements_result {e : Expr} {r : Resolver} (h : e.isAssign = false) :
    resolveStatements [e] r = (e.resolve none r).andThen (· :: []) fun e r => .done [e] r := by
  cases e with
  | assign => cases h
  | number | name | call | lambda | block | cond => rfl

mutual

/-- What the walk makes of an expression is a resolved tree, also for every later table. -/
theorem resolve_sound {r r' : Resolver} {binding : Option String} {e' : Expr} (e : Expr)
    (h : e.resolve binding r = .done e' r') (hr : Ready r) (hb : ∀ b, binding = some b → Defining b r.frames) :
    (Yields r.frames r r' fun t => Elab t r.globals r.frames binding e e') ∧ r'.frames = r.frames := by
  cases e with
  | number span value =>
    cases h
    exact ⟨⟨.refl _ _, fun _ _ => rfl⟩, rfl⟩
  | name span x var =>
    rw [resolve] at h
    split at h
    · next found r₁ hlookup =>
      cases h
      obtain ⟨hrefers, hadv, hframes⟩ := lookup_sound hlookup hr.valid
      exact ⟨⟨hadv, fun t ht => ⟨found, hrefers.grow ht, rfl⟩⟩, hframes⟩
    · cases h
  | call span callee args =>
    rw [resolve] at h
    obtain ⟨callee', r₁, hcallee, h⟩ := andThen_eq_done h
    obtain ⟨args', hargs, rfl⟩ := map_eq_done h
    obtain ⟨hy, hf⟩ := resolve_sound callee hcallee hr (by simp)
    obtain ⟨hy', hf'⟩ := resolveAll_sound args hargs (hr.advance hy.advances hf)
    rw [hy.advances.globals, hf] at hy'
    exact ⟨(hy.seq hy').map fun t ⟨hc, ha⟩ => ⟨callee', args', hc, ha, rfl⟩, hf'.trans hf⟩
  | lambda span params body frame label =>
    rw [resolve] at h
    split at h
    · cases h
    next params' names hparams =>
    obtain ⟨body', r₁, hbody, h⟩ := andThen_eq_done h
    cases h
    obtain ⟨hy, hf⟩ := resolve_sound body hbody (hr.openLambda (label.or binding) names hb) (by simp)
    refine ⟨(Yields.closeLambda hr hb hy).map fun t ⟨⟨s, hs, hname⟩, hbody⟩ => ?_, ?_⟩
    · exact ⟨params', names, r.scopes.size, s, body', hparams, hs, hname, hbody, rfl⟩
    · exact congrArg List.tail hf
  | block span statements =>
    rw [resolve] at h
    split at h
    · cases h
    next r₁ hopen =>
    obtain ⟨statements', r₂, hstatements, h⟩ := andThen_eq_done h
    cases h
    obtain ⟨locals, hframes, hform, hnames, hpending, hr₁, hadv⟩ := openBlock_sound hopen hr
    have hslots : ∀ x ∈ assigned statements, Frame.slot? x r₁.frames ≠ none := by
      rw [hframes, ← hnames]
      exact fun x hx => slot?_block_ne_none hx
    obtain ⟨hy, hf⟩ := resolveStatements_sound statements hstatements hr₁ hform hslots
    rw [hframes] at hy hf
    have hy' := Yields.closeBlock hr₁ hframes hy
    rw [hadv.globals] at hy'
    refine ⟨⟨hadv.trans hy'.advances, fun t ht => ?_⟩, hf⟩
    obtain ⟨hblock, hstatements⟩ := hy'.holds t ht
    exact ⟨locals, statements', hblock, hpending, hnames, hstatements, rfl⟩
  | assign span x value var => cases h
  | cond span test onTrue onFalse =>
    rw [resolve] at h
    obtain ⟨test', r₁, htest, h⟩ := andThen_eq_done h
    obtain ⟨onTrue', r₂, hthen, h⟩ := andThen_eq_done h
    obtain ⟨onFalse', helse, rfl⟩ := map_eq_done h
    obtain ⟨hy, hf⟩ := resolve_sound test htest hr (by simp)
    have hr₁ := hr.advance hy.advances hf
    obtain ⟨hy₁, hf₁⟩ := resolve_sound onTrue hthen hr₁ (by simp)
    obtain ⟨hy₂, hf₂⟩ := resolve_sound onFalse helse (hr₁.advance hy₁.advances hf₁) (by simp)
    rw [hf₁, hf, hy₁.advances.globals, hy.advances.globals] at hy₂
    rw [hf, hy.advances.globals] at hy₁
    refine ⟨((hy.seq hy₁).seq hy₂).map fun t ⟨⟨ht, h₁⟩, h₂⟩ => ?_, hf₂.trans (hf₁.trans hf)⟩
    exact ⟨test', onTrue', onFalse', ht, h₁, h₂, rfl⟩

theorem resolveAll_sound {r r' : Resolver} {es' : List Expr} (es : List Expr) (h : resolveAll es r = .done es' r')
    (hr : Ready r) :
    (Yields r.frames r r' fun t => ElabAll t r.globals r.frames es es') ∧ r'.frames = r.frames := by
  cases es with
  | nil =>
    cases h
    exact ⟨⟨.refl _ _, fun _ _ => rfl⟩, rfl⟩
  | cons e es =>
    rw [resolveAll] at h
    obtain ⟨e', r₁, he, h⟩ := andThen_eq_done h
    obtain ⟨rest', hes, rfl⟩ := map_eq_done h
    obtain ⟨hy, hf⟩ := resolve_sound e he hr (by simp)
    obtain ⟨hy', hf'⟩ := resolveAll_sound es hes (hr.advance hy.advances hf)
    rw [hy.advances.globals, hf] at hy'
    exact ⟨(hy.seq hy').map fun t ⟨he, hes⟩ => ⟨e', rest', he, hes, rfl⟩, hf'.trans hf⟩

/-- The marks of the block's locals change on the way, the frames around the block do not. -/
theorem resolveStatements_sound {r r' : Resolver} {es' : List Expr} (es : List Expr)
    (h : resolveStatements es r = .done es' r') (hr : Ready r) (hform : BlockForm es)
    (hs : ∀ x ∈ assigned es, Frame.slot? x r.frames ≠ none) :
    (Yields r.frames r r' fun t => ElabStatements t r.globals r.frames es es') ∧ r'.frames.tail = r.frames.tail := by
  cases hform with
  | @result e he =>
    rw [resolveStatements_result he] at h
    obtain ⟨e', r₁, he', h⟩ := andThen_eq_done h
    cases h
    obtain ⟨hy, hf⟩ := resolve_sound e he' hr (by simp)
    exact ⟨hy.map fun t he => by rw [ElabStatements]; exact ⟨e', he, rfl⟩, congrArg List.tail hf⟩
  | @assign span x value var es hform =>
    rw [resolveStatements] at h
    obtain ⟨value', r₁, hvalue, h⟩ := andThen_eq_done h
    obtain ⟨es', hes, rfl⟩ := map_eq_done h
    obtain ⟨s, hslot⟩ := Option.ne_none_iff_exists'.1 (hs x List.mem_cons_self)
    obtain ⟨hy, hf⟩ := resolve_sound value hvalue (hr.mark x .defining) (by simpa using defining_mark hslot)
    have hr₁ := (hr.mark x .defining).advance hy.advances hf
    have hslots : ∀ y ∈ assigned es, Frame.slot? y (r₁.mark x .defined).frames ≠ none := by
      intro y hy
      simpa [hf, slot?_mark] using hs y (List.mem_cons_of_mem _ hy)
    obtain ⟨hy', hf'⟩ := resolveStatements_sound es hes (hr₁.mark x .defined) hform hslots
    have hglobals := hy.advances.globals
    rw [frames_mark, globals_mark] at hy
    rw [frames_mark] at hf
    rw [frames_mark, globals_mark, hglobals, globals_mark, hf, mark_mark] at hy'
    rw [frames_mark, tail_mark, hf, tail_mark] at hf'
    refine ⟨(hy.ofMark.seq hy'.ofMark).map fun t ⟨hvalue, hes⟩ => ?_, hf'⟩
    cases hform <;>
      exact ⟨s, value', es', hslot, hvalue, hes, by rw [slot?_eq, hslot]; rfl⟩

end

end Expr

/-! ## Programs -/

/-- The frame of a program as a whole. -/
def Frame.main : Frame := .lambda 0 [] none

/-- The tree of a program and the table of its scopes. -/
structure ResolvedProgram (globals : List String) (e e' : Expr) (t : ScopeTable) : Prop where
  main : ∃ s, LambdaValid t globals [] 0 [] none s
  dense : t.Dense
  tree : Elab t globals [Frame.main] none e e'

/-- There is nothing around a program that it could capture. -/
theorem LambdaValid.captures_main {t : ScopeTable} {globals : List String} {s : Scope}
    (h : LambdaValid t globals [] 0 [] none s) : s.captures = [] := by
  refine List.eq_nil_iff_forall_not_mem.2 fun c hc => ?_
  have hvalid := h.captures c hc
  cases hsource : c.source with
  | itself => cases hvalid.itself hsource
  | parent v => cases (hvalid.parent v hsource).1

namespace Resolver

variable {globals : List String}

theorem ready_main (globals : List String) :
    Ready (((new globals).addScope (.ofLambda none none [])).openFrame Frame.main) where
  valid := by
    refine ⟨⟨.ofLambda none none [], rfl, rfl, rfl, ?_, ?_, ?_⟩, trivial⟩
    · intro c hc
      cases hc
    · intro b hb
      cases hb
    · intro i hi
      cases hi
  dense := ScopeTable.Dense.push (fun h => by cases h) (Scope.dense_ofLambda _ _ _)
  nonempty := by simp [openFrame]

theorem program_sound {e e' : Expr} {r : Resolver} (h : (new globals).program e = .done e' r) :
    ResolvedProgram globals e e' r.scopes := by
  obtain ⟨tree, r', htree, h⟩ := Resolution.andThen_eq_done h
  cases h
  have hready := ready_main globals
  obtain ⟨hy, -⟩ := Expr.resolve_sound e htree hready (by simp)
  exact ⟨(hy.advances.valid hready.valid).1, hy.advances.dense hready.dense, hy.holds _ (.refl _ _)⟩

end Resolver

end ClosureLang
