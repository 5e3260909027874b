import ClosureLang.Proofs.WellScoped

/-!
# Every name leads to its binder

In a resolved program the place of a name can be a capture, which is read from the frame around, where it can be a
capture again. `ScopeTable.Leads` follows such a chain to its end. `Expr.Placed` says of a whole tree that the chain
of every name ends at the innermost binder around the name, as the text of the program shows it.

A lambda captures a name once, whatever number of references cross it. They can share the capture because the frames
around a lambda do not change while the walk is inside it.
-/

namespace ClosureLang

open ClosureLang.Frame

/-- What a name can stand for: a parameter of a lambda, a local in the frame of a lambda, the closure of the lambda that
is assigned to the name, or an entry of the prelude. -/
inductive Site where
  | param (frame index : Nat)
  | slot (frame : Nat) (slot : Int)
  | itself (frame : Nat)
  | global (index : Nat)
deriving DecidableEq, Repr

/-- The last place on the way to a site. -/
def Site.Shows : Site → Var → Prop
  | param _ i, v => v = .arg i
  | slot _ s, v => v = .slot s
  | itself frame, v => ∃ i, v = .captured frame i
  | global i, v => v = .global i

/-- Captures that are followed from a place in a frame lead to a site. -/
inductive ScopeTable.Leads (t : ScopeTable) : (frame : Nat) → Var → Site → Prop where
  | param {frame i : Nat} : Leads t frame (.arg i) (.param frame i)
  | slot {frame : Nat} {s : Int} : Leads t frame (.slot s) (.slot frame s)
  | global {frame i : Nat} : Leads t frame (.global i) (.global i)
  | itself {frame i : Nat} {s : Scope} {c : Capture} (hs : t[frame]? = some s) (hc : s.captures[i]? = some c)
      (hsource : c.source = .itself) : Leads t frame (.captured frame i) (.itself frame)
  | hop {frame parent i : Nat} {s : Scope} {c : Capture} {v : Var} {site : Site} (hs : t[frame]? = some s)
      (hc : s.captures[i]? = some c) (hsource : c.source = .parent v) (hparent : s.parent = some parent)
      (h : Leads t parent v site) : Leads t frame (.captured frame i) site

/-! ## Binders in the text -/

/-- The binders around a place, innermost first. -/
abbrev Binders := List (String × Site)

/-- The innermost binder of a name. A name without one stands for the first entry of the prelude that has the name. -/
def Binders.Binds (binders : Binders) (globals : List String) (x : String) (site : Site) : Prop :=
  match binders.lookup x with
  | some found => site = found
  | none => ∃ i, globals.idxOf? x = some i ∧ site = .global i

/-- The parameters of a lambda. -/
def paramSites (frame : Nat) (names : List String) : Binders := names.zipIdx.map fun (x, i) => (x, .param frame i)

/-- A local of a block. Inside the lambda that is assigned to it, the name stands for the closure. -/
def localSite (frame : Nat) (self : Option (String × Nat)) (x : String) (slot : Int) : Site :=
  match self with
  | some (y, id) => if y = x then .itself id else .slot frame slot
  | none => .slot frame slot

/-- The locals of a block. -/
def blockSites (frame : Nat) (self : Option (String × Nat)) (locals : List (String × Int)) : Binders :=
  locals.map fun (x, s) => (x, localSite frame self x s)

namespace Expr

/-- The frame that a lambda makes. -/
def frame? : Expr → Option Nat
  | lambda _ _ _ frame _ => frame
  | _ => none

/-- The slots that the statements of a block assign to. -/
def localSlots : List Expr → List (String × Int)
  | [] => []
  | assign _ x _ (some (.slot s)) :: statements => (x, s) :: localSlots statements
  | _ :: statements => localSlots statements

/-- Parameters carry their positions. -/
def Numbered (params : List Expr) : Prop :=
  ∀ (i : Nat) (p : Expr), params[i]? = some p → ∃ span x, p = .name span x (some (.arg i))

mutual

/-- Every name of a resolved tree leads to its innermost binder. The tree stands in a lambda's frame, inside the
binders. -/
def Placed (t : ScopeTable) (globals : List String) : (frame : Nat) → Binders → Expr → Prop
  | _, _, number _ _ => True
  | frame, binders, name _ x var =>
    ∃ v site, var = some v ∧ binders.Binds globals x site ∧ t.Leads frame v site ∧
      (∃ origin, t.origin? v = some origin ∧ site.Shows origin) ∧ (binders.map (·.2)).Nodup
  | frame, binders, call _ callee args => Placed t globals frame binders callee ∧ AllPlaced t globals frame binders args
  | _, binders, lambda _ params body frame _ =>
    ∃ id, frame = some id ∧ Numbered params ∧ Placed t globals id (paramSites id (paramNames params) ++ binders) body
  | frame, binders, block _ statements => StatementsPlaced t globals frame (localSlots statements) binders statements
  | _, _, assign _ _ _ _ => False
  | frame, binders, cond _ test onTrue onFalse =>
    Placed t globals frame binders test ∧ Placed t globals frame binders onTrue ∧ Placed t globals frame binders onFalse

def AllPlaced (t : ScopeTable) (globals : List String) : (frame : Nat) → Binders → List Expr → Prop
  | _, _, [] => True
  | frame, binders, e :: es => Placed t globals frame binders e ∧ AllPlaced t globals frame binders es

/-- The statements of a block with these locals. -/
def StatementsPlaced (t : ScopeTable) (globals : List String) (frame : Nat) (locals : List (String × Int))
    (binders : Binders) : List Expr → Prop
  | [] => False
  | [result] => Placed t globals frame (blockSites frame none locals ++ binders) result
  | assign _ x value _ :: statements =>
    Placed t globals frame (blockSites frame (value.frame?.map (x, ·)) locals ++ binders) value ∧
      StatementsPlaced t globals frame locals binders statements
  | _ :: _ => False

end

mutual

/-- The tree without what is filled in when names are resolved. -/
def bare : Expr → Expr
  | number span value => number span value
  | name span x _ => name span x none
  | call span callee args => call span callee.bare (bareAll args)
  | lambda span params body _ _ => lambda span (bareAll params) body.bare none none
  | block span statements => block span (bareAll statements)
  | assign span x value _ => assign span x value.bare none
  | cond span test onTrue onFalse => cond span test.bare onTrue.bare onFalse.bare

def bareAll : List Expr → List Expr
  | [] => []
  | e :: es => e.bare :: bareAll es

end

end Expr

/-! ## Binders of open frames -/

/-- The binders that open frames stand for. `self` is the lambda just inside the innermost block that is assigned to
one of its names. -/
def Frame.sites : (self : Option (String × Nat)) → List Frame → Binders
  | _, [] => []
  | _, lambda id params binding :: outer => paramSites id params ++ sites (binding.map (·, id)) outer
  | self, block owner locals :: outer =>
    blockSites owner self (locals.map fun l => (l.name, (l.slot : Int))) ++ sites none outer

section Sites

variable {t : ScopeTable} {globals : List String} {x : String} {frames : List Frame} {v : Var}

theorem lookup_paramSites (frame : Nat) (names : List String) :
    (paramSites frame names).lookup x = (names.idxOf? x).map (.param frame) := by
  suffices h : ∀ n, ((names.zipIdx n).map fun (y, i) => (y, Site.param frame i)).lookup x =
      (names.idxOf? x).map fun i => .param frame (n + i) by simpa [paramSites] using h 0
  induction names with
  | nil => exact fun _ => rfl
  | cons y names ih =>
    intro n
    rw [List.zipIdx_cons, List.map_cons, List.lookup_cons, ih, List.idxOf?_cons, BEq.comm]
    cases y == x with
    | true => simp
    | false =>
      simp only [Option.map_map, Bool.false_eq_true, if_false]
      congr 1
      funext i
      simp only [Function.comp_apply, Site.param.injEq, true_and]
      omega

theorem localSite_eq (frame : Nat) (self : Option (String × Nat)) (x : String) (slot : Int) :
    localSite frame self x slot = .slot frame slot ∨
      ∃ id, self = some (x, id) ∧ localSite frame self x slot = .itself id := by
  unfold localSite
  split
  · next y id =>
    by_cases h : y = x
    · exact .inr ⟨id, by rw [h], if_pos h⟩
    · exact .inl (if_neg h)
  · exact .inl rfl

theorem lookup_blockSites (owner : Nat) (self : Option (String × Nat)) (locals : List BlockLocal) :
    (blockSites owner self (locals.map fun l => (l.name, (l.slot : Int)))).lookup x =
      (locals.find? (·.name == x)).map fun l => localSite owner self x l.slot := by
  rw [blockSites, List.map_map]
  refine (lookup_map_locals (fun l => localSite owner self l.name l.slot) locals).trans ?_
  cases hl : locals.find? (·.name == x) with
  | none => rfl
  | some l =>
    have hname : l.name = x := by simpa using List.find?_some hl
    simp [hname]

theorem lookup_sites_of_not_bound {self : Option (String × Nat)} (h : Bound x frames = false) :
    (sites self frames).lookup x = none := by
  induction frames generalizing self with
  | nil => rfl
  | cons frame outer ih =>
    rw [bound_cons, Bool.or_eq_false_iff] at h
    cases frame with
    | lambda id params binding =>
      have hx : params.idxOf? x = none := List.idxOf?_eq_none_iff.2 (by simpa [declares] using h.1)
      rw [sites, List.lookup_append, lookup_paramSites, hx, ih h.2]
      rfl
    | block owner locals =>
      have hx : locals.find? (·.name == x) = none := List.find?_eq_none.2 (by simpa [declares] using h.1)
      rw [sites, List.lookup_append, lookup_blockSites, hx, ih h.2]
      rfl

theorem binds_append_of_none {inner binders : Binders} {site : Site} (h : inner.lookup x = none) :
    Binders.Binds (inner ++ binders) globals x site ↔ binders.Binds globals x site := by
  rw [Binders.Binds, Binders.Binds, List.lookup_append, h, Option.none_or]

theorem binds_append_of_some {inner binders : Binders} {site : Site} (h : inner.lookup x = some site) :
    Binders.Binds (inner ++ binders) globals x site := by
  rw [Binders.Binds, List.lookup_append, h, Option.some_or]

theorem binds_of_global {i : Nat} {self : Option (String × Nat)} (h : Bound x frames = false)
    (hi : globals.idxOf? x = some i) : (sites self frames).Binds globals x (.global i) := by
  rw [Binders.Binds, lookup_sites_of_not_bound h]
  exact ⟨i, hi, rfl⟩

/-- A name that its own lambda knows stands for the closure there. -/
theorem binds_itself {id : Nat} (h : Defining x frames) :
    (sites (some (x, id)) frames).Binds globals x (.itself id) := by
  rcases frames with _ | ⟨_ | ⟨owner, locals⟩, outer⟩
  · cases h
  · cases h
  · obtain ⟨l, hl, -⟩ := h
    exact binds_append_of_some (by rw [lookup_blockSites, hl]; simp [localSite])

/-- A name that can be referred to from just inside a block means the same inside a lambda that stands there, since it
is not the name that the lambda is assigned to. -/
theorem binds_of_refers {id : Nat} {binding : Option String} {site : Site}
    (hd : ∀ b, binding = some b → Defining b frames)
    (h : Refers t globals x frames v) (hb : (sites none frames).Binds globals x site) :
    (sites (binding.map (·, id)) frames).Binds globals x site := by
  rcases frames with _ | ⟨_ | ⟨owner, locals⟩, outer⟩
  · exact hb
  · exact hb
  · rw [sites] at hb ⊢
    cases hl : locals.find? (·.name == x) with
    | none =>
      rw [binds_append_of_none (by rw [lookup_blockSites, hl]; rfl)] at hb ⊢
      exact hb
    | some l =>
      obtain ⟨hp, -⟩ : l.progress = .defined ∧ v = .slot l.slot := by simpa [Refers, hl] using h
      have hne : ∀ y, binding = some y → y ≠ x := by
        rintro y hy rfl
        obtain ⟨l', hl', hp'⟩ := hd y hy
        obtain rfl : l = l' := Option.some.inj (hl.symm.trans hl')
        rw [hp] at hp'
        cases hp'
      have hlookup : (blockSites owner none (locals.map fun l => (l.name, (l.slot : Int)))).lookup x =
          some (.slot owner l.slot) := by rw [lookup_blockSites, hl]; rfl
      obtain rfl : site = .slot owner l.slot := by
        rwa [Binders.Binds, List.lookup_append, hlookup, Option.some_or] at hb
      refine binds_append_of_some ?_
      rw [lookup_blockSites, hl]
      cases binding with
      | none => rfl
      | some y => simp [localSite, hne y rfl]

/-- From a place in a frame, captures lead to the innermost binder of a name, and each of them goes one lambda
outwards. -/
def Reaches (t : ScopeTable) (globals : List String) (binders : Binders) (frame : Nat) (x : String) (v : Var) : Prop :=
  ∃ site origin, binders.Binds globals x site ∧ t.Leads frame v site ∧ site.Shows origin ∧
    ∀ hops, frame < hops → t.originWithin hops v = some origin

theorem Reaches.append {inner binders : Binders} {frame : Nat} (hnone : inner.lookup x = none)
    (h : Reaches t globals binders frame x v) : Reaches t globals (inner ++ binders) frame x v := by
  obtain ⟨site, origin, hbinds, hleads⟩ := h
  exact ⟨site, origin, (binds_append_of_none hnone).2 hbinds, hleads⟩

/-- A place that is not a capture is where its own chain starts. -/
theorem Reaches.direct {binders : Binders} {frame : Nat} {site : Site} (hbinds : binders.Binds globals x site)
    (hleads : t.Leads frame v site) (hshows : site.Shows v) (hv : ∀ lambda i, v ≠ .captured lambda i) :
    Reaches t globals binders frame x v := by
  refine ⟨site, v, hbinds, hleads, hshows, fun hops hhops => ?_⟩
  cases hops with
  | zero => cases hhops
  | succ hops =>
    cases v with
    | captured lambda i => exact absurd rfl (hv lambda i)
    | arg | slot | global => rfl

/-- A capture reaches what it is taken from. -/
theorem LambdaValid.reaches {outer : List Frame} {id i : Nat} {params : List String} {binding : Option String}
    {s : Scope}
    {c : Capture} (h : LambdaValid t globals outer id params binding s) (hv : FramesValid t globals outer)
    (hc : s.captures[i]? = some c) (ih : ∀ {v}, Refers t globals c.name outer v →
      Reaches t globals (sites none outer) (innermost outer) c.name v) :
    Reaches t globals (sites (binding.map (·, id)) outer) id c.name (.captured id i) := by
  have hvalid := h.captures c (List.mem_of_getElem? hc)
  cases hsource : c.source with
  | itself =>
    obtain rfl := hvalid.itself hsource
    refine ⟨.itself id, .captured id i, binds_itself (h.defining _ rfl), .itself h.scope hc hsource, ⟨i, rfl⟩, ?_⟩
    exact fun | _ + 1, _ => by simp [ScopeTable.originWithin, h.scope, hc, hsource]
  | parent v =>
    obtain ⟨hbound, hrefers⟩ := hvalid.parent v hsource
    obtain ⟨site, origin, hbinds, hleads, hshows, horigin⟩ := ih hrefers
    have hne : outer ≠ [] := by
      rintro rfl
      cases hbound
    have hparent : s.parent = some (innermost outer) := by
      rw [h.parent_eq]
      cases outer with
      | nil => exact absurd rfl hne
      | cons => rfl
    -- Each hop goes to a lambda with a smaller number, so the chain is shorter than the table.
    have hlt : innermost outer < id := h.inside _ (hv.innermost_mem hne)
    refine ⟨site, origin, binds_of_refers h.defining hrefers hbinds, .hop h.scope hc hsource hparent hleads, hshows, ?_⟩
    intro hops hhops
    cases hops with
    | zero => cases hhops
    | succ hops =>
      have hlt' : innermost outer < hops := Nat.lt_of_lt_of_le hlt (Nat.le_of_lt_succ hhops)
      simp [ScopeTable.originWithin, h.scope, hc, hsource, horigin hops hlt']

theorem Refers.reaches (hv : FramesValid t globals frames) (h : Refers t globals x frames v) :
    Reaches t globals (sites none frames) (innermost frames) x v := by
  induction frames generalizing v with
  | nil =>
    obtain ⟨i, hi, rfl⟩ := h
    exact .direct ⟨i, hi, rfl⟩ .global rfl (by simp)
  | cons frame outer ih =>
    by_cases hbound : Bound x (frame :: outer) = true
    · cases frame with
      | lambda id params binding =>
        rw [Refers] at h
        cases hi : params.idxOf? x with
        | some i =>
          rw [hi] at h
          obtain rfl : v = .arg i := h
          exact .direct (binds_append_of_some (by rw [lookup_paramSites, hi]; rfl)) .param rfl (by simp)
        | none =>
          have hx : x ∉ params := List.idxOf?_eq_none_iff.1 hi
          have hbo : Bound x outer = true := by simpa [declares, hx] using hbound
          obtain ⟨i, s, c, hs, hc, rfl, rfl⟩ : RefersCapture t id x v := by simpa [hi, hbo] using h
          obtain ⟨⟨s', hlambda⟩, houter⟩ := hv
          obtain rfl : s = s' := Option.some.inj (hs.symm.trans hlambda.scope)
          exact (hlambda.reaches houter hc (ih houter)).append (by rw [lookup_paramSites, hi]; rfl)
      | block owner locals =>
        rw [Refers] at h
        cases hl : locals.find? (·.name == x) with
        | none =>
          rw [hl] at h
          rw [show innermost (.block owner locals :: outer) = innermost outer from hv.1.owner_eq]
          exact (ih hv.2 h).append (by rw [lookup_blockSites, hl]; rfl)
        | some l =>
          obtain ⟨-, rfl⟩ : l.progress = .defined ∧ v = .slot l.slot := by simpa [hl] using h
          exact .direct (binds_append_of_some (by rw [lookup_blockSites, hl]; rfl)) .slot rfl (by simp)
    · rw [Bool.not_eq_true] at hbound
      obtain ⟨i, hi, rfl⟩ := (refers_iff_global hbound).1 h
      exact .direct (binds_of_global hbound hi) .global rfl (by simp)

/-! ## Different binders have different sites -/

/-- Where the sites of open frames can be. -/
def Site.Within (frames : List Frame) (self : Option (String × Nat)) : Site → Prop
  | param frame _ => frame ∈ lambdaIds frames
  | slot frame s => frame ∈ lambdaIds frames ∧ (frame = innermost frames → ∃ n ∈ blockSlots frames, s = n)
  | itself frame => frame ∈ lambdaIds frames ∨ ∃ x, self = some (x, frame)
  | global _ => False

theorem Site.Within.lambda {id : Nat} {params : List String} {binding : Option String} {s : Scope} {site : Site}
    {self : Option (String × Nat)} (hs : LambdaValid t globals frames id params binding s)
    (h : site.Within frames (binding.map (·, id))) : site.Within (.lambda id params binding :: frames) self := by
  cases site with
  | param frame i => exact List.mem_cons_of_mem _ h
  | slot frame s =>
    have hne : frame ≠ id := Nat.ne_of_lt (hs.inside frame h.1)
    exact ⟨List.mem_cons_of_mem _ h.1, fun h => absurd h hne⟩
  | itself frame =>
    rcases h with hmem | ⟨x, hx⟩
    · exact .inl (List.mem_cons_of_mem _ hmem)
    · obtain ⟨y, -, hy⟩ := Option.map_eq_some_iff.1 hx
      obtain rfl : id = frame := (Prod.mk.inj hy).2
      exact .inl List.mem_cons_self
  | global i => exact h

theorem Site.Within.block {owner : Nat} {locals : List BlockLocal} {site : Site} {self : Option (String × Nat)}
    (ho : owner = innermost frames) (h : site.Within frames none) :
    site.Within (.block owner locals :: frames) self := by
  cases site with
  | param frame i => exact h
  | slot frame s =>
    refine ⟨h.1, fun hf => ?_⟩
    obtain ⟨n, hn, hs⟩ := h.2 (hf.trans ho)
    exact ⟨n, List.mem_append_right _ hn, hs⟩
  | itself frame =>
    rcases h with hmem | ⟨x, hx⟩
    · exact .inl hmem
    · cases hx
  | global i => exact h

theorem sites_within {self : Option (String × Nat)} (hv : FramesValid t globals frames) :
    ∀ b ∈ sites self frames, b.2.Within frames self := by
  induction frames generalizing self with
  | nil => exact fun b hb => by cases hb
  | cons frame outer ih =>
    intro b hb
    cases frame with
    | lambda id params binding =>
      obtain ⟨⟨s, hs⟩, houter⟩ := hv
      rcases List.mem_append.1 hb with hb | hb
      · obtain ⟨p, -, rfl⟩ := List.mem_map.1 hb
        exact List.mem_cons_self
      · exact (ih houter b hb).lambda hs
    | block owner locals =>
      obtain ⟨hblock, houter⟩ := hv
      rcases List.mem_append.1 hb with hb | hb
      · obtain ⟨p, hp, rfl⟩ := List.mem_map.1 hb
        obtain ⟨l, hl, rfl⟩ := List.mem_map.1 hp
        rcases localSite_eq owner self l.name l.slot with hsite | ⟨id, hself, hsite⟩
        · dsimp only
          rw [hsite]
          refine ⟨?_, fun _ => ⟨l.slot, List.mem_append_left _ (List.mem_map_of_mem hl), rfl⟩⟩
          rw [hblock.owner_eq]
          exact houter.innermost_mem hblock.outer_ne
        · dsimp only
          rw [hsite]
          exact .inr ⟨l.name, hself⟩
      · exact (ih houter b hb).block hblock.owner_eq

theorem paramSites_nodup (frame : Nat) (names : List String) : ((paramSites frame names).map (·.2)).Nodup := by
  have heq : (paramSites frame names).map (·.2) = (List.range names.length).map (.param frame) := by
    rw [paramSites, List.map_map, List.range_eq_range', ← List.zipIdx_map_snd 0 names, List.map_map]
    rfl
  rw [heq]
  exact List.Pairwise.map _ (fun i j hij h => hij (by cases h; rfl)) List.nodup_range

theorem blockSites_nodup {owner : Nat} {locals : List BlockLocal} (self : Option (String × Nat))
    (hnames : (locals.map (·.name)).Nodup) (hslots : (locals.map (·.slot)).Nodup) :
    ((blockSites owner self (locals.map fun l => (l.name, (l.slot : Int)))).map (·.2)).Nodup := by
  rw [blockSites, List.map_map, List.map_map]
  refine List.Pairwise.map _ ?_ ((List.pairwise_map.1 hnames).and (List.pairwise_map.1 hslots))
  intro l l' ⟨hname, hslot⟩ heq
  -- Two locals differ in their slots, and at most one of them has the name of the lambda.
  change localSite owner self l.name l.slot = localSite owner self l'.name l'.slot at heq
  rcases localSite_eq owner self l.name l.slot with h | ⟨id, hself, h⟩ <;>
    rcases localSite_eq owner self l'.name l'.slot with h' | ⟨id', hself', h'⟩ <;> rw [h, h'] at heq
  · simp only [Site.slot.injEq, true_and] at heq
    omega
  · cases heq
  · cases heq
  · rw [hself] at hself'
    exact hname (Prod.mk.inj (Option.some.inj hself')).1

/-- Binders that are open at the same time are different places. -/
theorem sites_nodup {self : Option (String × Nat)} (hv : FramesValid t globals frames)
    (hself : ∀ x id, self = some (x, id) → id ∉ lambdaIds frames) : ((sites self frames).map (·.2)).Nodup := by
  induction frames generalizing self with
  | nil => exact List.nodup_nil
  | cons frame outer ih =>
    cases frame with
    | lambda id params binding =>
      obtain ⟨⟨s, hs⟩, houter⟩ := hv
      have hid : id ∉ lambdaIds outer := fun hi => Nat.lt_irrefl _ (hs.inside id hi)
      rw [sites, List.map_append]
      refine List.nodup_append.2 ⟨paramSites_nodup id params, ih houter ?_, ?_⟩
      · intro x id' h
        obtain ⟨y, -, hy⟩ := Option.map_eq_some_iff.1 h
        obtain rfl : id = id' := (Prod.mk.inj hy).2
        exact hid
      · intro a ha b hb heq
        obtain ⟨p, hp, rfl⟩ := List.mem_map.1 ha
        obtain ⟨q, hq, rfl⟩ := List.mem_map.1 hb
        obtain ⟨y, -, rfl⟩ := List.mem_map.1 hp
        have hwithin := sites_within houter q hq
        rw [← heq] at hwithin
        exact hid hwithin
    | block owner locals =>
      obtain ⟨hblock, houter⟩ := hv
      rw [sites, List.map_append]
      refine List.nodup_append.2 ⟨blockSites_nodup self hblock.names hblock.nodup, ih houter (by simp), ?_⟩
      intro a ha b hb heq
      obtain ⟨p, hp, rfl⟩ := List.mem_map.1 ha
      obtain ⟨q, hq, rfl⟩ := List.mem_map.1 hb
      obtain ⟨y, hy, rfl⟩ := List.mem_map.1 hp
      obtain ⟨l, hl, rfl⟩ := List.mem_map.1 hy
      have hwithin := sites_within houter q hq
      rw [← heq] at hwithin
      change (localSite owner self l.name l.slot).Within outer none at hwithin
      rcases localSite_eq owner self l.name l.slot with h | ⟨id, hid, h⟩ <;> rw [h] at hwithin
      · obtain ⟨n, hn, hs⟩ := hwithin.2 hblock.owner_eq
        obtain rfl : l.slot = n := by omega
        exact hblock.fresh _ (List.mem_map_of_mem hl) hn
      · rcases hwithin with hmem | ⟨x, hx⟩
        · exact hself _ _ hid hmem
        · cases hx

theorem sites_mark (self : Option (String × Nat)) (x : String) (p : Progress) (frames : List Frame) :
    sites self (mark x p frames) = sites self frames := by
  rcases frames with _ | ⟨_ | ⟨owner, locals⟩, outer⟩
  · rfl
  · rfl
  · rw [mark, sites, sites, List.map_map]
    congr 2
    refine List.map_congr_left fun l _ => ?_
    by_cases h : l.name = x <;> simp [h]

theorem mark_ne_nil {p : Progress} (h : frames ≠ []) : mark x p frames ≠ [] := by
  rcases frames with _ | ⟨_ | _, _⟩
  · exact h
  · exact h
  · simp [mark]

end Sites

/-! ## Resolved trees -/

namespace Expr

theorem paramNames_bindParams {index : Nat} {seen names : List String} {params params' : List Expr}
    (h : Resolver.bindParams index seen params = (params', .ok names)) :
    paramNames params' = paramNames params ∧ bareAll params' = bareAll params ∧
      ∀ (i : Nat) (p : Expr), params'[i]? = some p → ∃ span x, p = .name span x (some (.arg (index + i : Nat))) := by
  induction params generalizing index seen params' with
  | nil =>
    cases h
    exact ⟨rfl, rfl, fun i p hp => by simp at hp⟩
  | cons p params ih =>
    cases p with
    | name span x var =>
      rw [Resolver.bindParams] at h
      split at h
      · cases h
      · cases hrest : Resolver.bindParams (index + 1) (seen ++ [x]) params with
        | mk rest' names' =>
          rw [hrest] at h
          obtain ⟨rfl, rfl⟩ := Prod.mk.inj h
          obtain ⟨hnames, hbare, hnumbered⟩ := ih hrest
          have hcons : paramNames (.name span x (some (.arg index)) :: rest') =
              paramNames (.name span x var :: params) := by
            rw [paramNames, paramNames, List.filterMap_cons, List.filterMap_cons]
            exact congrArg (x :: ·) hnames
          refine ⟨hcons, by rw [bareAll, bareAll, hbare]; rfl, fun i p hp => ?_⟩
          cases i with
          | zero =>
            obtain rfl : _ = p := by simpa using hp
            exact ⟨span, x, rfl⟩
          | succ i =>
            obtain ⟨span', y, rfl⟩ := hnumbered i p (by simpa using hp)
            exact ⟨span', y, by rw [Nat.add_right_comm, Nat.add_assoc]⟩
    | number | call | lambda | block | assign | cond => simp [Resolver.bindParams] at h

theorem find?_of_nodup {locals : List BlockLocal} (h : (locals.map (·.name)).Nodup) {l : BlockLocal} (hl : l ∈ locals) :
    locals.find? (·.name == l.name) = some l := by
  induction locals with
  | nil => cases hl
  | cons l' locals ih =>
    obtain ⟨hnotin, hnodup⟩ := List.nodup_cons.1 h
    rcases List.mem_cons.1 hl with rfl | hl
    · simp
    · have hne : l'.name ≠ l.name := fun h => hnotin (List.mem_map.2 ⟨l, hl, h.symm⟩)
      rw [List.find?_cons, beq_eq_false_iff_ne.2 hne]
      exact ih hnodup hl

/-- The statements of a resolved block assign to the slots that the block has in its frame. -/
theorem localSlots_resolved {t : ScopeTable} {globals : List String} {frames : List Frame} {es es' : List Expr}
    (h : ElabStatements t globals frames es es') :
    localSlots es' = (assigned es).map fun x => (x, (((Frame.slot? x frames).getD 0 : Nat) : Int)) := by
  induction es generalizing frames es' with
  | nil => cases h
  | cons e es ih =>
    cases h.blockForm with
    | result hassign =>
      obtain ⟨e', he, rfl⟩ := elabStatements_result.1 h
      rw [assigned_result hassign]
      cases e' with
      | assign => cases he.isAssign.2
      | number | name | call | lambda | block | cond => rfl
    | @assign span x value var es hform =>
      obtain ⟨s, value', rest', hs, -, hrest, rfl⟩ := (elabStatements_assign hform).1 h
      rw [localSlots, assigned, List.map_cons, hs, ih hrest]
      simp only [slot?_mark]
      rfl

theorem localSlots_of_block {t : ScopeTable} {globals : List String} {owner : Nat} {locals : List BlockLocal}
    {outer : List Frame} {es es' : List Expr} (hnodup : (locals.map (·.name)).Nodup)
    (hnames : locals.map (·.name) = assigned es)
    (h : ElabStatements t globals (.block owner locals :: outer) es es') :
    localSlots es' = locals.map fun l => (l.name, (l.slot : Int)) := by
  rw [localSlots_resolved h, ← hnames, List.map_map]
  refine List.map_congr_left fun l hl => ?_
  simp [Frame.slot?, find?_of_nodup hnodup hl]

/-- The lambda that an expression is and the name that it is assigned to. -/
def selfSite (binding : Option String) (e : Expr) : Option (String × Nat) := binding.bind fun x => e.frame?.map (x, ·)

theorem selfSite_of_frame? {binding : Option String} {e : Expr} (h : e.frame? = none) : selfSite binding e = none := by
  cases binding <;> simp [selfSite, h]

mutual

/-- In a resolved tree every name leads to its innermost binder. -/
theorem resolved_placed {t : ScopeTable} {globals : List String} {frames : List Frame} {binding : Option String}
    {e' : Expr} (e : Expr) (h : Elab t globals frames binding e e') (hv : FramesValid t globals frames)
    (hne : frames ≠ []) :
    e'.Placed t globals (innermost frames) (sites (selfSite binding e') frames) ∧ e'.bare = e.bare := by
  cases e with
  | number span value =>
    obtain rfl := h
    exact ⟨trivial, rfl⟩
  | name span x var =>
    obtain ⟨v, hrefers, rfl⟩ := h
    rw [selfSite_of_frame? rfl]
    obtain ⟨site, origin, hbinds, hleads, hshows, horigin⟩ := hrefers.reaches hv
    have hsize : innermost frames < t.size + 1 := Nat.lt_succ_of_lt (hv.lt_size (hv.innermost_mem hne))
    exact ⟨⟨v, site, rfl, hbinds, hleads, ⟨origin, horigin _ hsize, hshows⟩, sites_nodup hv (by simp)⟩, rfl⟩
  | call span callee args =>
    obtain ⟨callee', args', hcallee, hargs, rfl⟩ := h
    rw [selfSite_of_frame? rfl]
    obtain ⟨hc, hbare⟩ := resolved_placed callee hcallee hv hne
    obtain ⟨ha, hbare'⟩ := resolved_allPlaced args hargs hv hne
    exact ⟨⟨hc, ha⟩, by rw [bare, bare, hbare, hbare']⟩
  | lambda span params body frame label =>
    obtain ⟨params', names, id, s, body', hparams, hs, hname, hbody, rfl⟩ := h
    obtain ⟨hnames, hbare, hnumbered⟩ := paramNames_bindParams hparams
    obtain ⟨-, -, -, rfl⟩ := (@Resolver.bindParams_ok_iff 0 [] names params).1 (by rw [hparams])
    obtain ⟨hb, hbare'⟩ := resolved_placed body hbody ⟨⟨s, hs⟩, hv⟩ (by simp)
    refine ⟨⟨id, rfl, by simpa [Numbered] using hnumbered, ?_⟩, by rw [bare, bare, hbare, hbare']⟩
    rw [hnames]
    cases binding <;> exact hb
  | block span statements =>
    obtain ⟨locals, statements', hblock, hpending, hnames, hstatements, rfl⟩ := h
    rw [selfSite_of_frame? rfl]
    obtain ⟨hp, hbare⟩ := resolved_statementsPlaced statements hstatements ⟨hblock, hv⟩ (by simp) fun self => rfl
    rw [← localSlots_of_block hblock.names hnames hstatements] at hp
    exact ⟨hp, by rw [bare, bare, hbare]⟩
  | assign span x value var => cases h
  | cond span test onTrue onFalse =>
    obtain ⟨test', onTrue', onFalse', htest, hthen, helse, rfl⟩ := h
    rw [selfSite_of_frame? rfl]
    obtain ⟨ht, hbare⟩ := resolved_placed test htest hv hne
    obtain ⟨h₁, hbare₁⟩ := resolved_placed onTrue hthen hv hne
    obtain ⟨h₂, hbare₂⟩ := resolved_placed onFalse helse hv hne
    exact ⟨⟨ht, h₁, h₂⟩, by rw [bare, bare, hbare, hbare₁, hbare₂]⟩

theorem resolved_allPlaced {t : ScopeTable} {globals : List String} {frames : List Frame} {es' : List Expr}
    (es : List Expr) (h : ElabAll t globals frames es es') (hv : FramesValid t globals frames) (hne : frames ≠ []) :
    AllPlaced t globals (innermost frames) (sites none frames) es' ∧ bareAll es' = bareAll es := by
  cases es with
  | nil =>
    obtain rfl := h
    exact ⟨trivial, rfl⟩
  | cons e es =>
    obtain ⟨e', rest', he, hes, rfl⟩ := h
    obtain ⟨hp, hbare⟩ := resolved_placed e he hv hne
    obtain ⟨hp', hbare'⟩ := resolved_allPlaced es hes hv hne
    exact ⟨⟨hp, hp'⟩, by rw [bareAll, bareAll, hbare, hbare']⟩

theorem resolved_statementsPlaced {t : ScopeTable} {globals : List String} {frames : List Frame} {es' : List Expr}
    {locals : List (String × Int)} {binders : Binders} (es : List Expr) (h : ElabStatements t globals frames es es')
    (hv : FramesValid t globals frames) (hne : frames ≠ [])
    (hsites : ∀ self, sites self frames = blockSites (innermost frames) self locals ++ binders) :
    StatementsPlaced t globals (innermost frames) locals binders es' ∧ bareAll es' = bareAll es := by
  cases h.blockForm with
  | @result e hassign =>
    obtain ⟨e', he, rfl⟩ := elabStatements_result.1 h
    obtain ⟨hp, hbare⟩ := resolved_placed e he hv hne
    refine ⟨?_, by rw [bareAll, bareAll, hbare]; rfl⟩
    rw [StatementsPlaced, ← hsites]
    exact hp
  | @assign span x value var es hform =>
    obtain ⟨s, value', rest', hs, hvalue, hrest, rfl⟩ := (elabStatements_assign hform).1 h
    obtain ⟨hp, hbare⟩ := resolved_placed value hvalue ((framesValid_mark x _).2 hv) (mark_ne_nil hne)
    obtain ⟨hp', hbare'⟩ := resolved_statementsPlaced es hrest ((framesValid_mark x _).2 hv) (mark_ne_nil hne)
      (by simpa only [sites_mark, innermost_mark] using hsites)
    rw [sites_mark, innermost_mark, hsites] at hp
    rw [innermost_mark] at hp'
    refine ⟨?_, by rw [bareAll, bareAll, bare, bare, hbare, hbare']⟩
    cases rest' with
    | nil => exact absurd rfl hrest.ne_nil
    | cons => exact ⟨hp, hp'⟩

end

end Expr

/-- Resolution is lexical scoping: it succeeds exactly on well-scoped trees, and in the tree that it gives, which is the
same but for what has been filled in, every name leads to its innermost binder. -/
theorem Resolver.program_lexical (globals : List String) (e : Expr) :
    ((∃ e' r, (Resolver.new globals).program e = .done e' r) ↔ e.WellScoped globals []) ∧
      ∀ e' r, (Resolver.new globals).program e = .done e' r →
        e'.bare = e.bare ∧ e'.Placed r.scopes globals 0 [] := by
  refine ⟨program_succeeds_iff, fun e' r h => ?_⟩
  obtain ⟨⟨s, hs⟩, -, htree⟩ := program_sound h
  obtain ⟨hplaced, hbare⟩ := Expr.resolved_placed e htree ⟨⟨s, hs⟩, trivial⟩ (by simp)
  exact ⟨hbare, hplaced⟩

/-- `{ k = 1; f = n -> (() -> f(k, n)); f }`, with a `k` that hides an entry of the prelude. -/
def nestedReferences : Expr :=
  let x (name : String) : Expr := .name default name none
  .block default
    [.assign default "k" (.number default 1) none,
      .assign default "f" (.lambda default [x "n"]
        (.lambda default [] (.call default (x "f") [x "k", x "n"]) none none) none none) none,
      x "f"]

theorem Resolver.program_lexical_nestedReferences : nestedReferences.WellScoped ["k", "g"] [] ∧
    ∃ e' r, (Resolver.new ["k", "g"]).program nestedReferences = .done e' r ∧
      e'.bare = nestedReferences.bare ∧ e'.Placed r.scopes ["k", "g"] 0 [] := by
  have hw : nestedReferences.WellScoped ["k", "g"] [] := by
    simp [nestedReferences, Expr.WellScoped, Expr.AllWellScoped, Expr.StatementsWellScoped, Expr.assigned,
      Expr.paramNames, Expr.asName?, Expr.isLambda, Reach.Allows, List.lookup]
  obtain ⟨e', r, h⟩ := (program_lexical ["k", "g"] nestedReferences).1.2 hw
  exact ⟨hw, e', r, h, (program_lexical ["k", "g"] nestedReferences).2 e' r h⟩

end ClosureLang
