import ClosureLang.Proofs.Resolution

/-!
# Which trees have their names resolved

`WellScoped` is the rule of lexical scoping: every name has a binder around it that may be used where the name stands.
Parameters can be used in the whole body of their lambda. All names that a block assigns are bound in the whole block,
but a statement can use only those that were assigned before it, and its own if it assigns a lambda.

The walk that resolves names succeeds exactly on these trees. Whether it does depends only on the frames that are open,
and `Frame.reach` reads off from them what `WellScoped` wants to know.
-/

namespace ClosureLang

/-- The names that binders around a place declare, innermost first, and whether they can be used there. -/
abbrev Reach := List (String × Bool)

/-- A name can be used if its innermost binder allows it, or if it has no binder and is in the prelude. -/
def Reach.Allows (reach : Reach) (globals : List String) (x : String) : Prop :=
  match reach.lookup x with
  | some usable => usable = true
  | none => x ∈ globals

namespace Expr

def isLambda : Expr → Bool
  | lambda _ _ _ _ _ => true
  | _ => false

/-- The names among parameters. -/
def paramNames (params : List Expr) : List String := params.filterMap asName?

mutual

def WellScoped (globals : List String) : Reach → Expr → Prop
  | _, number _ _ => True
  | reach, name _ x _ => reach.Allows globals x
  | reach, call _ callee args => WellScoped globals reach callee ∧ AllWellScoped globals reach args
  | reach, lambda _ params body _ _ =>
    (∀ p ∈ params, p.asName? ≠ none) ∧ (paramNames params).Nodup ∧
      WellScoped globals ((paramNames params).map (·, true) ++ reach) body
  | reach, block _ statements => (assigned statements).Nodup ∧ StatementsWellScoped globals reach [] statements
  | _, assign _ _ _ _ => False
  | reach, cond _ test onTrue onFalse =>
    WellScoped globals reach test ∧ WellScoped globals reach onTrue ∧ WellScoped globals reach onFalse

def AllWellScoped (globals : List String) : Reach → List Expr → Prop
  | _, [] => True
  | reach, e :: es => WellScoped globals reach e ∧ AllWellScoped globals reach es

/-- The statements of a block after those that assigned the names `earlier`. -/
def StatementsWellScoped (globals : List String) (reach : Reach) : List String → List Expr → Prop
  | _, [] => False
  | earlier, [result] => WellScoped globals (earlier.map (·, true) ++ reach) result
  | earlier, assign _ x value _ :: statements =>
    WellScoped globals
        (earlier.map (·, true) ++ (x, value.isLambda) :: (assigned statements).map (·, false) ++ reach) value ∧
      StatementsWellScoped globals reach (earlier ++ [x]) statements
  | _, _ :: _ => False

end

end Expr

/-! ## Searching -/

/-- Whether a reference can use a local. `self` is the name that the lambda just inside the block is assigned to, if the
reference is inside one. -/
def BlockLocal.usable (self : Option String) (l : BlockLocal) : Bool :=
  l.progress == .defined || (l.progress == .defining && self == some l.name)

/-- What open frames let a reference use. -/
def Frame.reach : (self : Option String) → List Frame → Reach
  | _, [] => []
  | _, lambda _ params binding :: outer => params.map (·, true) ++ reach binding outer
  | self, block _ locals :: outer => locals.map (fun l => (l.name, l.usable self)) ++ reach none outer

open ClosureLang.Frame

section Lookup

variable {x : String} {globals : List String} {reach : Reach}

theorem lookup_map_true (names : List String) :
    (names.map (·, true)).lookup x = if x ∈ names then some true else none := by
  induction names with
  | nil => rfl
  | cons y names ih =>
    rw [List.map_cons, List.lookup_cons, ih]
    by_cases h : x = y
    · simp [h]
    · simp [beq_eq_false_iff_ne.2 h, h]

theorem lookup_map_locals {α : Type} (f : BlockLocal → α) (locals : List BlockLocal) :
    (locals.map fun l => (l.name, f l)).lookup x = (locals.find? (·.name == x)).map f := by
  induction locals with
  | nil => rfl
  | cons l locals ih =>
    rw [List.map_cons, List.lookup_cons, List.find?_cons, ih, BEq.comm]
    cases l.name == x <;> rfl

theorem allows_append_of_none {inner : Reach} (h : inner.lookup x = none) :
    Reach.Allows (inner ++ reach) globals x ↔ reach.Allows globals x := by
  rw [Reach.Allows, Reach.Allows, List.lookup_append, h, Option.none_or]

theorem allows_append_of_some {inner : Reach} {usable : Bool} (h : inner.lookup x = some usable) :
    Reach.Allows (inner ++ reach) globals x ↔ usable = true := by
  rw [Reach.Allows, List.lookup_append, h, Option.some_or]

end Lookup

namespace Resolver

/-- A search ends well where the frames allow the name. -/
theorem search_isOk_iff {globals : List String} {x : String} {inner : Option Frame} {self : Option String}
    {crossed : List Nat} {frames : List Frame} (hself : inner.any (·.binds x) = (self == some x)) :
    (∃ found, search globals x inner crossed frames = .ok found) ↔ (reach self frames).Allows globals x := by
  induction frames generalizing inner self crossed with
  | nil =>
    rw [search, reach]
    cases hi : globals.idxOf? x with
    | some i => simpa [Reach.Allows] using List.isSome_idxOf?.1 (by rw [hi]; rfl)
    | none => simpa [Reach.Allows] using List.idxOf?_eq_none_iff.1 hi
  | cons frame outer ih =>
    cases frame with
    | lambda id params binding =>
      rw [search, reach]
      cases hi : params.idxOf? x with
      | some i =>
        have hx : x ∈ params := List.isSome_idxOf?.1 (by rw [hi]; rfl)
        rw [allows_append_of_some (by rw [lookup_map_true, if_pos hx])]
        simp
      | none =>
        have hx : x ∉ params := List.idxOf?_eq_none_iff.1 hi
        rw [allows_append_of_none (by rw [lookup_map_true, if_neg hx])]
        exact ih rfl
    | block owner locals =>
      rw [search, reach]
      cases hl : locals.find? (·.name == x) with
      | none =>
        rw [allows_append_of_none (by rw [lookup_map_locals, hl]; rfl)]
        exact ih rfl
      | some l =>
        have hname : l.name = x := by simpa using List.find?_some hl
        rw [allows_append_of_some (by rw [lookup_map_locals, hl]; rfl), BlockLocal.usable, hname, ← hself]
        cases hp : l.progress with
        | pending => simp [hp]
        | defining => cases hb : inner.any (·.binds x) <;> simp [hp]
        | defined => simp [hp]

theorem lookup_isOk_iff {r : Resolver} {x : String} :
    (∃ found, r.lookup x = .ok found) ↔ (reach none r.frames).Allows r.globals x := by
  have hsearch := @search_isOk_iff r.globals x none none [] r.frames rfl
  rw [← hsearch, lookup]
  cases search r.globals x none [] r.frames <;> simp

/-! ## Lambdas and blocks -/

theorem bindParams_ok_iff {index : Nat} {seen names : List String} {params : List Expr} :
    (bindParams index seen params).2 = .ok names ↔
      (∀ p ∈ params, p.asName? ≠ none) ∧ (Expr.paramNames params).Nodup ∧ (∀ x ∈ Expr.paramNames params, x ∉ seen) ∧
        names = seen ++ Expr.paramNames params := by
  induction params generalizing index seen with
  | nil => simp [bindParams, Expr.paramNames, eq_comm]
  | cons p params ih =>
    cases p with
    | name span x var =>
      have hnames : Expr.paramNames (.name span x var :: params) = x :: Expr.paramNames params := rfl
      rw [bindParams, hnames]
      by_cases hx : x ∈ seen
      · simp [hx]
      · rw [if_neg hx]
        dsimp only
        rw [ih]
        simp only [List.mem_cons, forall_eq_or_imp, List.nodup_cons, List.mem_append, List.append_assoc,
          List.singleton_append]
        grind [Expr.asName?]
    | number | call | lambda | block | assign | cond => simp [bindParams, Expr.asName?]

theorem declare_isOk_iff {r : Resolver} {declared : List BlockLocal} {statements : List Expr} :
    (∃ r' locals, r.declare declared statements = (r', .ok locals)) ↔
      (∀ e ∈ statements, e.isAssign = true) ∧ (Expr.assigned statements).Nodup ∧
        ∀ x ∈ Expr.assigned statements, x ∉ declared.map (·.name) := by
  induction statements generalizing r declared with
  | nil => simp [declare, Expr.assigned]
  | cons e statements ih =>
    cases e with
    | assign span x value var =>
      have hany : declared.any (·.name == x) = true ↔ x ∈ declared.map (·.name) := by simp
      rw [declare, Expr.assigned]
      by_cases hx : x ∈ declared.map (·.name)
      · rw [if_pos (hany.2 hx)]
        simp only [List.mem_cons, forall_eq_or_imp, hx]
        simp
      · rw [if_neg fun h => hx (hany.1 h)]
        dsimp only
        rw [ih, List.map_append]
        generalize declared.map (·.name) = names at hx
        simp only [List.mem_cons, List.nodup_cons, forall_eq_or_imp, List.map_cons, List.map_nil, List.mem_append]
        grind [Expr.isAssign]
    | number | name | call | lambda | block | cond => simp [declare, Expr.isAssign]

/-- A block can be opened if its statements have the right form and assign different names. -/
theorem openBlock_isOk_iff {r : Resolver} {span : Span} {statements : List Expr} :
    (∃ r', r.openBlock span statements = (r', none)) ↔
      Expr.BlockForm statements ∧ (Expr.assigned statements).Nodup := by
  constructor
  · rintro ⟨r', h⟩
    obtain ⟨last, r₁, locals, hlast, hl, hd, -⟩ := openBlock_eq h
    obtain ⟨hassigns, hnodup, -⟩ := declare_isOk_iff.1 ⟨r₁, locals, hd⟩
    have hform := Expr.blockForm_of hlast hl hassigns
    exact ⟨hform, hform.assigned_dropLast ▸ hnodup⟩
  · rintro ⟨hform, hnodup⟩
    obtain ⟨last, hlast, hl⟩ := hform.getLast?_eq
    obtain ⟨r₁, locals, hd⟩ := (@declare_isOk_iff r [] statements.dropLast).2
      ⟨hform.dropLast_assigns, hform.assigned_dropLast.symm ▸ hnodup, by simp⟩
    unfold openBlock
    rw [hlast]
    cases last with
    | assign => cases hl
    | number | name | call | lambda | block | cond => exact ⟨_, by simp only [hd]; rfl⟩

end Resolver

/-! ## Statements -/

section Progress

variable {x : String} {p : Progress} {owner : Nat} {locals : List BlockLocal} {outer : List Frame}

/-- The names of a block and how far they have come. -/
def progresses (locals : List BlockLocal) : List (String × Progress) := locals.map fun l => (l.name, l.progress)

theorem progresses_mark : progresses (locals.map fun l => if l.name == x then { l with progress := p } else l) =
    (progresses locals).map fun (y, q) => if y = x then (y, p) else (y, q) := by
  rw [progresses, progresses, List.map_map, List.map_map]
  refine List.map_congr_left fun l _ => ?_
  by_cases h : l.name = x <;> simp [h]

/-- Marking the first name that has not been assigned yet. -/
theorem progresses_mark_next {earlier later : List String} (hnodup : (earlier ++ x :: later).Nodup)
    (h : progresses locals = earlier.map (·, .defined) ++ (x :: later).map (·, .pending)) :
    progresses (locals.map fun l => if l.name == x then { l with progress := p } else l) =
      earlier.map (·, .defined) ++ (x, p) :: later.map (·, .pending) := by
  have hsame : ∀ (names : List String) (q : Progress), x ∉ names →
      (names.map (·, q)).map (fun (y, q) => if y = x then (y, p) else (y, q)) = names.map (·, q) := by
    intro names q hx
    rw [List.map_map]
    refine List.map_congr_left fun y hy => ?_
    have hne : y ≠ x := fun h => hx (h ▸ hy)
    simp [hne]
  obtain ⟨-, hlater, hdisjoint⟩ := List.nodup_append.1 hnodup
  have hearlier : x ∉ earlier := fun hx => hdisjoint x hx x List.mem_cons_self rfl
  rw [progresses_mark, h, List.map_append, hsame _ _ hearlier, List.map_cons, List.map_cons,
    hsame _ _ (List.nodup_cons.1 hlater).1]
  simp

theorem reach_block {self : Option String} : reach self (.block owner locals :: outer) =
    (progresses locals).map (fun (y, q) => (y, q == .defined || (q == .defining && self == some y))) ++
      reach none outer := by
  rw [reach, progresses, List.map_map]
  rfl

end Progress

namespace Resolution

variable {α β : Type} {step : Resolution α} {f : α → β} {next : α → Resolver → Resolution β} {P Q : Prop}

def Succeeds (step : Resolution α) : Prop := ∃ tree r, step = .done tree r

theorem succeeds_map : (step.map f).Succeeds ↔ step.Succeeds := by
  cases step <;> simp [Succeeds, map]

theorem succeeds_andThen_done {tree : α → Resolver → β} {state : α → Resolver → Resolver} :
    (step.andThen f fun a r => .done (tree a r) (state a r)).Succeeds ↔ step.Succeeds := by
  cases step <;> simp [Succeeds, andThen]

theorem succeeds_andThen (hstep : step.Succeeds ↔ P)
    (hnext : ∀ tree r, step = .done tree r → ((next tree r).Succeeds ↔ Q)) :
    (step.andThen f next).Succeeds ↔ P ∧ Q := by
  cases step with
  | done tree r =>
    have hP : P := hstep.1 ⟨tree, r, rfl⟩
    simpa [andThen, hP] using hnext tree r rfl
  | failed tree error r =>
    have hP : ¬ P := fun hp => by
      obtain ⟨_, _, h⟩ := hstep.2 hp
      cases h
    simp [andThen, Succeeds, hP]

end Resolution

namespace Expr

open Resolver Resolution

theorem StatementsWellScoped.blockForm {globals : List String} {reach : Reach} {earlier : List String}
    {es : List Expr} (h : StatementsWellScoped globals reach earlier es) : BlockForm es := by
  induction es generalizing earlier with
  | nil => cases h
  | cons e es ih =>
    cases es with
    | nil =>
      refine .result ?_
      cases e with
      | assign => cases h
      | number | name | call | lambda | block | cond => rfl
    | cons e' es =>
      cases e with
      | assign span x value var => exact .assign (ih h.2)
      | number | name | call | lambda | block | cond => cases h

/-- The name that a lambda in this place knows as its own. -/
def selfName (binding : Option String) (e : Expr) : Option String := if e.isLambda then binding else none

@[simp] theorem selfName_none (e : Expr) : selfName none e = none := ite_self none

theorem selfName_of_not_lambda {binding : Option String} {e : Expr} (h : e.isLambda = false) :
    selfName binding e = none := by
  rw [selfName, h]
  rfl

/-- What a block's frame allows while a value is assigned to `x`. -/
theorem reach_defining {x : String} {value : Expr} {owner : Nat} {locals : List BlockLocal} {outer : List Frame}
    {earlier later : List String}
    (h : progresses locals = earlier.map (·, .defined) ++ (x, .defining) :: later.map (·, .pending)) :
    Frame.reach (selfName (some x) value) (.block owner locals :: outer) =
      earlier.map (·, true) ++ (x, value.isLambda) :: later.map (·, false) ++ Frame.reach none outer := by
  rw [reach_block, h]
  cases hv : value.isLambda <;> simp [selfName, hv, Function.comp_def]

theorem reach_defined {owner : Nat} {locals : List BlockLocal} {outer : List Frame} {earlier : List String}
    (h : progresses locals = earlier.map (·, .defined)) :
    Frame.reach none (.block owner locals :: outer) = earlier.map (·, true) ++ Frame.reach none outer := by
  rw [reach_block, h]
  simp [Function.comp_def]

mutual

theorem resolve_succeeds_iff {r : Resolver} {binding : Option String} (e : Expr) (hr : Ready r)
    (hb : ∀ b, binding = some b → Defining b r.frames) :
    (e.resolve binding r).Succeeds ↔ e.WellScoped r.globals (Frame.reach (selfName binding e) r.frames) := by
  cases e with
  | number span value => simp [resolve, WellScoped, Succeeds]
  | name span x var =>
    rw [resolve, WellScoped, selfName_of_not_lambda rfl, ← lookup_isOk_iff]
    cases h : r.lookup x <;> simp [Succeeds]
  | call span callee args =>
    have hcallee := @resolve_succeeds_iff r none callee hr (by simp)
    rw [selfName_none] at hcallee
    rw [resolve, WellScoped, selfName_of_not_lambda rfl]
    refine succeeds_andThen hcallee fun callee' r₁ h => ?_
    obtain ⟨hy, hf⟩ := resolve_sound callee h hr (by simp)
    rw [succeeds_map, resolveAll_succeeds_iff args (hr.advance hy.advances hf), hf, hy.advances.globals]
  | lambda span params body frame label =>
    rw [resolve, WellScoped]
    split
    · next params' error hparams =>
      have hfail : ¬ ((∀ p ∈ params, p.asName? ≠ none) ∧ (paramNames params).Nodup) := fun ⟨hnames, hnodup⟩ => by
        have hok := (@bindParams_ok_iff 0 [] _ params).2 ⟨hnames, hnodup, by simp, rfl⟩
        rw [hparams] at hok
        cases hok
      simp [Succeeds, ← and_assoc, hfail]
    · next params' names hparams =>
      obtain ⟨hnames, hnodup, -, rfl⟩ := (@bindParams_ok_iff 0 [] names params).1 (by rw [hparams])
      have hbody := @resolve_succeeds_iff (r.openLambda (label.or binding) binding (paramNames params)) none body
        (hr.openLambda _ _ hb) (by simp)
      rw [selfName_none] at hbody
      rw [and_iff_right hnames, and_iff_right hnodup, succeeds_andThen_done]
      exact hbody
  | block span statements =>
    rw [resolve, WellScoped, selfName_of_not_lambda rfl]
    split
    · next r₁ error hopen =>
      have hfail : ¬ ((assigned statements).Nodup ∧ StatementsWellScoped r.globals (Frame.reach none r.frames) []
          statements) := fun ⟨hnodup, hs⟩ => by
        obtain ⟨r₂, hok⟩ := (@openBlock_isOk_iff r span statements).2 ⟨hs.blockForm, hnodup⟩
        rw [hopen] at hok
        cases hok
      simp [Succeeds, hfail]
    · next r₁ hopen =>
      obtain ⟨hform, hnodup⟩ := openBlock_isOk_iff.1 ⟨r₁, hopen⟩
      obtain ⟨locals, hframes, -, hnames, hpending, hr₁, hadv⟩ := openBlock_sound hopen hr
      have hl : progresses locals = (assigned statements).map (·, .pending) := by
        rw [← hnames, progresses, List.map_map]
        exact List.map_congr_left fun l hl => by rw [Function.comp_apply, hpending l hl]
      have hstatements := resolveStatements_succeeds_iff [] statements hr₁ hframes hl hnodup hform
      rw [hadv.globals] at hstatements
      rw [and_iff_right hnodup, succeeds_andThen_done]
      exact hstatements
  | assign span x value var => simp [resolve, WellScoped, Succeeds]
  | cond span test onTrue onFalse =>
    have htest := @resolve_succeeds_iff r none test hr (by simp)
    rw [selfName_none] at htest
    rw [resolve, WellScoped, selfName_of_not_lambda rfl]
    refine succeeds_andThen htest fun test' r₁ h => ?_
    obtain ⟨hy, hf⟩ := resolve_sound test h hr (by simp)
    have hr₁ := hr.advance hy.advances hf
    have hthen := @resolve_succeeds_iff r₁ none onTrue hr₁ (by simp)
    rw [selfName_none, hf, hy.advances.globals] at hthen
    refine succeeds_andThen hthen fun onTrue' r₂ h => ?_
    obtain ⟨hy₁, hf₁⟩ := resolve_sound onTrue h hr₁ (by simp)
    rw [succeeds_map, resolve_succeeds_iff onFalse (hr₁.advance hy₁.advances hf₁) (by simp), selfName_none, hf₁, hf,
      hy₁.advances.globals, hy.advances.globals]

theorem resolveAll_succeeds_iff {r : Resolver} (es : List Expr) (hr : Ready r) :
    (resolveAll es r).Succeeds ↔ AllWellScoped r.globals (Frame.reach none r.frames) es := by
  cases es with
  | nil => simp [resolveAll, AllWellScoped, Succeeds]
  | cons e es =>
    have he := @resolve_succeeds_iff r none e hr (by simp)
    rw [selfName_none] at he
    rw [resolveAll, AllWellScoped]
    refine succeeds_andThen he fun e' r₁ h => ?_
    obtain ⟨hy, hf⟩ := resolve_sound e h hr (by simp)
    rw [succeeds_map, resolveAll_succeeds_iff es (hr.advance hy.advances hf), hf, hy.advances.globals]

theorem resolveStatements_succeeds_iff {r : Resolver} {owner : Nat} {locals : List BlockLocal} {outer : List Frame}
    (earlier : List String) (es : List Expr) (hr : Ready r) (hf : r.frames = .block owner locals :: outer)
    (hl : progresses locals = earlier.map (·, .defined) ++ (assigned es).map (·, .pending))
    (hnodup : (earlier ++ assigned es).Nodup) (hform : BlockForm es) :
    (resolveStatements es r).Succeeds ↔ StatementsWellScoped r.globals (Frame.reach none outer) earlier es := by
  cases hform with
  | @result e he =>
    rw [assigned_result he, List.map_nil, List.append_nil] at hl
    rw [resolveStatements_result he, succeeds_andThen_done, resolve_succeeds_iff e hr (by simp), selfName_none, hf,
      reach_defined hl,
      StatementsWellScoped]
  | @assign span x value var es hform =>
    -- All names before `x` have been assigned and none after it, which is what the static scope says too.
    have hdefining := progresses_mark_next (p := .defining) hnodup hl
    have hdefined := progresses_mark_next (p := .defined) hnodup hl
    have hb : ∀ b, some x = some b → Defining b (r.mark x .defining).frames := by
      have hx : x ∈ locals.map (·.name) := by
        have hnames : locals.map (·.name) = (progresses locals).map (·.1) := by
          rw [progresses, List.map_map]
          rfl
        rw [hnames, hl]
        simp [assigned]
      obtain ⟨l, hmem, hname⟩ := List.mem_map.1 hx
      have hslot : Frame.slot? x r.frames ≠ none := by simpa [hf, Frame.slot?] using ⟨l, hmem, hname⟩
      obtain ⟨s, hslot⟩ := Option.ne_none_iff_exists'.1 hslot
      rintro b ⟨⟩
      rw [frames_mark]
      exact defining_mark hslot
    have hvalue := resolve_succeeds_iff value (hr.mark x .defining) hb
    rw [frames_mark, globals_mark, hf, Frame.mark, reach_defining hdefining] at hvalue
    have heq : StatementsWellScoped r.globals (Frame.reach none outer) earlier (assign span x value var :: es) ↔
        WellScoped r.globals (earlier.map (·, true) ++ (x, value.isLambda) :: (assigned es).map (·, false) ++
          Frame.reach none outer) value ∧
        StatementsWellScoped r.globals (Frame.reach none outer) (earlier ++ [x]) es := by
      cases hform <;> rfl
    rw [resolveStatements, heq]
    refine succeeds_andThen hvalue fun value' r₁ h => ?_
    obtain ⟨hy, hf₁⟩ := resolve_sound value h (hr.mark x .defining) hb
    have hr₁ := (hr.mark x .defining).advance hy.advances hf₁
    have hframes : (r₁.mark x .defined).frames = .block owner (locals.map fun l =>
        if l.name == x then { l with progress := .defined } else l) :: outer := by
      rw [frames_mark, hf₁, frames_mark, mark_mark, hf, Frame.mark]
    rw [succeeds_map, resolveStatements_succeeds_iff (earlier ++ [x]) es (hr₁.mark x .defined) hframes
      (by simpa using hdefined) (by simpa [assigned] using hnodup) hform, globals_mark, hy.advances.globals,
      globals_mark]

end

end Expr

/-- A program can be resolved if its names are well scoped. -/
theorem Resolver.program_succeeds_iff {globals : List String} {e : Expr} :
    ((Resolver.new globals).program e).Succeeds ↔ e.WellScoped globals [] := by
  have h := @Expr.resolve_succeeds_iff _ none e (ready_main globals) (by simp)
  rw [Expr.selfName_none] at h
  rw [Resolver.program, Resolution.succeeds_andThen_done]
  exact h

end ClosureLang
