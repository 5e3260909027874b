import ClosureLang.Proofs.Unnamed
import Mathlib.Data.List.Nodup

/-!
# Names do not matter

Two trees that differ only in the names of parameters and locals are resolved alike and compiled to the same code. The
walks over both trees go side by side. Their open frames hold different names, but a pairing of the names says which of
them belong to the same binder, so a search ends in the same frame on both sides and a lambda captures the same places
in the same order.
-/

namespace ClosureLang

/-! ## Renaming -/

/-- The names that two trees give to the same binders, the innermost first. -/
abbrev Pairing := List (String × String)

/-- The two names refer to the same binder: the first pair that has one of them has the other too. A name of no pair is
free, and then it is the same name. -/
def Pairing.Same : Pairing → String → String → Prop
  | [], x, x' => x = x'
  | (a, a') :: Γ, x, x' => x = a ∧ x' = a' ∨ x ≠ a ∧ x' ≠ a' ∧ Pairing.Same Γ x x'

instance Pairing.decidableSame : (Γ : Pairing) → (x x' : String) → Decidable (Γ.Same x x')
  | [], x, x' => inferInstanceAs (Decidable (x = x'))
  | (a, a') :: Γ, x, x' =>
    have := decidableSame Γ x x'
    inferInstanceAs (Decidable (x = a ∧ x' = a' ∨ x ≠ a ∧ x' ≠ a' ∧ Pairing.Same Γ x x'))

namespace Expr

mutual

/-- The trees have the same form and spans, and every name refers to the same binder in both, also where a lambda or a
block declares it. Places, frames and labels, which are not part of a source, are not compared. -/
inductive Renamed : Pairing → Expr → Expr → Prop where
  | number {Γ : Pairing} {span : Span} {value : Float} : Renamed Γ (.number span value) (.number span value)
  | name {Γ : Pairing} {span : Span} {x x' : String} {var var' : Option Var} (h : Γ.Same x x') :
    Renamed Γ (.name span x var) (.name span x' var')
  | call {Γ : Pairing} {span : Span} {callee callee' : Expr} {args args' : List Expr}
    (hcallee : Renamed Γ callee callee') (hargs : AllRenamed Γ args args') :
    Renamed Γ (.call span callee args) (.call span callee' args')
  | lambda {Γ : Pairing} {span : Span} {params params' : List Expr} {body body' : Expr} {frame frame' : Option Nat}
    {label label' : Option String}
    (hparams : AllRenamed ((paramNames params).zip (paramNames params') ++ Γ) params params')
    (hbody : Renamed ((paramNames params).zip (paramNames params') ++ Γ) body body') :
    Renamed Γ (.lambda span params body frame label) (.lambda span params' body' frame' label')
  | block {Γ : Pairing} {span : Span} {statements statements' : List Expr}
    (h : AllRenamed ((assigned statements).zip (assigned statements') ++ Γ) statements statements') :
    Renamed Γ (.block span statements) (.block span statements')
  | assign {Γ : Pairing} {span : Span} {x x' : String} {value value' : Expr} {var var' : Option Var} (h : Γ.Same x x')
    (hvalue : Renamed Γ value value') : Renamed Γ (.assign span x value var) (.assign span x' value' var')
  | cond {Γ : Pairing} {span : Span} {test test' onTrue onTrue' onFalse onFalse' : Expr} (htest : Renamed Γ test test')
    (htrue : Renamed Γ onTrue onTrue') (hfalse : Renamed Γ onFalse onFalse') :
    Renamed Γ (.cond span test onTrue onFalse) (.cond span test' onTrue' onFalse')

inductive AllRenamed : Pairing → List Expr → List Expr → Prop where
  | nil {Γ : Pairing} : AllRenamed Γ [] []
  | cons {Γ : Pairing} {e e' : Expr} {es es' : List Expr} (head : Renamed Γ e e') (tail : AllRenamed Γ es es') :
    AllRenamed Γ (e :: es) (e' :: es')

end

variable {Γ : Pairing} {e e' : Expr} {es es' : List Expr}

theorem AllRenamed.forall₂ (h : AllRenamed Γ es es') : List.Forall₂ (Renamed Γ) es es' := by
  induction es generalizing es' with
  | nil =>
    cases h
    exact .nil
  | cons e es ih =>
    cases h with
    | cons head tail => exact .cons head (ih tail)

theorem Renamed.isAssign_eq (h : Renamed Γ e e') : e.isAssign = e'.isAssign := by cases h <;> rfl

theorem Renamed.asName? (h : Renamed Γ e e') : Option.Rel Γ.Same e.asName? e'.asName? := by
  cases h with
  | name h => exact .some h
  | number | call | lambda | block | assign | cond => exact .none

theorem AllRenamed.paramNames (h : AllRenamed Γ es es') : List.Forall₂ Γ.Same (paramNames es) (paramNames es') :=
  List.rel_filterMap (fun _ _ h => Renamed.asName? h) h.forall₂

/-- Statements that belong together end alike. -/
theorem AllRenamed.cases_last (h : AllRenamed Γ es es') : es = [] ∧ es' = [] ∨
    ∃ init last init' last', es = init ++ [last] ∧ es' = init' ++ [last'] ∧ AllRenamed Γ init init' ∧
      Renamed Γ last last' := by
  induction es generalizing es' with
  | nil =>
    cases h
    exact .inl ⟨rfl, rfl⟩
  | cons e es ih =>
    cases h with
    | @cons _ _ e' _ es' head tail =>
      refine .inr ?_
      rcases ih tail with ⟨rfl, rfl⟩ | ⟨init, last, init', last', rfl, rfl, hinit, hlast⟩
      · exact ⟨[], e, [], e', rfl, rfl, .nil, head⟩
      · exact ⟨e :: init, last, e' :: init', last', rfl, rfl, .cons head hinit, hlast⟩

theorem assigned_concat (h : e.isAssign = false) (init : List Expr) : assigned (init ++ [e]) = assigned init := by
  induction init with
  | nil => exact assigned_result h
  | cons first init ih =>
    cases first with
    | assign => simp [assigned, ih]
    | number | name | call | lambda | block | cond => simpa only [List.cons_append, assigned] using ih

end Expr

namespace Pairing

variable {Γ : Pairing} {x x' y y' : String}

/-- A name on one side stands for at most one name on the other. -/
theorem biUnique_same (Γ : Pairing) : Relator.BiUnique Γ.Same := by
  induction Γ with
  | nil => exact ⟨fun _ _ _ h h' => Eq.trans h h'.symm, fun _ _ _ h h' => Eq.trans (Eq.symm h) h'⟩
  | cons p Γ ih =>
    obtain ⟨a, a'⟩ := p
    constructor
    · rintro x y z (⟨rfl, rfl⟩ | ⟨hx, hz, h⟩) (⟨rfl, h'⟩ | ⟨hy, hz', h'⟩)
      · rfl
      · exact absurd rfl hz'
      · exact absurd h' hz
      · exact ih.1 h h'
    · rintro x y z (⟨rfl, rfl⟩ | ⟨hx, hz, h⟩) (⟨h', rfl⟩ | ⟨hy, hz', h'⟩)
      · rfl
      · exact absurd rfl hy
      · exact absurd h' hx
      · exact ih.2 h h'

theorem Same.eq_iff (h : Γ.Same x x') (h' : Γ.Same y y') : x = y ↔ x' = y' :=
  Relator.rel_eq (biUnique_same Γ) h h'

theorem Same.beq_eq (h : Γ.Same x x') (h' : Γ.Same y y') : (x == y) = (x' == y') := by
  rw [Bool.eq_iff_iff, beq_iff_eq, beq_iff_eq, h.eq_iff h']

/-- A pair of names is found at the same place of two lists that belong together, or in none of them. -/
theorem Same.idxOf? {xs xs' : List String} (hlength : xs.length = xs'.length)
    (h : Pairing.Same (xs.zip xs' ++ Γ) x x') :
    (∃ i, xs.idxOf? x = some i ∧ xs'.idxOf? x' = some i) ∨
      xs.idxOf? x = none ∧ xs'.idxOf? x' = none ∧ Γ.Same x x' := by
  induction xs generalizing xs' with
  | nil =>
    cases xs' with
    | nil => exact .inr ⟨rfl, rfl, h⟩
    | cons => cases hlength
  | cons a xs ih =>
    cases xs' with
    | nil => cases hlength
    | cons a' xs' =>
      rcases h with ⟨rfl, rfl⟩ | ⟨hx, hx', h⟩
      · exact .inl ⟨0, by simp [List.idxOf?_cons], by simp [List.idxOf?_cons]⟩
      · have hne : (a == x) = false := beq_eq_false_iff_ne.2 (Ne.symm hx)
        have hne' : (a' == x') = false := beq_eq_false_iff_ne.2 (Ne.symm hx')
        rw [List.idxOf?_cons, List.idxOf?_cons, hne, hne']
        rcases ih (Nat.succ.inj hlength) h with ⟨i, hi, hi'⟩ | ⟨hi, hi', h⟩
        · exact .inl ⟨i + 1, by simp [hi], by simp [hi']⟩
        · exact .inr ⟨by simp [hi], by simp [hi'], h⟩

/-- Names that belong together stand at the same place of lists of such names. -/
theorem Same.idxOf?_eq {xs xs' : List String} (hxs : List.Forall₂ Γ.Same xs xs') (h : Γ.Same x x') :
    xs.idxOf? x = xs'.idxOf? x' := by
  induction hxs with
  | nil => rfl
  | cons ha _ ih => rw [List.idxOf?_cons, List.idxOf?_cons, ha.beq_eq h, ih]

end Pairing

/-! ## Captures -/

namespace ScopeTable

variable {t t' : ScopeTable}

/-- The names that a lambda has captured so far. -/
def captured (t : ScopeTable) (id : Nat) : List String := (t.getD id default).captures.map (·.name)

theorem length_captured_eq (h : t.unnamed = t'.unnamed) (id : Nat) :
    (t.captured id).length = (t'.captured id).length := by
  have hscope : (t.getD id default).unnamed = (t'.getD id default).unnamed := by rw [getD_unnamed, h, getD_unnamed]
  simpa [Scope.unnamed, captured] using congrArg (·.captures.length) hscope

theorem captured_of_le {id : Nat} (h : t.size ≤ id) : t.captured id = [] := by
  rw [captured, Array.getD_eq_getD_getElem?, Array.getElem?_eq_none h]
  rfl

theorem captured_push (t : ScopeTable) (name : Option String) (parent : Option Nat) (params : List String) (id : Nat) :
    captured (t.push (.ofLambda name parent params)) id = t.captured id := by
  unfold captured
  rw [Array.getD_eq_getD_getElem?, Array.getD_eq_getD_getElem?, Array.getElem?_push]
  split
  · next h =>
    rw [h, Array.getElem?_eq_none (Nat.le_refl _)]
    rfl
  · rfl

theorem captured_addLocal (t : ScopeTable) (x : String) (owner id : Nat) :
    captured (t.modify owner (·.addLocal x)) id = t.captured id := by
  unfold captured
  rw [Array.getD_eq_getD_getElem?, Array.getD_eq_getD_getElem?, Array.getElem?_modify]
  split
  · cases t[id]? <;> rfl
  · rfl

theorem captured_addCapture (t : ScopeTable) (x : String) (source : CaptureSource) {frame : Nat} (h : frame < t.size)
    (id : Nat) : captured (t.modify frame (·.addCapture x source)) id =
      if frame = id then t.captured id ++ [x] else t.captured id := by
  unfold captured
  rw [Array.getD_eq_getD_getElem?, Array.getD_eq_getD_getElem?, Array.getElem?_modify]
  split
  · next hid =>
    subst hid
    rw [Array.getElem?_eq_getElem h]
    simp [Scope.addCapture]
  · rfl

end ScopeTable

/-! ## Walks side by side -/

/-- The locals belong together and have come equally far. -/
structure BlockLocal.Alike (Γ : Pairing) (l l' : BlockLocal) : Prop where
  name : Γ.Same l.name l'.name
  slot : l.slot = l'.slot
  progress : l.progress = l'.progress

/-- The frames belong together. There is a pairing of the names of each frame, and what a lambda has captured so far is
the same in the pairings outside of it. -/
inductive Frame.Alike (t t' : ScopeTable) : List Pairing → List Frame → List Frame → Prop where
  | nil : Alike t t' [] [] []
  | lambda {Γs : List Pairing} {frames frames' : List Frame} {id : Nat} {params params' : List String}
    {binding binding' : Option String} (hlength : params.length = params'.length)
    (hbinding : Option.Rel (Pairing.Same Γs.flatten) binding binding') (hinside : ∀ i ∈ lambdaIds frames, i < id)
    (hcaptured : List.Forall₂ (Pairing.Same Γs.flatten) (t.captured id) (t'.captured id))
    (houter : Alike t t' Γs frames frames') :
    Alike t t' (params.zip params' :: Γs) (.lambda id params binding :: frames) (.lambda id params' binding' :: frames')
  | block {Γs : List Pairing} {frames frames' : List Frame} {owner : Nat} {locals locals' : List BlockLocal}
    {P : Pairing} (hnames : P = (locals.map (·.name)).zip (locals'.map (·.name)))
    (hlocals : List.Forall₂ (BlockLocal.Alike (P ++ Γs.flatten)) locals locals')
    (houter : Alike t t' Γs frames frames') :
    Alike t t' (P :: Γs) (.block owner locals :: frames) (.block owner locals' :: frames')

/-- The walks have come equally far. -/
structure Resolver.Alike (Γs : List Pairing) (r r' : Resolver) : Prop where
  globals : r.globals = r'.globals
  frames : Frame.Alike r.scopes r'.scopes Γs r.frames r'.frames
  inside : ∀ i ∈ Frame.lambdaIds r.frames, i < r.scopes.size
  tables : r.scopes.unnamed = r'.scopes.unnamed

theorem BlockLocal.Alike.any_eq {Γ : Pairing} {locals locals' : List BlockLocal} {x x' : String} (hx : Γ.Same x x')
    (h : List.Forall₂ (BlockLocal.Alike Γ) locals locals') :
    locals.any (·.name == x) = locals'.any (·.name == x') := by
  induction h with
  | nil => rfl
  | cons hl _ ih => rw [List.any_cons, List.any_cons, hl.name.beq_eq hx, ih]

namespace Frame.Alike

variable {t t' t₁ t₁' : ScopeTable} {Γs : List Pairing} {frames frames' : List Frame} {x x' : String}

theorem owners_eq (h : Alike t t' Γs frames frames') : frames.map owner = frames'.map owner := by
  induction h with
  | nil => rfl
  | lambda _ _ _ _ _ ih => simp [owner, ih]
  | block _ _ _ ih => simp [owner, ih]

/-- Nothing but the captures of open lambdas matters about the tables. -/
theorem congr (h : Alike t t' Γs frames frames') (ht : ∀ i ∈ lambdaIds frames, t₁.captured i = t.captured i)
    (ht' : ∀ i ∈ lambdaIds frames, t₁'.captured i = t'.captured i) : Alike t₁ t₁' Γs frames frames' := by
  induction h with
  | nil => exact .nil
  | lambda hlength hbinding hinside hcaptured _ ih =>
    refine .lambda hlength hbinding hinside ?_ ?_
    · rwa [ht _ List.mem_cons_self, ht' _ List.mem_cons_self]
    · exact ih (fun i hi => ht i (List.mem_cons_of_mem _ hi)) fun i hi => ht' i (List.mem_cons_of_mem _ hi)
  | block hnames hlocals _ ih => exact .block hnames hlocals (ih ht ht')

/-- Locals of these names are found at the same place of two blocks that belong together, or in none of them. -/
theorem find?_locals {Γ P : Pairing} {locals locals' : List BlockLocal}
    (hlocals : List.Forall₂ (BlockLocal.Alike Γ) locals locals')
    (h : Pairing.Same ((locals.map (·.name)).zip (locals'.map (·.name)) ++ P) x x') :
    (∃ l l', locals.find? (·.name == x) = some l ∧ locals'.find? (·.name == x') = some l' ∧ l.Alike Γ l') ∨
      locals.find? (·.name == x) = none ∧ locals'.find? (·.name == x') = none ∧ P.Same x x' := by
  induction hlocals with
  | nil => exact .inr ⟨rfl, rfl, h⟩
  | @cons l l' locals locals' hl hlocals ih =>
    rw [List.find?_cons, List.find?_cons]
    rcases h with ⟨rfl, rfl⟩ | ⟨hx, hx', h⟩
    · exact .inl ⟨l, l', by simp, by simp, hl⟩
    · have hne : (l.name == x) = false := beq_eq_false_iff_ne.2 (Ne.symm hx)
      have hne' : (l'.name == x') = false := beq_eq_false_iff_ne.2 (Ne.symm hx')
      rw [hne, hne']
      exact ih h

/-- How far a local has come is recorded on both sides. -/
theorem mark (h : Alike t t' Γs frames frames') (hx : Pairing.Same Γs.flatten x x') (p : Progress) :
    Alike t t' Γs (mark x p frames) (mark x' p frames') := by
  cases h with
  | nil => exact .nil
  | lambda hlength hbinding hinside hcaptured houter => exact .lambda hlength hbinding hinside hcaptured houter
  | block hnames hlocals houter =>
    refine .block ?_ ?_ houter
    · rw [hnames]
      congr 1 <;> simp [List.map_map, Function.comp_def, apply_ite]
    · refine List.forall₂_map_left_iff.2 (List.forall₂_map_right_iff.2 (hlocals.imp fun l l' hl => ?_))
      rw [hl.name.beq_eq hx]
      split
      · exact ⟨hl.name, hl.slot, rfl⟩
      · exact hl

theorem slot? (h : Alike t t' Γs frames frames') (hx : Pairing.Same Γs.flatten x x') :
    slot? x frames = slot? x' frames' := by
  cases h with
  | nil | lambda => rfl
  | block hnames hlocals houter =>
    rw [List.flatten_cons, hnames] at hx
    rw [Frame.slot?, Frame.slot?]
    rcases find?_locals hlocals hx with ⟨l, l', hl, hl', hll⟩ | ⟨hl, hl', -⟩
    · rw [hl, hl', Option.map_some, Option.map_some, hll.slot]
    · rw [hl, hl']

end Frame.Alike

/-- Both sides fail, or both give results that belong together. -/
def Agree {α β ε : Type} (R : α → β → Prop) : Except ε α → Except ε β → Prop
  | .ok a, .ok b => R a b
  | .error _, .error _ => True
  | _, _ => False

theorem Agree.mono {α β ε : Type} {R S : α → β → Prop} (hRS : ∀ a b, R a b → S a b) :
    ∀ {x : Except ε α} {y : Except ε β}, Agree R x y → Agree S x y
  | .ok a, .ok b, h => hRS a b h
  | .error _, .error _, _ => trivial

theorem Agree.cases {α β ε : Type} {R : α → β → Prop} : ∀ {x : Except ε α} {y : Except ε β}, Agree R x y →
    (∃ a b, x = .ok a ∧ y = .ok b ∧ R a b) ∨ ∃ p q, x = .error p ∧ y = .error q
  | .ok a, .ok b, h => .inl ⟨a, b, rfl, rfl, h⟩
  | .error p, .error q, _ => .inr ⟨p, q, rfl, rfl⟩

/-- A search for the names leaves the lambda `id` on its way out, and they belong together outside of it. -/
inductive Frame.Leaves (x x' : String) (id : Nat) : List Pairing → List Frame → Prop where
  | here {P : Pairing} {Γs : List Pairing} {params : List String} {binding : Option String} {frames : List Frame}
    (h : Pairing.Same Γs.flatten x x') : Leaves x x' id (P :: Γs) (.lambda id params binding :: frames)
  | outer {P : Pairing} {Γs : List Pairing} {f : Frame} {frames : List Frame} (h : Leaves x x' id Γs frames) :
    Leaves x x' id (P :: Γs) (f :: frames)

namespace Frame

variable {t t' : ScopeTable} {Γs : List Pairing} {frames frames' : List Frame} {x x' : String} {id : Nat}

theorem Leaves.mem_lambdaIds (h : Leaves x x' id Γs frames) : id ∈ lambdaIds frames := by
  induction h with
  | here => exact List.mem_cons_self
  | @outer _ _ f _ _ ih =>
    cases f with
    | lambda => exact List.mem_cons_of_mem _ ih
    | block => exact ih

/-- A lambda that is left by a search for two names has captured them alike. -/
theorem Alike.idxOf?_captured (h : Alike t t' Γs frames frames') (hleaves : Leaves x x' id Γs frames) :
    (t.captured id).idxOf? x = (t'.captured id).idxOf? x' := by
  induction hleaves generalizing frames' with
  | here hx =>
    cases h with
    | lambda _ _ _ hcaptured _ => exact hx.idxOf?_eq hcaptured
  | outer _ ih =>
    cases h with
    | lambda _ _ _ _ houter => exact ih houter
    | block _ _ houter => exact ih houter

/-- A new capture on both sides. -/
theorem Alike.addCapture (h : Alike t t' Γs frames frames') (hleaves : Leaves x x' id Γs frames) (hsize : id < t.size)
    (hsize' : id < t'.size) (source : CaptureSource) :
    Alike (t.modify id (·.addCapture x source)) (t'.modify id (·.addCapture x' source)) Γs frames frames' := by
  induction hleaves generalizing frames' with
  | here hx =>
    cases h with
    | lambda hlength hbinding hinside hcaptured houter =>
      refine .lambda hlength hbinding hinside ?_ (houter.congr ?_ ?_)
      · rw [ScopeTable.captured_addCapture t x source hsize, ScopeTable.captured_addCapture t' x' source hsize',
          if_pos rfl, if_pos rfl]
        exact List.rel_append hcaptured (.cons hx .nil)
      -- The lambdas outside have other numbers.
      · intro i hi
        rw [ScopeTable.captured_addCapture t x source hsize, if_neg (hinside i hi).ne']
      · intro i hi
        rw [ScopeTable.captured_addCapture t' x' source hsize', if_neg (hinside i hi).ne']
  | outer hleaves ih =>
    cases h with
    | lambda hlength hbinding hinside hcaptured houter =>
      refine .lambda hlength hbinding hinside ?_ (ih houter)
      have hne := (hinside _ hleaves.mem_lambdaIds).ne
      rwa [ScopeTable.captured_addCapture t x source hsize, ScopeTable.captured_addCapture t' x' source hsize',
        if_neg hne, if_neg hne]
    | block hnames hlocals houter => exact .block hnames hlocals (ih houter)

end Frame

namespace Resolver

variable {Γs : List Pairing} {r r' : Resolver} {x x' : String}

theorem Alike.size_eq (h : Alike Γs r r') : r.scopes.size = r'.scopes.size := by
  rw [← ScopeTable.size_unnamed, h.tables, ScopeTable.size_unnamed]

theorem Alike.current_eq (h : Alike Γs r r') : r.current = r'.current := by
  rw [current, current, ← List.head?_map, h.frames.owners_eq, List.head?_map]

/-! ### Names -/

/-- Searches for names that belong together pass the same lambdas and end in the same place. -/
theorem search_alike {t t' : ScopeTable} {frames frames' : List Frame} (globals : List String)
    (h : Frame.Alike t t' Γs frames frames') (hx : Pairing.Same Γs.flatten x x') {inner inner' : Option Frame}
    (hinner : inner.any (·.binds x) = inner'.any (·.binds x')) (crossed : List Nat) :
    Agree (fun found found' => found = found' ∧ ∀ id ∈ found.crossed, id ∈ crossed ∨ Frame.Leaves x x' id Γs frames)
      (search globals x inner crossed frames) (search globals x' inner' crossed frames') := by
  induction h generalizing inner inner' crossed with
  | nil =>
    cases hx
    rw [search, search]
    cases globals.idxOf? x with
    | none => trivial
    | some i => exact ⟨rfl, fun id hid => absurd hid List.not_mem_nil⟩
  | @lambda Γs frames frames' id params params' binding binding' hlength hbinding hinside hcaptured houter ih =>
    rw [search, search]
    rcases Pairing.Same.idxOf? hlength hx with ⟨i, hi, hi'⟩ | ⟨hi, hi', hx⟩
    · rw [hi, hi']
      exact ⟨rfl, fun id hid => .inl hid⟩
    · rw [hi, hi']
      have hbinds : (some (Frame.lambda id params binding)).any (·.binds x) =
          (some (Frame.lambda id params' binding')).any (·.binds x') := by
        cases hbinding with
        | none => rfl
        | some hb => simpa [Frame.binds] using hb.eq_iff hx
      refine (ih hx hbinds (id :: crossed)).mono ?_
      rintro found found' ⟨hfound, hcrossed⟩
      refine ⟨hfound, fun i hi => ?_⟩
      rcases hcrossed i hi with hmem | hleaves
      · rcases List.mem_cons.1 hmem with rfl | hmem
        · exact .inr (.here hx)
        · exact .inl hmem
      · exact .inr (.outer hleaves)
  | @block Γs frames frames' owner locals locals' P hnames hlocals houter ih =>
    rw [search, search]
    rw [List.flatten_cons, hnames] at hx
    rcases Frame.Alike.find?_locals hlocals hx with ⟨l, l', hl, hl', hll⟩ | ⟨hl, hl', hx⟩
    · rw [hl, hl']
      dsimp only
      rw [hll.progress, hll.slot, hinner]
      cases l'.progress with
      | pending => trivial
      | defining =>
        dsimp only
        split
        · exact ⟨rfl, fun id hid => .inl hid⟩
        · trivial
      | defined => exact ⟨rfl, fun id hid => .inl hid⟩
    · rw [hl, hl']
      have hbinds : (some (Frame.block owner locals)).any (·.binds x) =
          (some (Frame.block owner locals')).any (·.binds x') := rfl
      refine (ih hx hbinds crossed).mono ?_
      rintro found found' ⟨hfound, hcrossed⟩
      exact ⟨hfound, fun i hi => (hcrossed i hi).imp_right .outer⟩

theorem capture_eq (r : Resolver) (x : String) (source : CaptureSource) (frame : Nat) : r.capture x source frame =
    match (r.scopes.captured frame).idxOf? x with
    | some i => (.captured frame i, r)
    | none => (.captured frame (r.scopes.captured frame).length,
        { r with
          scopes := r.scopes.modify frame (·.addCapture x source)
          events := r.events.push ⟨x, frame, (r.scopes.getD frame default).frameSize, source⟩ }) := by
  rw [capture, ScopeTable.captured, List.idxOf?, List.findIdx?_map, List.length_map]
  rfl

/-- A lambda that is left by a search for two names captures them alike. -/
theorem capture_alike (h : Alike Γs r r') {frame : Nat} (hleaves : Frame.Leaves x x' frame Γs r.frames)
    (source : CaptureSource) :
    (r.capture x source frame).1 = (r'.capture x' source frame).1 ∧
      Alike Γs (r.capture x source frame).2 (r'.capture x' source frame).2 := by
  rw [capture_eq, capture_eq, ← h.frames.idxOf?_captured hleaves, ScopeTable.length_captured_eq h.tables]
  cases (r.scopes.captured frame).idxOf? x with
  | some i => exact ⟨rfl, h⟩
  | none =>
    have hsize := h.inside frame hleaves.mem_lambdaIds
    have hsize' : frame < r'.scopes.size := h.size_eq ▸ hsize
    refine ⟨rfl, h.globals, h.frames.addCapture hleaves hsize hsize' source, fun i hi => ?_, ?_⟩
    · simpa using h.inside i hi
    · dsimp only
      rw [ScopeTable.unnamed_addCapture, ScopeTable.unnamed_addCapture, h.tables]

theorem captureThrough_alike (h : Alike Γs r r') {frames : List Nat}
    (hleaves : ∀ id ∈ frames, Frame.Leaves x x' id Γs r.frames) (var : Var) (source : CaptureSource) :
    (r.captureThrough x var source frames).1 = (r'.captureThrough x' var source frames).1 ∧
      Alike Γs (r.captureThrough x var source frames).2 (r'.captureThrough x' var source frames).2 := by
  induction frames generalizing r r' var source with
  | nil => exact ⟨rfl, h⟩
  | cons frame frames ih =>
    obtain ⟨hvar, hcaptured⟩ := capture_alike h (hleaves frame List.mem_cons_self) source
    rw [captureThrough, captureThrough]
    dsimp only
    rw [← hvar]
    refine ih hcaptured (fun id hid => ?_) _ _
    rw [frames_capture]
    exact hleaves id (List.mem_cons_of_mem _ hid)

theorem lookup_alike (h : Alike Γs r r') (hx : Pairing.Same Γs.flatten x x') :
    Agree (fun found found' => found.1 = found'.1 ∧ Alike Γs found.2 found'.2) (r.lookup x) (r'.lookup x') := by
  have hinner : (none : Option Frame).any (·.binds x) = (none : Option Frame).any (·.binds x') := rfl
  rw [lookup, lookup, ← h.globals]
  rcases (search_alike r.globals h.frames hx hinner []).cases with ⟨found, _, hs, hs', rfl, hcrossed⟩ | ⟨p, p', hs, hs'⟩
  · rw [hs, hs']
    exact captureThrough_alike h (fun id hid => (hcrossed id hid).resolve_left List.not_mem_nil) _ _
  · rw [hs, hs']
    trivial

/-! ### Lambdas and blocks -/

/-- Parameters that belong together are accepted alike. -/
theorem bindParams_alike {Γ : Pairing} {params params' : List Expr} (h : Expr.AllRenamed Γ params params')
    {seen seen' : List String} (hseen : List.Forall₂ Γ.Same seen seen') (index : Nat) :
    Agree (fun names names' => names = seen ++ Expr.paramNames params ∧ names' = seen' ++ Expr.paramNames params')
      (bindParams index seen params).2 (bindParams index seen' params').2 := by
  induction params generalizing params' seen seen' index with
  | nil =>
    cases h
    exact ⟨(List.append_nil _).symm, (List.append_nil _).symm⟩
  | cons p params ih =>
    cases h with
    | cons head tail =>
      cases head with
      | @name _ span x x' var var' hx =>
        have hmem : x ∈ seen ↔ x' ∈ seen' := List.rel_mem (Pairing.biUnique_same Γ) hx hseen
        rw [bindParams, bindParams]
        by_cases hseen : x ∈ seen
        · rw [if_pos hseen, if_pos (hmem.1 hseen)]
          trivial
        · rw [if_neg hseen, if_neg fun h => hseen (hmem.2 h)]
          have := ih tail (List.rel_append ‹_› (.cons hx .nil)) (index + 1)
          simpa [Expr.paramNames, Expr.asName?] using this
      | number | call | lambda | block | assign | cond => trivial

theorem openLambda_alike (h : Alike Γs r r') {names names' : List String} (hlength : names.length = names'.length)
    {binding binding' : Option String} (hbinding : Option.Rel (Pairing.Same Γs.flatten) binding binding')
    (label label' : Option String) :
    Alike (names.zip names' :: Γs) (r.openLambda label binding names) (r'.openLambda label' binding' names') where
  globals := h.globals
  frames := by
    have hcaptured := fun id => ScopeTable.captured_push r.scopes label (some r.current) names id
    have hcaptured' := fun id => ScopeTable.captured_push r'.scopes label' (some r'.current) names' id
    rw [openLambda, openLambda, ← h.size_eq]
    refine .lambda hlength hbinding h.inside ?_ (h.frames.congr (fun i _ => hcaptured i) fun i _ => hcaptured' i)
    rw [addScope, openFrame, hcaptured, addScope, openFrame, hcaptured', ScopeTable.captured_of_le (Nat.le_refl _),
      ScopeTable.captured_of_le h.size_eq.ge]
    exact .nil
  inside := by
    intro i hi
    have hsize : (r.openLambda label binding names).scopes.size = r.scopes.size + 1 := Array.size_push _
    rcases List.mem_cons.1 hi with rfl | hi
    · omega
    · have := h.inside i hi
      omega
  tables := by
    simp only [openLambda, openFrame, addScope, ScopeTable.unnamed, Array.map_push]
    rw [← ScopeTable.unnamed, ← ScopeTable.unnamed, h.tables, h.current_eq]
    simp [Scope.unnamed, Scope.ofLambda, hlength]

theorem closeFrame_alike {P : Pairing} (h : Alike (P :: Γs) r r') : Alike Γs r.closeFrame r'.closeFrame := by
  obtain ⟨hglobals, hframes, hinside, htables⟩ := h
  obtain ⟨globals, frames, scopes, events⟩ := r
  obtain ⟨globals', frames', scopes', events'⟩ := r'
  dsimp only at hframes hinside
  cases hframes with
  | lambda _ _ _ _ houter => exact ⟨hglobals, houter, fun i hi => hinside i (List.mem_cons_of_mem _ hi), htables⟩
  | block _ _ houter => exact ⟨hglobals, houter, hinside, htables⟩

theorem mark_alike (h : Alike Γs r r') (hx : Pairing.Same Γs.flatten x x') (p : Progress) :
    Alike Γs (r.mark x p) (r'.mark x' p) := by
  rw [mark_eq, mark_eq]
  exact ⟨h.globals, h.frames.mark hx p, fun i hi => h.inside i (lambdaIds_mark x p r.frames ▸ hi), h.tables⟩

theorem slot?_alike (h : Alike Γs r r') (hx : Pairing.Same Γs.flatten x x') : r.slot? x = r'.slot? x' := by
  rw [slot?_eq, slot?_eq, h.frames.slot? hx]

/-- The locals of blocks that belong together get the same slots. -/
theorem declare_alike {Γ : Pairing} {statements statements' : List Expr} (hs : Expr.AllRenamed Γ statements statements')
    (h : Alike Γs r r') {declared declared' : List BlockLocal}
    (hdeclared : List.Forall₂ (BlockLocal.Alike Γ) declared declared') :
    Agree (fun locals locals' => List.Forall₂ (BlockLocal.Alike Γ) locals locals' ∧
        locals.map (·.name) = declared.map (·.name) ++ Expr.assigned statements ∧
        locals'.map (·.name) = declared'.map (·.name) ++ Expr.assigned statements' ∧
        Alike Γs (r.declare declared statements).1 (r'.declare declared' statements').1)
      (r.declare declared statements).2 (r'.declare declared' statements').2 := by
  induction statements generalizing statements' r r' declared declared' with
  | nil =>
    cases hs
    exact ⟨hdeclared, (List.append_nil _).symm, (List.append_nil _).symm, h⟩
  | cons e statements ih =>
    cases hs with
    | cons head tail =>
      cases head with
      | @assign _ span x x' value value' var var' hx hvalue =>
        have hlocal : BlockLocal.Alike Γ ⟨x, (r.scopes.getD r.current default).frameSize, .pending⟩
            ⟨x', (r'.scopes.getD r'.current default).frameSize, .pending⟩ :=
          ⟨hx, by rw [h.current_eq, ScopeTable.frameSize_eq h.tables], rfl⟩
        rw [declare, declare, BlockLocal.Alike.any_eq hx hdeclared]
        split
        · trivial
        · have hnext : Alike Γs { r with scopes := r.scopes.modify r.current (·.addLocal x) }
              { r' with scopes := r'.scopes.modify r'.current (·.addLocal x') } := by
            refine ⟨h.globals, h.frames.congr (fun i _ => ScopeTable.captured_addLocal _ _ _ i) fun i _ =>
              ScopeTable.captured_addLocal _ _ _ i, fun i hi => ?_, ?_⟩
            · simpa using h.inside i hi
            · dsimp only
              rw [ScopeTable.unnamed_addLocal, ScopeTable.unnamed_addLocal, h.tables, h.current_eq]
          have hlocals := ih tail hnext (List.rel_append hdeclared (.cons hlocal .nil))
          simpa [Expr.assigned] using hlocals
      | number | name | call | lambda | block | cond => trivial

theorem openBlock_concat (r : Resolver) (span : Span) (init : List Expr) {last : Expr} (h : last.isAssign = false) :
    r.openBlock span (init ++ [last]) =
      match r.declare [] init with
      | (r, .error e) => (r, some e)
      | (r, .ok locals) => (r.openFrame (.block r.current locals), none) := by
  rw [openBlock, List.getLast?_concat, List.dropLast_concat]
  cases last with
  | assign => cases h
  | number | name | call | lambda | block | cond => rfl

/-- Blocks that belong together are opened alike. -/
theorem openBlock_alike {span : Span} {statements statements' : List Expr}
    (hs : Expr.AllRenamed ((Expr.assigned statements).zip (Expr.assigned statements') ++ Γs.flatten) statements
      statements')
    (h : Alike Γs r r') :
    (∃ r₁ r₁', r.openBlock span statements = (r₁, none) ∧ r'.openBlock span statements' = (r₁', none) ∧
        Alike ((Expr.assigned statements).zip (Expr.assigned statements') :: Γs) r₁ r₁') ∨
      ∃ r₁ r₁' p p', r.openBlock span statements = (r₁, some p) ∧ r'.openBlock span statements' = (r₁', some p') := by
  rcases hs.cases_last with ⟨rfl, rfl⟩ | ⟨init, last, init', last', rfl, rfl, hinit, hlast⟩
  · exact .inr ⟨_, _, _, _, rfl, rfl⟩
  cases hassign : last.isAssign with
  | true =>
    cases hlast with
    | @assign _ last =>
      exact .inr ⟨r, r', ⟨.blockWithoutResult, last⟩, ⟨.blockWithoutResult, last⟩, by simp [openBlock],
        by simp [openBlock]⟩
    | number | name | call | lambda | block | cond => cases hassign
  | false =>
    have hassign' : last'.isAssign = false := hlast.isAssign_eq ▸ hassign
    rw [openBlock_concat r span init hassign, openBlock_concat r' span init' hassign']
    rw [Expr.assigned_concat hassign, Expr.assigned_concat hassign'] at hinit ⊢
    rcases hd : r.declare [] init with ⟨r₁, _ | locals⟩ <;> rcases hd' : r'.declare [] init' with ⟨r₁', _ | locals'⟩ <;>
      have hlocals := declare_alike hinit h .nil <;> rw [hd, hd'] at hlocals
    · exact .inr ⟨_, _, _, _, rfl, rfl⟩
    · cases hlocals
    · cases hlocals
    · obtain ⟨hlocals, hnames, hnames', halike⟩ := hlocals
      refine .inl ⟨_, _, rfl, rfl, halike.globals, ?_, halike.inside, halike.tables⟩
      rw [List.map_nil, List.nil_append] at hnames hnames'
      rw [openFrame, openFrame, halike.current_eq]
      exact .block (by rw [hnames, hnames']) hlocals halike.frames

end Resolver

/-! ### The walk -/

/-- Both walks fail, or both end well with trees that differ only in names. -/
def Resolution.Matches {α : Type} (unnamed : α → α) (Γs : List Pairing) : Resolution α → Resolution α → Prop
  | .done tree r, .done tree' r' => unnamed tree = unnamed tree' ∧ r.Alike Γs r'
  | .failed _ _ _, .failed _ _ _ => True
  | _, _ => False

namespace Resolution.Matches

variable {α β : Type} {u : α → α} {w : β → β} {Γs Δs : List Pairing}

theorem andThen {f f' : α → β} {next next' : α → Resolver → Resolution β}
    (hnext : ∀ a r a' r', u a = u a' → r.Alike Γs r' → (next a r).Matches w Δs (next' a' r')) :
    ∀ {step step' : Resolution α}, step.Matches u Γs step' → (step.andThen f next).Matches w Δs (step'.andThen f' next')
  | .done a r, .done a' r', h => hnext a r a' r' h.1 h.2
  | .failed _ _ _, .failed _ _ _, _ => trivial

theorem map {f f' : α → β} (hf : ∀ a a', u a = u a' → w (f a) = w (f' a')) :
    ∀ {step step' : Resolution α}, step.Matches u Γs step' → (step.map f).Matches w Γs (step'.map f')
  | .done a _, .done a' _, h => ⟨hf a a' h.1, h.2⟩
  | .failed _ _ _, .failed _ _ _, _ => trivial

theorem succeeds_iff : ∀ {step step' : Resolution α}, step.Matches u Γs step' → (step.Succeeds ↔ step'.Succeeds)
  | .done a r, .done a' r', _ => ⟨fun _ => ⟨a', r', rfl⟩, fun _ => ⟨a, r, rfl⟩⟩
  | .failed _ _ _, .failed _ _ _, _ => ⟨fun ⟨_, _, h⟩ => (nomatch h), fun ⟨_, _, h⟩ => (nomatch h)⟩

end Resolution.Matches

namespace Expr

open Resolver Resolution

mutual

theorem resolve_alike {Γs : List Pairing} {r r' : Resolver} {binding binding' : Option String} (e : Expr) {e' : Expr}
    (he : Renamed Γs.flatten e e') (h : Alike Γs r r')
    (hbinding : Option.Rel (Pairing.Same Γs.flatten) binding binding') :
    (e.resolve binding r).Matches unnamed Γs (e'.resolve binding' r') := by
  cases he with
  | number => exact ⟨rfl, h⟩
  | name hx =>
    rw [resolve, resolve]
    rcases (lookup_alike h hx).cases with ⟨⟨v, r₁⟩, ⟨v', r₁'⟩, hv, hv', heq, halike⟩ | ⟨p, p', hp, hp'⟩
    · rw [hv, hv']
      obtain rfl : v = v' := heq
      exact ⟨rfl, halike⟩
    · rw [hp, hp']
      trivial
  | @call _ span callee callee' args args' hcallee hargs =>
    rw [resolve, resolve]
    refine (resolve_alike callee hcallee h .none).andThen fun c r c' r' hc h => ?_
    refine (resolveAll_alike args hargs h).map fun as as' has => ?_
    rw [unnamed, unnamed, hc, has]
  | @lambda _ span params params' body body' frame frame' label label' hparams hbody =>
    rw [resolve, resolve]
    have hlength : (paramNames params).length = (paramNames params').length := hparams.paramNames.length_eq
    rcases hb : bindParams 0 [] params with ⟨ps, _ | names⟩ <;>
      rcases hb' : bindParams 0 [] params' with ⟨ps', _ | names'⟩ <;>
      have hnames := bindParams_alike hparams .nil 0 <;> rw [hb, hb'] at hnames
    · trivial
    · cases hnames
    · cases hnames
    · obtain ⟨rfl, rfl⟩ := hnames
      -- The walks are in one more frame each, and the pairing of the new frames is that of the parameters.
      have hbody : Renamed (((paramNames params).zip (paramNames params') :: Γs).flatten) body body' := hbody
      refine (resolve_alike body hbody (openLambda_alike h hlength hbinding _ _) .none).andThen
        fun b r₁ b' r₁' hb hr => ?_
      exact ⟨by rw [unnamed, unnamed, hb, h.size_eq], closeFrame_alike hr⟩
  | @block _ span statements statements' hs =>
    rw [resolve, resolve]
    rcases openBlock_alike hs h with ⟨r₁, r₁', ho, ho', hr⟩ | ⟨r₁, r₁', p, p', ho, ho'⟩
    · rw [ho, ho']
      have hs : AllRenamed (((assigned statements).zip (assigned statements') :: Γs).flatten) statements statements' :=
        hs
      refine (resolveStatements_alike statements hs hr).andThen fun ss r₂ ss' r₂' hss hr₂ => ?_
      exact ⟨by rw [unnamed, unnamed, hss], closeFrame_alike hr₂⟩
    · rw [ho, ho']
      trivial
  | assign => trivial
  | @cond _ span test test' onTrue onTrue' onFalse onFalse' htest htrue hfalse =>
    rw [resolve, resolve]
    refine (resolve_alike test htest h .none).andThen fun a r a' r' ha h => ?_
    refine (resolve_alike onTrue htrue h .none).andThen fun b r b' r' hb h => ?_
    refine (resolve_alike onFalse hfalse h .none).map fun c c' hc => ?_
    rw [unnamed, unnamed, ha, hb, hc]

theorem resolveAll_alike {Γs : List Pairing} {r r' : Resolver} (es : List Expr) {es' : List Expr}
    (hes : AllRenamed Γs.flatten es es') (h : Alike Γs r r') :
    (resolveAll es r).Matches unnamedAll Γs (resolveAll es' r') := by
  cases hes with
  | nil => exact ⟨rfl, h⟩
  | @cons _ e e' es es' head tail =>
    rw [resolveAll, resolveAll]
    refine (resolve_alike e head h .none).andThen fun a r a' r' ha h => ?_
    refine (resolveAll_alike es tail h).map fun as as' has => ?_
    rw [unnamedAll, unnamedAll, ha, has]

theorem resolveStatements_alike {Γs : List Pairing} {r r' : Resolver} (es : List Expr) {es' : List Expr}
    (hes : AllRenamed Γs.flatten es es') (h : Alike Γs r r') :
    (resolveStatements es r).Matches unnamedAll Γs (resolveStatements es' r') := by
  cases hes with
  | nil => exact ⟨rfl, h⟩
  | @cons _ e e' es es' head tail =>
    -- What stands for itself in the list is no assignment, and is resolved as an expression.
    have hresult : e.isAssign = false → (resolveStatements (e :: es) r).Matches unnamedAll Γs
        (resolveStatements (e' :: es') r') := by
      intro hassign
      rw [resolveStatements_cons hassign, resolveStatements_cons (head.isAssign_eq ▸ hassign)]
      refine (resolve_alike e head h .none).andThen fun a r a' r' ha h => ?_
      refine (resolveStatements_alike es tail h).map fun as as' has => ?_
      rw [unnamedAll, unnamedAll, ha, has]
    cases head with
    | @assign _ span x x' value value' var var' hx hvalue =>
      rw [resolveStatements, resolveStatements, ← slot?_alike h hx]
      refine (resolve_alike value hvalue (mark_alike h hx .defining) (.some hx)).andThen fun v r v' r' hv h => ?_
      refine (resolveStatements_alike es tail (mark_alike h hx .defined)).map fun as as' has => ?_
      rw [unnamedAll, unnamedAll, unnamed, unnamed, hv, has]
    | number | name | call | lambda | block | cond => exact hresult rfl

end

end Expr

/-! ## Programs -/

namespace Resolver

theorem alike_main (globals : List String) :
    Alike [[]] (((new globals).addScope (.ofLambda none none [])).openFrame Frame.main)
      (((new globals).addScope (.ofLambda none none [])).openFrame Frame.main) where
  globals := rfl
  frames := by
    have hinside : ∀ i ∈ Frame.lambdaIds [], i < 0 := fun i hi => absurd hi List.not_mem_nil
    exact Frame.Alike.lambda (rfl : ([] : List String).length = 0) .none hinside .nil .nil
  inside := by
    intro i hi
    rw [List.mem_singleton.1 hi]
    exact Nat.zero_lt_one
  tables := rfl

theorem program_matches {e e' : Expr} (h : Expr.Renamed [] e e') (globals : List String) :
    ((new globals).program e).Matches Expr.unnamed [] ((new globals).program e') := by
  have h : Expr.Renamed (List.flatten [[]]) e e' := h
  refine (Expr.resolve_alike e h (alike_main globals) .none).andThen fun _ _ _ _ htree hr => ?_
  exact ⟨htree, closeFrame_alike hr⟩

/-- Names do not matter: of two programs that differ only in the names of parameters and locals, both are accepted or
none, and they have the same code but for the names of its routines. -/
theorem program_renamed {e e' : Expr} (h : Expr.Renamed [] e e') (globals : Prelude) :
    (((new globals.names).program e).Succeeds ↔ ((new globals.names).program e').Succeeds) ∧
      ∀ {tree tree' : Expr} {r r' : Resolver}, (new globals.names).program e = .done tree r →
        (new globals.names).program e' = .done tree' r' →
        ∃ p p', tree.toProgram r.scopes globals = .ok p ∧ tree'.toProgram r'.scopes globals = .ok p' ∧
          p.unnamed = p'.unnamed := by
  have hmatches := program_matches h globals.names
  refine ⟨hmatches.succeeds_iff, fun {tree tree' r r'} he he' => ?_⟩
  rw [he, he'] at hmatches
  obtain ⟨htree, hr⟩ := hmatches
  obtain ⟨_, _, -, -, -, -, hp⟩ := (program_sound he).program globals
  obtain ⟨_, _, -, -, -, -, hp'⟩ := (program_sound he').program globals
  have hcode := Expr.toProgram_unnamed hp
  rw [htree, hr.tables, Expr.toProgram_unnamed hp'] at hcode
  exact ⟨_, _, hp, hp', (Except.ok.inj hcode).symm⟩

/-- `{ f = (n, k) -> (m -> f(m, n))(k); f }` -/
def swapLoop : Expr :=
  let x (name : String) : Expr := .name default name none
  .block default
    [.assign default "f" (.lambda default [x "n", x "k"]
      (.call default (.lambda default [x "m"] (.call default (x "f") [x "m", x "n"]) none none) [x "k"])
      none none) none,
      x "f"]

/-- The same loop with its names moved around: `{ k = (f, m) -> (m -> k(m, f))(m); k }` -/
def swapLoopRenamed : Expr :=
  let x (name : String) : Expr := .name default name none
  .block default
    [.assign default "k" (.lambda default [x "f", x "m"]
      (.call default (.lambda default [x "m"] (.call default (x "k") [x "m", x "f"]) none none) [x "m"])
      none none) none,
      x "k"]

theorem renamed_swapLoop : Expr.Renamed [] swapLoop swapLoopRenamed := by
  refine .block (.cons (.assign (by decide) (.lambda ?_ ?_)) (.cons (.name (by decide)) .nil))
  · exact .cons (.name (by decide)) (.cons (.name (by decide)) .nil)
  · refine .call (.lambda (.cons (.name (by decide)) .nil) ?_) (.cons (.name (by decide)) .nil)
    exact .call (.name (by decide)) (.cons (.name (by decide)) (.cons (.name (by decide)) .nil))

theorem program_renamed_swapLoop : Expr.Renamed [] swapLoop swapLoopRenamed ∧
    ∃ tree tree' r r' p p', (new Prelude.standard.names).program swapLoop = .done tree r ∧
      (new Prelude.standard.names).program swapLoopRenamed = .done tree' r' ∧
      tree.toProgram r.scopes .standard = .ok p ∧ tree'.toProgram r'.scopes .standard = .ok p' ∧
      p.unnamed = p'.unnamed := by
  have haccepted : ((new Prelude.standard.names).program swapLoop).Succeeds := ⟨_, _, rfl⟩
  obtain ⟨tree, r, he⟩ := haccepted
  obtain ⟨tree', r', he'⟩ := (program_renamed renamed_swapLoop .standard).1.1 ⟨tree, r, he⟩
  obtain ⟨p, p', hp, hp', hcode⟩ := (program_renamed renamed_swapLoop .standard).2 he he'
  exact ⟨renamed_swapLoop, tree, tree', r, r', p, p', he, he', hp, hp', hcode⟩

end Resolver

end ClosureLang
