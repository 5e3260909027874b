import ClosureLang.Proofs.ScopeTables

/-!
# One resolver for several programs

A resolver that has resolved programs keeps their scopes, and the next program gets its scopes behind them. Apart from
that it starts like a new one: a program that was resolved leaves no frame open, so nothing of it can be seen.

`Resolver.behind` puts the scopes of one resolver behind those of another. Every step of the walk can be done before
this or after it, as long as some frame is open. So the two walks over a program go side by side, and what they write
into the tree differs in the numbers of frames only.
-/

namespace ClosureLang

open ClosureLang.Frame

/-! ## Numbers of frames -/

/-- The place in a table that has `k` more scopes in front. -/
def Var.shift (k : Nat) : Var → Var
  | captured frame index => captured (frame + k) index
  | arg i => arg i
  | slot i => slot i
  | global i => global i

def CaptureSource.shift (k : Nat) : CaptureSource → CaptureSource
  | parent var => parent (var.shift k)
  | itself => itself

def Capture.shift (k : Nat) (c : Capture) : Capture := { c with source := c.source.shift k }

def Scope.shift (k : Nat) (s : Scope) : Scope :=
  { s with parent := s.parent.map (· + k), captures := s.captures.map (·.shift k) }

def Frame.shift (k : Nat) : Frame → Frame
  | lambda id params binding => lambda (id + k) params binding
  | block owner locals => block (owner + k) locals

def CaptureEvent.shift (k : Nat) (c : CaptureEvent) : CaptureEvent :=
  { c with frame := c.frame + k, source := c.source.shift k }

namespace Scope

variable (k : Nat) (s : Scope)

theorem frameSize_shift : (s.shift k).frameSize = s.frameSize := by
  simp [shift, frameSize]

theorem addLocal_shift (x : String) : (s.shift k).addLocal x = (s.addLocal x).shift k := by
  simp [addLocal, shift, frameSize]

theorem addCapture_shift (x : String) (source : CaptureSource) :
    (s.shift k).addCapture x (source.shift k) = (s.addCapture x source).shift k := by
  simp [addCapture, shift, frameSize, Capture.shift]

theorem findIdx?_captures_shift (x : String) :
    (s.shift k).captures.findIdx? (·.name == x) = s.captures.findIdx? (·.name == x) := by
  rw [shift, List.findIdx?_map]
  rfl

end Scope

namespace Expr

mutual

/-- The tree with its annotations for a table that has `k` more scopes in front. -/
def shift (k : Nat) : Expr → Expr
  | number span value => number span value
  | name span x var => name span x (var.map (·.shift k))
  | call span callee args => call span (callee.shift k) (shiftAll k args)
  | lambda span params body frame label => lambda span (shiftAll k params) (body.shift k) (frame.map (· + k)) label
  | block span statements => block span (shiftAll k statements)
  | assign span x value var => assign span x (value.shift k) (var.map (·.shift k))
  | cond span test onTrue onFalse => cond span (test.shift k) (onTrue.shift k) (onFalse.shift k)

def shiftAll (k : Nat) : List Expr → List Expr
  | [] => []
  | e :: es => e.shift k :: shiftAll k es

end

/-- What two walks leave in one place: both what was there before, or both what they found, the second one with its
frame numbers shifted. -/
inductive Noted {α : Type} (shift : α → α) (before : Option α) : Option α → Option α → Prop where
  | kept : Noted shift before before before
  | made (found : α) : Noted shift before (some found) (some (shift found))

mutual

/-- What two walks make of one tree, in full or in part. -/
inductive Shifted (k : Nat) : Expr → Expr → Expr → Prop where
  | number {span : Span} {value : Float} : Shifted k (number span value) (number span value) (number span value)
  | name {span : Span} {x : String} {var v v' : Option Var} (hvar : Noted (Var.shift k) var v v') :
      Shifted k (name span x var) (name span x v) (name span x v')
  | call {span : Span} {callee f f' : Expr} {args as as' : List Expr} (hcallee : Shifted k callee f f')
      (hargs : AllShifted k args as as') : Shifted k (call span callee args) (call span f as) (call span f' as')
  | lambda {span : Span} {params ps ps' : List Expr} {body b b' : Expr} {frame id id' : Option Nat}
      {label name : Option String} (hparams : AllShifted k params ps ps') (hbody : Shifted k body b b')
      (hframe : Noted (· + k) frame id id') :
      Shifted k (lambda span params body frame label) (lambda span ps b id name) (lambda span ps' b' id' name)
  | block {span : Span} {statements es es' : List Expr} (hstatements : AllShifted k statements es es') :
      Shifted k (block span statements) (block span es) (block span es')
  | assign {span : Span} {x : String} {value e e' : Expr} {var v v' : Option Var} (hvalue : Shifted k value e e')
      (hvar : Noted (Var.shift k) var v v') :
      Shifted k (assign span x value var) (assign span x e v) (assign span x e' v')
  | cond {span : Span} {test a a' onTrue b b' onFalse c c' : Expr} (htest : Shifted k test a a')
      (htrue : Shifted k onTrue b b') (hfalse : Shifted k onFalse c c') :
      Shifted k (cond span test onTrue onFalse) (cond span a b c) (cond span a' b' c')

inductive AllShifted (k : Nat) : List Expr → List Expr → List Expr → Prop where
  | nil : AllShifted k [] [] []
  | cons {e t t' : Expr} {es ts ts' : List Expr} (head : Shifted k e t t') (tail : AllShifted k es ts ts') :
      AllShifted k (e :: es) (t :: ts) (t' :: ts')

end

mutual

theorem Shifted.kept (k : Nat) (e : Expr) : Shifted k e e e := by
  cases e with
  | number => exact .number
  | name => exact .name .kept
  | call span callee args => exact .call (.kept k callee) (.kept k args)
  | lambda span params body frame label => exact .lambda (.kept k params) (.kept k body) .kept
  | block span statements => exact .block (.kept k statements)
  | assign span x value var => exact .assign (.kept k value) .kept
  | cond span test onTrue onFalse => exact .cond (.kept k test) (.kept k onTrue) (.kept k onFalse)

theorem AllShifted.kept (k : Nat) (es : List Expr) : AllShifted k es es es := by
  cases es with
  | nil => exact .nil
  | cons e es => exact .cons (.kept k e) (.kept k es)

end

end Expr

/-! ## Steps of the walk -/

namespace Resolver

/-- The resolver with the scopes and the events of an earlier one in front of its own. -/
def behind (r earlier : Resolver) : Resolver where
  globals := r.globals
  frames := r.frames.map (·.shift earlier.scopes.size)
  scopes := earlier.scopes ++ r.scopes.map (·.shift earlier.scopes.size)
  events := earlier.events ++ r.events.map (·.shift earlier.scopes.size)

variable (r earlier : Resolver)

theorem size_behind : (r.behind earlier).scopes.size = r.scopes.size + earlier.scopes.size := by
  simp [behind, Nat.add_comm]

theorem getElem?_behind (id : Nat) :
    (r.behind earlier).scopes[id + earlier.scopes.size]? = r.scopes[id]?.map (·.shift earlier.scopes.size) := by
  simp [behind, Array.getElem?_append]

theorem getD_behind (id : Nat) : (r.behind earlier).scopes.getD (id + earlier.scopes.size) default =
    (r.scopes.getD id default).shift earlier.scopes.size := by
  rw [Array.getD_eq_getD_getElem?, Array.getD_eq_getD_getElem?, getElem?_behind]
  cases r.scopes[id]? <;> rfl

theorem modify_behind (id : Nat) {f f' : Scope → Scope}
    (hf : ∀ s : Scope, f' (s.shift earlier.scopes.size) = (f s).shift earlier.scopes.size) :
    (r.behind earlier).scopes.modify (id + earlier.scopes.size) f' =
      (behind { r with scopes := r.scopes.modify id f } earlier).scopes := by
  apply Array.ext_getElem?
  intro i
  rw [Array.getElem?_modify]
  by_cases hi : i < earlier.scopes.size
  · -- The scopes in front are those of the earlier resolver.
    rw [if_neg (by omega)]
    simp [behind, Array.getElem?_append, hi]
  · obtain ⟨j, rfl⟩ := Nat.exists_eq_add_of_le (Nat.le_of_not_lt hi)
    rw [Nat.add_comm earlier.scopes.size, getElem?_behind, getElem?_behind, Array.getElem?_modify]
    by_cases hj : id = j
    · simp [hj, hf, Function.comp_def]
    · simp [hj]

theorem current_behind (h : r.frames ≠ []) : (r.behind earlier).current = r.current + earlier.scopes.size := by
  obtain ⟨frame, outer, hframes⟩ := List.exists_cons_of_ne_nil h
  cases frame <;> simp [current, behind, hframes, Frame.shift, Frame.owner]

/-! ### Names -/

def Found.shift (k : Nat) (found : Found) : Found :=
  { found with var := found.var.shift k, crossed := found.crossed.map (· + k) }

theorem binds_shift (k : Nat) (x : String) (frame : Frame) : (frame.shift k).binds x = frame.binds x := by
  cases frame <;> rfl

theorem search_shift (k : Nat) (globals : List String) (x : String) (inner : Option Frame) (crossed : List Nat)
    (frames : List Frame) :
    search globals x (inner.map (·.shift k)) (crossed.map (· + k)) (frames.map (·.shift k)) =
      (search globals x inner crossed frames).map (Found.shift k) := by
  induction frames generalizing inner crossed with
  | nil =>
    rw [List.map_nil, search, search]
    split <;> rfl
  | cons frame outer ih =>
    cases frame with
    | lambda id params binding =>
      rw [List.map_cons, Frame.shift, search, search]
      split
      · rfl
      · exact ih (some (.lambda id params binding)) (id :: crossed)
    | block owner locals =>
      rw [List.map_cons, Frame.shift, search, search]
      split
      · exact ih (some (.block owner locals)) crossed
      · next found _ =>
        cases found.progress with
        | defined => rfl
        | pending => rfl
        | defining =>
          have hbinds : (inner.map (·.shift k)).any (·.binds x) = inner.any (·.binds x) := by
            cases inner with
            | none => rfl
            | some frame => exact binds_shift k x frame
          dsimp only
          rw [hbinds]
          split <;> rfl

theorem capture_behind (x : String) (source : CaptureSource) (frame : Nat) :
    (r.behind earlier).capture x (source.shift earlier.scopes.size) (frame + earlier.scopes.size) =
      ((r.capture x source frame).1.shift earlier.scopes.size, (r.capture x source frame).2.behind earlier) := by
  unfold capture
  dsimp only
  rw [getD_behind, Scope.findIdx?_captures_shift]
  split
  · rfl
  · rw [modify_behind (f := (·.addCapture x source)) r earlier frame fun s => s.addCapture_shift _ x source]
    simp [behind, Var.shift, Scope.shift, Scope.frameSize, CaptureEvent.shift]

theorem captureThrough_behind (x : String) (var : Var) (source : CaptureSource) (ids : List Nat) :
    (r.behind earlier).captureThrough x (var.shift earlier.scopes.size) (source.shift earlier.scopes.size)
        (ids.map (· + earlier.scopes.size)) =
      ((r.captureThrough x var source ids).1.shift earlier.scopes.size,
        (r.captureThrough x var source ids).2.behind earlier) := by
  induction ids generalizing r var source with
  | nil => rfl
  | cons id ids ih =>
    rw [List.map_cons, captureThrough, captureThrough, capture_behind]
    exact ih _ _ (.parent _)

theorem lookup_behind (x : String) : (r.behind earlier).lookup x =
    (r.lookup x).map fun found => (found.1.shift earlier.scopes.size, found.2.behind earlier) := by
  have hsearch := search_shift earlier.scopes.size r.globals x none [] r.frames
  rw [Option.map_none, List.map_nil] at hsearch
  unfold lookup
  rw [show (r.behind earlier).frames = r.frames.map (·.shift earlier.scopes.size) from rfl,
    show (r.behind earlier).globals = r.globals from rfl, hsearch]
  cases search r.globals x none [] r.frames with
  | error problem => rfl
  | ok found =>
    have hsource : (if found.isItself then CaptureSource.itself else .parent (found.var.shift earlier.scopes.size)) =
        (if found.isItself then CaptureSource.itself else .parent found.var).shift earlier.scopes.size := by
      split <;> rfl
    simp only [Except.map, Found.shift, hsource, captureThrough_behind]

/-! ### Lambdas and blocks -/

theorem openLambda_behind (h : r.frames ≠ []) (label binding : Option String) (params : List String) :
    (r.behind earlier).openLambda label binding params = (r.openLambda label binding params).behind earlier := by
  simp only [openLambda, addScope, openFrame, current_behind r earlier h, size_behind]
  simp [behind, Scope.shift, Scope.ofLambda, Frame.shift]

theorem closeFrame_behind : (r.behind earlier).closeFrame = r.closeFrame.behind earlier := by
  simp [closeFrame, behind]

theorem mark_behind (x : String) (p : Progress) : (r.behind earlier).mark x p = (r.mark x p).behind earlier := by
  obtain ⟨globals, frames, scopes, events⟩ := r
  rcases frames with _ | ⟨_ | _, _⟩ <;> rfl

theorem slot?_behind (x : String) : (r.behind earlier).slot? x = r.slot? x := by
  obtain ⟨globals, frames, scopes, events⟩ := r
  rcases frames with _ | ⟨_ | _, _⟩ <;> rfl

theorem declare_behind (h : r.frames ≠ []) (declared : List BlockLocal) (statements : List Expr) :
    (r.behind earlier).declare declared statements =
      ((r.declare declared statements).1.behind earlier, (r.declare declared statements).2) := by
  induction statements generalizing r declared with
  | nil => rfl
  | cons e statements ih =>
    cases e with
    | assign span x value var =>
      rw [declare, declare]
      split
      · rfl
      · rw [current_behind r earlier h, getD_behind, Scope.frameSize_shift,
          modify_behind (f := (·.addLocal x)) r earlier r.current fun s => s.addLocal_shift _ x]
        exact ih { r with scopes := r.scopes.modify r.current (·.addLocal x) } h _
    | number | name | call | lambda | block | cond => rfl

theorem frames_declare (declared : List BlockLocal) (statements : List Expr) :
    (r.declare declared statements).1.frames = r.frames := by
  induction statements generalizing r declared with
  | nil => rfl
  | cons e statements ih =>
    cases e with
    | assign span x value var =>
      rw [declare]
      split
      · rfl
      · exact ih _ _
    | number | name | call | lambda | block | cond => rfl

theorem openBlock_behind (h : r.frames ≠ []) (span : Span) (statements : List Expr) :
    (r.behind earlier).openBlock span statements =
      ((r.openBlock span statements).1.behind earlier, (r.openBlock span statements).2) := by
  unfold openBlock
  split
  · rfl
  · rfl
  · rw [declare_behind r earlier h]
    have hframes := frames_declare r [] statements.dropLast
    cases hdeclare : r.declare [] statements.dropLast with
    | mk r' result =>
      rw [hdeclare] at hframes
      cases result with
      | error e => rfl
      | ok locals =>
        have hcurrent := current_behind r' earlier (hframes ▸ h)
        simp only [hcurrent]
        rfl

theorem bindParams_shifted (k index : Nat) (seen : List String) (params : List Expr) :
    Expr.AllShifted k params (bindParams index seen params).1 (bindParams index seen params).1 := by
  induction params generalizing index seen with
  | nil => exact .nil
  | cons e params ih =>
    cases e with
    | name span x var =>
      rw [bindParams]
      split
      · exact .kept k _
      · exact .cons (.name (.made (Var.arg index))) (ih _ _)
    | number | call | lambda | block | assign | cond => exact .kept k _

/-- Parameters are found in the frame of their own lambda. -/
theorem shiftAll_bindParams (k : Nat) {index : Nat} {seen names : List String} {params params' : List Expr}
    (h : bindParams index seen params = (params', .ok names)) : Expr.shiftAll k params' = params' := by
  induction params generalizing index seen params' with
  | nil =>
    cases h
    rfl
  | cons e params ih =>
    cases e with
    | name span x var =>
      rw [bindParams] at h
      split at h
      · cases h
      · obtain ⟨rfl, hnames⟩ := Prod.mk.inj h
        rw [Expr.shiftAll, ih (Prod.ext rfl hnames)]
        rfl
    | number | call | lambda | block | assign | cond => cases h

end Resolver

/-! ## Both walks -/

/-- Two walks that end alike. The second one has an earlier resolver in front. -/
def Resolution.Shifted {α : Type} (earlier : Resolver) (shift : α → α) (R : α → α → Prop) :
    Resolution α → Resolution α → Prop
  | .done tree r, .done tree' r' => R tree tree' ∧ tree' = shift tree ∧ r' = r.behind earlier
  | .failed tree error r, .failed tree' error' r' => R tree tree' ∧ error' = error ∧ r' = r.behind earlier
  | _, _ => False

namespace Resolution.Shifted

variable {α β : Type} {earlier : Resolver} {f : α → α} {g : β → β} {R : α → α → Prop} {S : β → β → Prop}

theorem andThen {step step' : Resolution α} (h : step.Shifted earlier f R step') {rest rest' : α → β}
    {next next' : α → Resolver → Resolution β} (hrest : ∀ a a', R a a' → S (rest a) (rest' a'))
    (hnext : ∀ a r, step = .done a r → R a (f a) → (next a r).Shifted earlier g S (next' (f a) (r.behind earlier))) :
    (step.andThen rest next).Shifted earlier g S (step'.andThen rest' next') := by
  match step, step', h with
  | .done a r, .done _ _, ⟨ha, rfl, rfl⟩ => exact hnext a r rfl ha
  | .failed a error r, .failed a' _ _, ⟨ha, herror, hr⟩ => exact ⟨hrest a a' ha, herror, hr⟩

theorem map {step step' : Resolution α} (h : step.Shifted earlier f R step') {u u' : α → β}
    (hu : ∀ a a', R a a' → S (u a) (u' a')) (hshift : ∀ a, u' (f a) = g (u a)) :
    (step.map u).Shifted earlier g S (step'.map u') := by
  match step, step', h with
  | .done a r, .done _ _, ⟨ha, rfl, hr⟩ => exact ⟨hu a (f a) ha, hshift a, hr⟩
  | .failed a error r, .failed a' _ _, ⟨ha, herror, hr⟩ => exact ⟨hu a a' ha, herror, hr⟩

end Resolution.Shifted

namespace Expr

open Resolver

mutual

theorem resolve_shifted {r : Resolver} (earlier : Resolver) {binding : Option String} (e : Expr) (hr : Ready r)
    (hb : ∀ b, binding = some b → Defining b r.frames) :
    (e.resolve binding r).Shifted earlier (shift earlier.scopes.size) (Shifted earlier.scopes.size e)
      (e.resolve binding (r.behind earlier)) := by
  cases e with
  | number span value => exact ⟨.number, rfl, rfl⟩
  | name span x var =>
    rw [resolve, resolve, lookup_behind]
    cases r.lookup x with
    | error problem => exact ⟨.kept _ _, rfl, rfl⟩
    | ok found => exact ⟨.name (.made found.1), rfl, rfl⟩
  | call span callee args =>
    rw [resolve, resolve]
    refine (resolve_shifted earlier callee hr (by simp)).andThen (fun f f' hf => .call hf (.kept _ args)) ?_
    intro f r₁ hcallee hf
    obtain ⟨hy, hframes⟩ := resolve_sound callee hcallee hr (by simp)
    exact (resolveAll_shifted earlier args (hr.advance hy.advances hframes)).map (fun as as' has => .call hf has)
      fun as => rfl
  | lambda span params body frame label =>
    rw [resolve, resolve]
    have hparams := bindParams_shifted earlier.scopes.size 0 [] params
    split
    · next params' error hbind =>
      rw [hbind] at hparams
      exact ⟨.lambda hparams (.kept _ body) .kept, rfl, rfl⟩
    · next params' names hbind =>
      rw [hbind] at hparams
      dsimp only
      rw [openLambda_behind r earlier hr.nonempty]
      refine (resolve_shifted earlier body (hr.openLambda (label.or binding) names hb) (by simp)).andThen
        (fun b b' hbody => .lambda hparams hbody .kept) ?_
      intro b r₁ _ hbody
      rw [size_behind]
      refine ⟨.lambda hparams hbody (.made r.scopes.size), ?_, closeFrame_behind r₁ earlier⟩
      rw [shift, shiftAll_bindParams _ hbind]
      rfl
  | block span statements =>
    rw [resolve, resolve, openBlock_behind r earlier hr.nonempty]
    cases hopen : r.openBlock span statements with
    | mk r₁ error =>
      cases error with
      | some error => exact ⟨.kept _ _, rfl, rfl⟩
      | none =>
        obtain ⟨locals, hframes, hform, hnames, -, hr₁, -⟩ := openBlock_sound hopen hr
        have hslots : ∀ x ∈ assigned statements, Frame.slot? x r₁.frames ≠ none := by
          rw [hframes, ← hnames]
          exact fun x hx => slot?_block_ne_none hx
        refine (resolveStatements_shifted earlier statements hr₁ hform hslots).andThen (fun es es' hes => .block hes) ?_
        exact fun es r₂ _ hes => ⟨.block hes, rfl, closeFrame_behind r₂ earlier⟩
  | assign span x value var => exact ⟨.kept _ _, rfl, rfl⟩
  | cond span test onTrue onFalse =>
    rw [resolve, resolve]
    refine (resolve_shifted earlier test hr (by simp)).andThen
      (fun a a' ha => .cond ha (.kept _ onTrue) (.kept _ onFalse)) ?_
    intro a r₁ htest ha
    obtain ⟨hy, hframes⟩ := resolve_sound test htest hr (by simp)
    have hr₁ := hr.advance hy.advances hframes
    refine (resolve_shifted earlier onTrue hr₁ (by simp)).andThen (fun b b' hb => .cond ha hb (.kept _ onFalse)) ?_
    intro b r₂ htrue hb
    obtain ⟨hy₁, hframes₁⟩ := resolve_sound onTrue htrue hr₁ (by simp)
    exact (resolve_shifted earlier onFalse (hr₁.advance hy₁.advances hframes₁) (by simp)).map
      (fun c c' hc => .cond ha hb hc) fun c => rfl

theorem resolveAll_shifted {r : Resolver} (earlier : Resolver) (es : List Expr) (hr : Ready r) :
    (resolveAll es r).Shifted earlier (shiftAll earlier.scopes.size) (AllShifted earlier.scopes.size es)
      (resolveAll es (r.behind earlier)) := by
  cases es with
  | nil => exact ⟨.nil, rfl, rfl⟩
  | cons e es =>
    rw [resolveAll, resolveAll]
    refine (resolve_shifted earlier e hr (by simp)).andThen (fun t t' ht => .cons ht (.kept _ es)) ?_
    intro t r₁ he ht
    obtain ⟨hy, hframes⟩ := resolve_sound e he hr (by simp)
    exact (resolveAll_shifted earlier es (hr.advance hy.advances hframes)).map (fun ts ts' hts => .cons ht hts)
      fun ts => rfl

theorem resolveStatements_shifted {r : Resolver} (earlier : Resolver) (es : List Expr) (hr : Ready r)
    (hform : BlockForm es) (hslots : ∀ x ∈ assigned es, Frame.slot? x r.frames ≠ none) :
    (resolveStatements es r).Shifted earlier (shiftAll earlier.scopes.size) (AllShifted earlier.scopes.size es)
      (resolveStatements es (r.behind earlier)) := by
  cases hform with
  | @result e he =>
    rw [resolveStatements_result he, resolveStatements_result he]
    refine (resolve_shifted earlier e hr (by simp)).andThen (fun t t' ht => .cons ht .nil) ?_
    exact fun t r₁ _ ht => ⟨.cons ht .nil, rfl, rfl⟩
  | @assign span x value var es hform =>
    obtain ⟨slot, hslot⟩ := Option.ne_none_iff_exists'.1 (hslots x List.mem_cons_self)
    have hb : ∀ b, some x = some b → Defining b (r.mark x .defining).frames := by simpa using defining_mark hslot
    rw [resolveStatements, resolveStatements, slot?_behind, slot?_eq, hslot, mark_behind]
    refine (resolve_shifted earlier value (hr.mark x .defining) hb).andThen
      (fun t t' ht => .cons (.assign ht (.made (Var.slot slot))) (.kept _ es)) ?_
    intro t r₁ hvalue ht
    obtain ⟨hy, hframes⟩ := resolve_sound value hvalue (hr.mark x .defining) hb
    have hr₁ := (hr.mark x .defining).advance hy.advances hframes
    have hslots' : ∀ y ∈ assigned es, Frame.slot? y (r₁.mark x .defined).frames ≠ none := by
      intro y hy
      simpa [hframes, slot?_mark] using hslots y (List.mem_cons_of_mem _ hy)
    rw [mark_behind]
    exact (resolveStatements_shifted earlier es (hr₁.mark x .defined) hform hslots').map
      (fun ts ts' hts => .cons (.assign ht (.made (Var.slot slot))) hts) fun ts => rfl

end

end Expr

/-! ## Programs in order -/

namespace Resolver

variable {globals : List String}

/-- The resolver after some programs, if all of them are resolved. -/
def programs (r : Resolver) : List Expr → Option Resolver
  | [] => some r
  | e :: es =>
    match r.program e with
    | .done _ r => r.programs es
    | .failed _ _ _ => none

/-- A resolver between two programs has no open frames. -/
structure Idle (globals : List String) (r : Resolver) : Prop where
  globals : r.globals = globals
  frames : r.frames = []

/-- A program of an idle resolver starts in a main frame of its own. -/
theorem Idle.main_eq {r : Resolver} (h : Idle globals r) :
    (r.addScope (.ofLambda none none [])).openFrame (.lambda r.scopes.size [] none) =
      (((new globals).addScope (.ofLambda none none [])).openFrame Frame.main).behind r := by
  simp [addScope, openFrame, new, Frame.main, behind, Frame.shift, Scope.shift, Scope.ofLambda, h.globals, h.frames]

theorem Idle.program_shifted {r : Resolver} (h : Idle globals r) (e : Expr) :
    ((new globals).program e).Shifted r (Expr.shift r.scopes.size) (Expr.Shifted r.scopes.size e) (r.program e) := by
  have hwalk := Expr.resolve_shifted r e (ready_main globals) fun b (hb : none = some b) => nomatch hb
  rw [← h.main_eq] at hwalk
  exact hwalk.andThen (fun _ _ => id) fun tree r₁ _ htree => ⟨htree, rfl, closeFrame_behind r₁ r⟩

theorem idle_program_new {e e' : Expr} {r : Resolver} (h : (new globals).program e = .done e' r) : Idle globals r := by
  obtain ⟨tree, r₁, htree, h⟩ := Resolution.andThen_eq_done h
  cases h
  obtain ⟨hy, hframes⟩ := Expr.resolve_sound e htree (ready_main globals) (by simp)
  exact ⟨hy.advances.globals, congrArg List.tail hframes⟩

/-- A program that is resolved closes all its frames. -/
theorem Idle.program {e e' : Expr} {r r' : Resolver} (h : Idle globals r) (hprogram : r.program e = .done e' r') :
    Idle globals r' := by
  have hshifted := h.program_shifted e
  rw [hprogram] at hshifted
  cases hnew : (new globals).program e with
  | failed tree error r₁ => rw [hnew] at hshifted; exact hshifted.elim
  | done tree r₁ =>
    rw [hnew] at hshifted
    obtain ⟨-, -, rfl⟩ := hshifted
    obtain ⟨hglobals, hframes⟩ := idle_program_new hnew
    exact ⟨hglobals, by rw [behind, hframes, List.map_nil]⟩

theorem Idle.programs {es : List Expr} {r r' : Resolver} (h : Idle globals r) (hprograms : r.programs es = some r') :
    Idle globals r' := by
  induction es generalizing r with
  | nil =>
    cases hprograms
    exact h
  | cons e es ih =>
    rw [Resolver.programs] at hprograms
    split at hprograms
    · next hprogram => exact ih (h.program hprogram) hprograms
    · cases hprograms

/-- After programs that were all resolved, the next one ends as it does with a new resolver: well or with the same
error, and with the same tree but for the frame numbers, which go on from the scopes that are there. Where a walk that
fails does not come, the tree stays as it was. Between programs only the prelude can be seen. -/
theorem program_reused {earlier : List Expr} {r : Resolver} (h : (new globals).programs earlier = some r) (e : Expr) :
    ((new globals).program e).Shifted r (Expr.shift r.scopes.size) (Expr.Shifted r.scopes.size e) (r.program e) ∧
      ∀ x, (∃ found, r.lookup x = .ok found) ↔ x ∈ globals := by
  have hidle : Idle globals r := Idle.programs ⟨rfl, rfl⟩ h
  refine ⟨hidle.program_shifted e, fun x => ?_⟩
  rw [lookup_isOk_iff, hidle.frames, hidle.globals]
  exact Iff.rfl

/-- `{ g = x -> (() -> x); h = () -> f; g }`, which uses a name of another program. -/
def foreignName : Expr :=
  let x (name : String) : Expr := .name default name none
  .block default
    [.assign default "g" (.lambda default [x "x"] (.lambda default [] (x "x") none none) none none) none,
      .assign default "h" (.lambda default [] (x "f") none none) none,
      x "g"]

/-- The program before has an `f`, but the next one does not see it. It fails in the fourth scope of its own. -/
theorem program_reused_foreignName :
    ∃ r, (new ["k", "g"]).programs [nestedReferences] = some r ∧ r.scopes.size = 3 ∧
      (∃ tree error r', r.program foreignName = .failed tree error r' ∧ error.problem.message = "undefined: f" ∧
        r'.scopes.size = 7) ∧
      ((new ["k", "g"]).program foreignName).Shifted r (Expr.shift 3) (Expr.Shifted 3 foreignName)
        (r.program foreignName) := by
  have hrun : ((new ["k", "g"]).programs [nestedReferences]).any (fun r =>
      r.scopes.size == 3 &&
        match r.program foreignName with
        | .done _ _ => false
        | .failed _ error r' => error.problem.message == "undefined: f" && r'.scopes.size == 7) = true := by
      decide +kernel
  obtain ⟨r, h, hrun⟩ := (Option.any_eq_true _ _).1 hrun
  rw [Bool.and_eq_true, beq_iff_eq] at hrun
  obtain ⟨hsize, hfailed⟩ := hrun
  have hreused := (program_reused h foreignName).1
  rw [hsize] at hreused
  refine ⟨r, h, hsize, ?_, hreused⟩
  cases hprogram : r.program foreignName with
  | done tree r' => rw [hprogram] at hfailed; cases hfailed
  | failed tree error r' =>
    rw [hprogram, Bool.and_eq_true, beq_iff_eq, beq_iff_eq] at hfailed
    exact ⟨tree, error, r', rfl, hfailed⟩

end Resolver

end ClosureLang
