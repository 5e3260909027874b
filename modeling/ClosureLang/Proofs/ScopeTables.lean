import ClosureLang.Proofs.Binders

/-!
# The table of scopes belongs to the tree

Scopes are numbered in the order in which the lambdas of a program begin. The scope of a lambda points to the scope of
the lambda around it, and a capture copies a place of exactly that scope, so that a chain of captures goes outwards one
lambda at a time and comes to an end. `ScopeTable.Describes` says all this of a table and a tree.

Two walks lead there. The numbers and the names of captures follow from what the resolver adds to its table, step by
step. Where places lie follows from the resolved tree alone.
-/

namespace ClosureLang

open ClosureLang.Frame

/-! ## Nodes -/

namespace Expr

mutual

/-- The nodes of a tree in the order in which they begin, each with the frame of the lambda around it. -/
def nodes (frame : Option Nat) : Expr → List (Option Nat × Expr)
  | number span value => [(frame, number span value)]
  | name span x var => [(frame, name span x var)]
  | call span callee args => (frame, call span callee args) :: (callee.nodes frame ++ nodesAll frame args)
  | lambda span params body own label =>
    (frame, lambda span params body own label) :: (nodesAll own params ++ body.nodes own)
  | block span statements => (frame, block span statements) :: nodesAll frame statements
  | assign span x value var => (frame, assign span x value var) :: value.nodes frame
  | cond span test onTrue onFalse =>
    (frame, cond span test onTrue onFalse) :: (test.nodes frame ++ onTrue.nodes frame ++ onFalse.nodes frame)

def nodesAll (frame : Option Nat) : List Expr → List (Option Nat × Expr)
  | [] => []
  | e :: es => e.nodes frame ++ nodesAll frame es

end

/-- The frames of the lambdas among nodes. -/
def lambdaFrames (nodes : List (Option Nat × Expr)) : List (Option Nat) :=
  nodes.filterMap fun
    | (_, lambda _ _ _ own _) => some own
    | _ => none

@[simp] theorem lambdaFrames_append (ns ns' : List (Option Nat × Expr)) :
    lambdaFrames (ns ++ ns') = lambdaFrames ns ++ lambdaFrames ns' := List.filterMap_append

/-- The place that is filled in at a node. -/
def var? : Expr → Option Var
  | name _ _ var | assign _ _ _ var => var
  | _ => none

/-- The parameters of a lambda are names, numbered in order. -/
theorem mem_nodesAll_bindParams {index : Nat} {seen names : List String} {params params' : List Expr}
    (h : Resolver.bindParams index seen params = (params', .ok names)) {frame : Option Nat} {n : Option Nat × Expr}
    (hn : n ∈ nodesAll frame params') :
    ∃ span x i, n = (frame, .name span x (some (.arg (index + i : Nat)))) ∧ i < (paramNames params').length := by
  obtain ⟨-, -, hnumbered⟩ := paramNames_bindParams h
  clear h
  induction params' generalizing index with
  | nil => cases hn
  | cons p params' ih =>
    obtain ⟨span, x, rfl⟩ := hnumbered 0 p rfl
    have hnames : paramNames (.name span x (some (.arg (index + 0 : Nat))) :: params') = x :: paramNames params' := rfl
    rw [hnames, List.length_cons]
    rcases List.mem_cons.1 hn with rfl | hn
    · exact ⟨span, x, 0, rfl, by omega⟩
    · -- Seen from the second parameter, the first index is one higher.
      have hrest : ∀ (i : Nat) (p : Expr), params'[i]? = some p →
          ∃ span x, p = .name span x (some (.arg (index + 1 + i : Nat))) := by
        intro i p hp
        obtain ⟨span, x, rfl⟩ := hnumbered (i + 1) p hp
        exact ⟨span, x, by rw [Nat.add_right_comm, Nat.add_assoc]⟩
      obtain ⟨span, y, i, rfl, hi⟩ := ih hn hrest
      exact ⟨span, y, i + 1, by rw [Nat.add_right_comm, Nat.add_assoc], by omega⟩

theorem lambdaFrames_bindParams {index : Nat} {seen names : List String} {params params' : List Expr}
    (h : Resolver.bindParams index seen params = (params', .ok names)) (frame : Option Nat) :
    lambdaFrames (nodesAll frame params') = [] := by
  refine List.filterMap_eq_nil_iff.2 fun n hn => ?_
  obtain ⟨span, x, i, rfl, -⟩ := mem_nodesAll_bindParams h hn
  rfl

end Expr

/-! ## Places -/

/-- The place is an argument, a local or a capture of the frame `id`, which has this scope. -/
def Scope.Has (s : Scope) (id : Nat) : Var → Prop
  | .arg i => 0 ≤ i ∧ i < s.arity
  | .slot n => ∃ l ∈ s.locals, n = l.slot
  | .captured owner i => owner = id ∧ i < s.captures.length
  | .global _ => False

namespace ScopeTable

/-- A scope in its table: it comes after its parent, and takes its captures from places of the parent. -/
structure Nested (t : ScopeTable) (id : Nat) (s : Scope) : Prop where
  parent_lt : ∀ parent, s.parent = some parent → parent < id
  sources : ∀ c ∈ s.captures, ∀ v, c.source = .parent v →
    ∃ parent outer, s.parent = some parent ∧ t[parent]? = some outer ∧ outer.Has parent v

/-- A place of some frame at which a chain of captures ends: if it is a capture, then one of the closure itself. -/
def IsOrigin (t : ScopeTable) (v : Var) : Prop :=
  ∃ (id : Nat) (s : Scope), t[id]? = some s ∧ s.Has id v ∧
    ∀ owner i c, v = .captured owner i → s.captures[i]? = some c → c.source = .itself

/-- Captures that are followed outwards come to an end, after at most one step for each scope. -/
theorem exists_origin {t : ScopeTable} (ht : ∀ id s, t[id]? = some s → t.Nested id s) {hops id : Nat} {s : Scope}
    {v : Var} (hid : id < hops) (hs : t[id]? = some s) (hv : s.Has id v) :
    ∃ origin, t.originWithin hops v = some origin ∧ t.IsOrigin origin := by
  -- Each step leads to a smaller frame, so the number of steps left stays above the frame.
  induction hops generalizing id s v with
  | zero => omega
  | succ hops ih =>
    cases v with
    | arg i => exact ⟨.arg i, rfl, id, s, hs, hv, by simp⟩
    | slot n => exact ⟨.slot n, rfl, id, s, hs, hv, by simp⟩
    | global i => exact hv.elim
    | captured owner i =>
      obtain ⟨rfl, hi⟩ := hv
      have hc : s.captures[i]? = some s.captures[i] := List.getElem?_eq_getElem hi
      cases hsource : s.captures[i].source with
      | itself =>
        refine ⟨.captured owner i, ?_, owner, s, hs, ⟨rfl, hi⟩, ?_⟩
        · simp [originWithin, hs, hc, hsource]
        · intro owner' i' c heq hc'
          cases heq
          cases hc.symm.trans hc'
          exact hsource
      | parent var =>
        obtain ⟨parent, outer, hparent, houter, hvar⟩ := (ht owner s hs).sources _ (List.getElem_mem hi) var hsource
        have hlt := (ht owner s hs).parent_lt parent hparent
        obtain ⟨origin, horigin, hend⟩ := ih (by omega) houter hvar
        exact ⟨origin, by simp [originWithin, hs, hc, hsource, horigin], hend⟩

end ScopeTable

section Frames

variable {t : ScopeTable} {globals : List String} {frames : List Frame} {x : String} {v : Var}

/-- A name stands for an entry of the prelude or for a place of the innermost frame. -/
theorem Refers.has : ∀ {frames : List Frame}, FramesValid t globals frames → Refers t globals x frames v →
    (∃ i < globals.length, v = .global i) ∨ ∃ s, t[innermost frames]? = some s ∧ s.Has (innermost frames) v
  | [], _, ⟨i, hi, hv⟩ => .inl ⟨i, (List.findIdx?_eq_some_iff_getElem.1 hi).1, hv⟩
  | .lambda id params binding :: outer, hv, h => by
    obtain ⟨s, hlambda⟩ := hv.1
    rw [Refers] at h
    cases hi : params.idxOf? x with
    | some i =>
      rw [hi] at h
      subst h
      have hlt : i < params.length := (List.findIdx?_eq_some_iff_getElem.1 hi).1
      refine .inr ⟨s, hlambda.scope, Int.natCast_nonneg i, ?_⟩
      rw [Scope.arity, hlambda.params_eq]
      exact Int.ofNat_lt.2 hlt
    | none =>
      -- A name from further out is captured, and only an entry of the prelude is not.
      rw [hi] at h
      dsimp only at h
      split at h
      · obtain ⟨i, s', c, hs', hc, -, rfl⟩ := h
        exact .inr ⟨s', hs', rfl, (List.getElem?_eq_some_iff.1 hc).1⟩
      · obtain ⟨i, hi, hv⟩ := h
        exact .inl ⟨i, (List.findIdx?_eq_some_iff_getElem.1 hi).1, hv⟩
  | .block owner locals :: outer, hv, h => by
    obtain ⟨hblock, houter⟩ := hv
    rw [Refers] at h
    cases hl : locals.find? (·.name == x) with
    | some l =>
      rw [hl] at h
      obtain ⟨-, rfl⟩ := h
      obtain ⟨s, hs, hslots⟩ := hblock.scope
      obtain ⟨l', hl', hslot⟩ := List.mem_map.1 (hslots (List.mem_map_of_mem (List.mem_of_find?_eq_some hl)))
      exact .inr ⟨s, hs, l', hl', by rw [hslot]⟩
    | none =>
      rw [hl] at h
      have hhas := h.has houter
      rwa [← hblock.owner_eq] at hhas

/-- What a lambda captures from around it is a place of the frame around it. -/
theorem CaptureValid.has {names : List String} {binding : Option String} {c : Capture}
    (hv : FramesValid t globals frames) (h : CaptureValid t globals names binding frames c)
    (hc : c.source = .parent v) : ∃ s, t[innermost frames]? = some s ∧ s.Has (innermost frames) v := by
  obtain ⟨hbound, hrefers⟩ := h.parent v hc
  rcases hrefers.has hv with ⟨i, -, rfl⟩ | hhas
  · exact absurd hrefers (Refers.not_global hbound)
  · exact hhas

theorem head?_owner (h : frames ≠ []) : frames.head?.map Frame.owner = some (innermost frames) := by
  obtain ⟨frame, outer, rfl⟩ := List.exists_cons_of_ne_nil h
  rfl

theorem LambdaValid.nested {id : Nat} {names : List String} {binding : Option String} {s : Scope}
    (hv : FramesValid t globals frames) (h : LambdaValid t globals frames id names binding s) : t.Nested id s where
  parent_lt parent hparent := by
    have hne : frames ≠ [] := by
      rintro rfl
      cases h.parent_eq.symm.trans hparent
    have hinner : parent = innermost frames := by
      rw [h.parent_eq, head?_owner hne] at hparent
      exact (Option.some.inj hparent).symm
    exact hinner ▸ h.inside _ (hv.innermost_mem hne)
  sources c hc v hsource := by
    have hvalid := h.captures c hc
    -- Something is declared around the lambda, so there is a frame around it.
    have hne : frames ≠ [] := by
      rintro rfl
      cases (hvalid.parent v hsource).1
    obtain ⟨outer, houter, hhas⟩ := hvalid.has hv hsource
    exact ⟨innermost frames, outer, h.parent_eq.trans (head?_owner hne), houter, hhas⟩

end Frames

/-! ## What is filled in -/

/-- What is filled in at a node that stands in a frame: a name has a place of the frame or an entry of the prelude, an
assignment has a local of the frame, and a lambda has a scope inside that of the frame. -/
def Expr.Annotated (t : ScopeTable) (globals : List String) (frame : Option Nat) : Expr → Prop
  | name _ _ var =>
    ∃ v, var = some v ∧ ((∃ i < globals.length, v = .global i) ∨
      ∃ id s, frame = some id ∧ t[id]? = some s ∧ s.Has id v)
  | assign _ _ _ var => ∃ n id s, var = some (.slot n) ∧ frame = some id ∧ t[id]? = some s ∧ s.Has id (.slot n)
  | lambda _ params _ own label =>
    ∃ id s, own = some id ∧ t[id]? = some s ∧ s.name = label ∧ s.params = paramNames params ∧ s.parent = frame ∧
      t.Nested id s
  | _ => True

theorem slot?_has {t : ScopeTable} {globals : List String} {frames : List Frame} {x : String} {n : Nat}
    (hv : FramesValid t globals frames) (hn : slot? x frames = some n) :
    ∃ s, t[innermost frames]? = some s ∧ s.Has (innermost frames) (.slot n) := by
  rcases frames with _ | ⟨_ | ⟨owner, locals⟩, outer⟩
  · cases hn
  · cases hn
  · obtain ⟨l, hl, rfl⟩ := Option.map_eq_some_iff.1 hn
    obtain ⟨s, hs, hslots⟩ := hv.1.scope
    obtain ⟨l', hl', hslot⟩ := List.mem_map.1 (hslots (List.mem_map_of_mem (List.mem_of_find?_eq_some hl)))
    exact ⟨s, hs, l', hl', by rw [hslot]⟩

namespace Expr

mutual

theorem resolved_annotated {t : ScopeTable} {globals : List String} {frames : List Frame} {binding : Option String}
    {e' : Expr} (e : Expr) (h : Elab t globals frames binding e e') (hv : FramesValid t globals frames)
    (hne : frames ≠ []) : ∀ n ∈ e'.nodes (some (innermost frames)), n.2.Annotated t globals n.1 := by
  intro n hn
  cases e with
  | number span value =>
    obtain rfl := h
    obtain rfl := List.mem_singleton.1 hn
    trivial
  | name span x _ =>
    obtain ⟨v, hrefers, rfl⟩ := h
    obtain rfl := List.mem_singleton.1 hn
    refine ⟨v, rfl, (hrefers.has hv).imp id fun ⟨s, hs, hhas⟩ => ?_⟩
    exact ⟨innermost frames, s, rfl, hs, hhas⟩
  | call span callee args =>
    obtain ⟨callee', args', hcallee, hargs, rfl⟩ := h
    rcases List.mem_cons.1 hn with rfl | hn
    · trivial
    rcases List.mem_append.1 hn with hn | hn
    · exact resolved_annotated callee hcallee hv hne n hn
    · exact resolved_allAnnotated args hargs hv hne n hn
  | lambda span params body _ label =>
    obtain ⟨params', names, id, s, body', hparams, hlambda, hname, hbody, rfl⟩ := h
    have hnames : s.params = paramNames params' := by
      have hbound := (Resolver.bindParams_ok_iff.1 (congrArg Prod.snd hparams)).2.2.2
      rw [hlambda.params_eq, hbound, (paramNames_bindParams hparams).1, List.nil_append]
    rcases List.mem_cons.1 hn with rfl | hn
    · exact ⟨id, s, rfl, hlambda.scope, hname, hnames, hlambda.parent_eq.trans (head?_owner hne), hlambda.nested hv⟩
    rcases List.mem_append.1 hn with hn | hn
    · obtain ⟨pspan, x, i, rfl, hi⟩ := mem_nodesAll_bindParams hparams hn
      refine ⟨_, rfl, .inr ⟨id, s, rfl, hlambda.scope, Int.natCast_nonneg _, ?_⟩⟩
      rw [Scope.arity, hnames, Nat.zero_add]
      exact Int.ofNat_lt.2 hi
    · exact resolved_annotated body hbody ⟨⟨s, hlambda⟩, hv⟩ (by simp) n hn
  | block span statements =>
    obtain ⟨locals, statements', hblock, -, -, hstatements, rfl⟩ := h
    rcases List.mem_cons.1 hn with rfl | hn
    · trivial
    · exact resolved_statementsAnnotated statements hstatements ⟨hblock, hv⟩ (by simp) n hn
  | assign => cases h
  | cond span test onTrue onFalse =>
    obtain ⟨test', onTrue', onFalse', htest, htrue, hfalse, rfl⟩ := h
    rcases List.mem_cons.1 hn with rfl | hn
    · trivial
    rcases List.mem_append.1 hn with hn | hn
    · rcases List.mem_append.1 hn with hn | hn
      · exact resolved_annotated test htest hv hne n hn
      · exact resolved_annotated onTrue htrue hv hne n hn
    · exact resolved_annotated onFalse hfalse hv hne n hn

theorem resolved_allAnnotated {t : ScopeTable} {globals : List String} {frames : List Frame} {es' : List Expr}
    (es : List Expr) (h : ElabAll t globals frames es es') (hv : FramesValid t globals frames) (hne : frames ≠ []) :
    ∀ n ∈ nodesAll (some (innermost frames)) es', n.2.Annotated t globals n.1 := by
  intro n hn
  cases es with
  | nil =>
    obtain rfl := h
    cases hn
  | cons e es =>
    obtain ⟨e', rest', he, hes, rfl⟩ := h
    rcases List.mem_append.1 hn with hn | hn
    · exact resolved_annotated e he hv hne n hn
    · exact resolved_allAnnotated es hes hv hne n hn

theorem resolved_statementsAnnotated {t : ScopeTable} {globals : List String} {frames : List Frame} {es' : List Expr}
    (es : List Expr) (h : ElabStatements t globals frames es es') (hv : FramesValid t globals frames)
    (hne : frames ≠ []) : ∀ n ∈ nodesAll (some (innermost frames)) es', n.2.Annotated t globals n.1 := by
  intro n hn
  cases h.blockForm with
  | @result e he =>
    obtain ⟨e', hresult, rfl⟩ := elabStatements_result.1 h
    have hn : n ∈ e'.nodes (some (innermost frames)) := by simpa [nodesAll] using hn
    exact resolved_annotated e hresult hv hne n hn
  | @assign span x value var es hform =>
    obtain ⟨slot, value', rest', hslot, hvalue, hrest, rfl⟩ := (elabStatements_assign hform).1 h
    -- How far the assignment of the name has come makes no difference to where the slots are.
    have hmark (p : Progress) := (framesValid_mark x p).2 hv
    rcases List.mem_append.1 hn with hn | hn
    · rcases List.mem_cons.1 hn with rfl | hn
      · obtain ⟨s, hs, hhas⟩ := slot?_has hv hslot
        exact ⟨slot, innermost frames, s, rfl, rfl, hs, hhas⟩
      · rw [← innermost_mark x .defining frames] at hn
        exact resolved_annotated value hvalue (hmark .defining) (mark_ne_nil hne) n hn
    · rw [← innermost_mark x .defined frames] at hn
      exact resolved_statementsAnnotated es hrest (hmark .defined) (mark_ne_nil hne) n hn

end

end Expr

/-! ## What the walk adds to the table -/

/-- No lambda captures a name twice. -/
def ScopeTable.CapturesOnce (t : ScopeTable) : Prop :=
  ∀ {id : Nat} {s : Scope}, t[id]? = some s → (s.captures.map (·.name)).Nodup

namespace ScopeTable

variable {t : ScopeTable}

theorem CapturesOnce.push (h : t.CapturesOnce) {s : Scope} (hs : s.captures = []) : CapturesOnce (t.push s) := by
  intro id s' hs'
  rw [Array.getElem?_push] at hs'
  split at hs'
  · cases hs'
    simp [hs]
  · exact h hs'

theorem CapturesOnce.modify (h : t.CapturesOnce) {id : Nat} {f : Scope → Scope}
    (hf : ∀ s, t[id]? = some s → (s.captures.map (·.name)).Nodup → ((f s).captures.map (·.name)).Nodup) :
    CapturesOnce (t.modify id f) := by
  intro id' s' hs'
  rw [Array.getElem?_modify] at hs'
  split at hs'
  · next heq =>
    obtain ⟨s, hs, rfl⟩ := Option.map_eq_some_iff.1 hs'
    exact hf s (heq ▸ hs) (h hs)
  · exact h hs'

end ScopeTable

namespace Resolver

/-- From `r` to `r'` scopes were made for these lambdas, in this order, and names were captured only once. -/
structure Makes (r r' : Resolver) (frames : List (Option Nat)) : Prop where
  size : r'.scopes.size = r.scopes.size + frames.length
  frames_eq : frames = (List.range' r.scopes.size frames.length).map some
  once : r.scopes.CapturesOnce → r'.scopes.CapturesOnce

variable {r r' r'' : Resolver} {frames frames' : List (Option Nat)}

theorem Makes.nothing (hsize : r'.scopes.size = r.scopes.size)
    (honce : r.scopes.CapturesOnce → r'.scopes.CapturesOnce) : Makes r r' [] :=
  ⟨by simpa using hsize, rfl, honce⟩

theorem Makes.append (h : Makes r r' frames) (h' : Makes r' r'' frames') : Makes r r'' (frames ++ frames') where
  size := by
    rw [h'.size, h.size, List.length_append]
    omega
  frames_eq := by
    -- The second range of numbers begins where the first one ends.
    rw [List.length_append, ← List.range'_append_1, List.map_append, ← h.frames_eq, ← h.size, ← h'.frames_eq]
  once ht := h'.once (h.once ht)

theorem Makes.congr {r₁ r₁' : Resolver} (h : Makes r r' frames) (hscopes : r₁.scopes = r.scopes)
    (hscopes' : r₁'.scopes = r'.scopes) : Makes r₁ r₁' frames :=
  ⟨by rw [hscopes, hscopes', h.size], by rw [hscopes, ← h.frames_eq], by rw [hscopes, hscopes']; exact h.once⟩

theorem makes_capture (r : Resolver) (x : String) (source : CaptureSource) (id : Nat) :
    Makes r (r.capture x source id).2 [] := by
  unfold capture
  dsimp only
  cases hfind : (r.scopes.getD id default).captures.findIdx? (·.name == x) with
  | some i => exact .nothing rfl fun honce => honce
  | none =>
    -- The name is not among the captures yet, or the search would have found it.
    refine .nothing Array.size_modify fun honce => honce.modify fun s hs hnodup => ?_
    have hget : r.scopes.getD id default = s := by
      rw [Array.getD_eq_getD_getElem?, hs]
      rfl
    rw [hget] at hfind
    have hx : x ∉ s.captures.map (·.name) := by
      intro hmem
      obtain ⟨c, hc, hname⟩ := List.mem_map.1 hmem
      have hnot := List.findIdx?_eq_none_iff.1 hfind c hc
      simp [hname] at hnot
    simpa [Scope.addCapture, List.nodup_append, hnodup] using hx

theorem makes_captureThrough (r : Resolver) (x : String) (var : Var) (source : CaptureSource) (ids : List Nat) :
    Makes r (r.captureThrough x var source ids).2 [] := by
  induction ids generalizing r var source with
  | nil => exact .nothing rfl id
  | cons i ids ih => exact (makes_capture r x source i).append (ih _ _ _)

theorem makes_lookup {x : String} {v : Var} (h : r.lookup x = .ok (v, r')) : Makes r r' [] := by
  unfold lookup at h
  split at h
  · cases h
  · next found _ =>
    have hmakes := makes_captureThrough r x found.var
      (if found.isItself then .itself else .parent found.var) found.crossed
    rwa [Except.ok.inj h] at hmakes

theorem makes_declare {statements : List Expr} {declared locals : List BlockLocal}
    (h : r.declare declared statements = (r', .ok locals)) : Makes r r' [] := by
  induction statements generalizing r declared with
  | nil =>
    cases h
    exact .nothing rfl id
  | cons e statements ih =>
    cases e with
    | assign span x value var =>
      rw [declare] at h
      split at h
      · cases h
      · have hadd : Makes r (r.withLocal x) [] := .nothing Array.size_modify fun honce =>
          honce.modify (f := (·.addLocal x)) fun s _ hs => hs
        exact hadd.append (ih h)
    | number | name | call | lambda | block | cond => simp [declare] at h

theorem makes_openBlock {span : Span} {statements : List Expr} (h : r.openBlock span statements = (r', none)) :
    Makes r r' [] := by
  obtain ⟨last, r₁, locals, -, -, hdeclare, rfl⟩ := openBlock_eq h
  exact (makes_declare hdeclare).congr rfl rfl

theorem makes_openLambda (r : Resolver) (label binding : Option String) (names : List String) :
    Makes r (r.openLambda label binding names) [some r.scopes.size] where
  size := Array.size_push _
  frames_eq := rfl
  once honce := ScopeTable.CapturesOnce.push honce rfl

@[simp] theorem scopes_mark (r : Resolver) (x : String) (p : Progress) : (r.mark x p).scopes = r.scopes := by
  rw [mark_eq]

end Resolver

namespace Expr

open Resolver Resolution

theorem resolveStatements_cons {e : Expr} {es : List Expr} {r : Resolver} (h : e.isAssign = false) :
    resolveStatements (e :: es) r =
      (e.resolve none r).andThen (· :: es) fun e r => (resolveStatements es r).map (e :: ·) := by
  cases e with
  | assign => cases h
  | number | name | call | lambda | block | cond => rfl

mutual

/-- The lambdas of a tree get the next numbers in the order in which they begin. -/
theorem resolve_makes {r r' : Resolver} {binding : Option String} {e' : Expr} (e : Expr)
    (h : e.resolve binding r = .done e' r') (frame : Option Nat) : Makes r r' (lambdaFrames (e'.nodes frame)) := by
  cases e with
  | number span value =>
    cases h
    exact .nothing rfl id
  | name span x var =>
    rw [resolve] at h
    split at h
    · next hlookup =>
      cases h
      exact makes_lookup hlookup
    · cases h
  | call span callee args =>
    rw [resolve] at h
    obtain ⟨callee', r₁, hcallee, h⟩ := andThen_eq_done h
    obtain ⟨args', hargs, rfl⟩ := map_eq_done h
    have hmakes := (resolve_makes callee hcallee frame).append (resolveAll_makes args hargs frame)
    rwa [← lambdaFrames_append] at hmakes
  | lambda span params body own label =>
    rw [resolve] at h
    split at h
    · cases h
    next params' names hparams =>
    obtain ⟨body', r₁, hbody, h⟩ := andThen_eq_done h
    cases h
    -- A lambda takes its number before its body is walked, and its parameters hold no lambdas.
    have hmakes := (makes_openLambda r (label.or binding) binding names).append
      (resolve_makes body hbody (some r.scopes.size))
    have hframes : lambdaFrames ((Expr.lambda span params' body' (some r.scopes.size) (label.or binding)).nodes frame) =
        [some r.scopes.size] ++ lambdaFrames (body'.nodes (some r.scopes.size)) := by
      have hparams := lambdaFrames_bindParams hparams (some r.scopes.size)
      change some r.scopes.size :: lambdaFrames (nodesAll _ params' ++ body'.nodes _) = _
      rw [lambdaFrames_append, hparams]
      rfl
    rw [hframes]
    exact hmakes.congr rfl rfl
  | block span statements =>
    rw [resolve] at h
    split at h
    · cases h
    next r₁ hopen =>
    obtain ⟨statements', r₂, hstatements, h⟩ := andThen_eq_done h
    cases h
    exact ((makes_openBlock hopen).append (resolveStatements_makes statements hstatements frame)).congr rfl rfl
  | assign span x value var => cases h
  | cond span test onTrue onFalse =>
    rw [resolve] at h
    obtain ⟨test', r₁, htest, h⟩ := andThen_eq_done h
    obtain ⟨onTrue', r₂, hthen, h⟩ := andThen_eq_done h
    obtain ⟨onFalse', helse, rfl⟩ := map_eq_done h
    have hmakes := ((resolve_makes test htest frame).append (resolve_makes onTrue hthen frame)).append
      (resolve_makes onFalse helse frame)
    rwa [← lambdaFrames_append, ← lambdaFrames_append] at hmakes

theorem resolveAll_makes {r r' : Resolver} {es' : List Expr} (es : List Expr) (h : resolveAll es r = .done es' r')
    (frame : Option Nat) : Makes r r' (lambdaFrames (nodesAll frame es')) := by
  cases es with
  | nil =>
    cases h
    exact .nothing rfl id
  | cons e es =>
    rw [resolveAll] at h
    obtain ⟨e', r₁, he, h⟩ := andThen_eq_done h
    obtain ⟨rest', hes, rfl⟩ := map_eq_done h
    have hmakes := (resolve_makes e he frame).append (resolveAll_makes es hes frame)
    rwa [← lambdaFrames_append] at hmakes

theorem resolveStatements_makes {r r' : Resolver} {es' : List Expr} (es : List Expr)
    (h : resolveStatements es r = .done es' r') (frame : Option Nat) :
    Makes r r' (lambdaFrames (nodesAll frame es')) := by
  cases es with
  | nil =>
    cases h
    exact .nothing rfl id
  | cons e es =>
    cases hassign : e.isAssign with
    | false =>
      rw [resolveStatements_cons hassign] at h
      obtain ⟨e', r₁, he, h⟩ := andThen_eq_done h
      obtain ⟨rest', hes, rfl⟩ := map_eq_done h
      have hmakes := (resolve_makes e he frame).append (resolveStatements_makes es hes frame)
      rwa [← lambdaFrames_append] at hmakes
    | true =>
      cases e with
      | assign span x value var =>
        rw [resolveStatements] at h
        obtain ⟨value', r₁, hvalue, h⟩ := andThen_eq_done h
        obtain ⟨rest', hes, rfl⟩ := map_eq_done h
        have hvalue := (resolve_makes value hvalue frame).congr (scopes_mark r x .defining).symm rfl
        have hes := (resolveStatements_makes es hes frame).congr (scopes_mark r₁ x .defined).symm rfl
        have hmakes := hvalue.append hes
        rwa [← lambdaFrames_append] at hmakes
      | number | name | call | lambda | block | cond => cases hassign

end

end Expr

/-! ## Programs -/

/-- The frames of all lambdas of a program, in the order in which the lambdas begin. -/
def Expr.frames (e : Expr) : List (Option Nat) := lambdaFrames (e.nodes (some 0))

/-- The table belongs to the tree of a program. -/
structure ScopeTable.Describes (t : ScopeTable) (globals : List String) (e : Expr) : Prop where
  size : t.size = 1 + e.frames.length
  frames : e.frames = (List.range' 1 e.frames.length).map some
  nodes : ∀ n ∈ e.nodes (some 0), n.2.Annotated t globals n.1
  main : ∃ s, t[0]? = some s ∧ s.parent = none ∧ s.params = [] ∧ s.captures = []
  nested : ∀ id s, t[id]? = some s → t.Nested id s
  dense : t.Dense
  once : t.CapturesOnce

/-- Every scope but that of the program itself belongs to a lambda. -/
theorem ScopeTable.nested_of_annotated {t : ScopeTable} {globals : List String} {e : Expr} {id : Nat} {s : Scope}
    (hsize : t.size = 1 + e.frames.length) (hframes : e.frames = (List.range' 1 e.frames.length).map some)
    (hnodes : ∀ n ∈ e.nodes (some 0), n.2.Annotated t globals n.1) (hid : 0 < id) (hs : t[id]? = some s) :
    t.Nested id s := by
  -- The number is in the range that the lambdas have, so one of them has it.
  have hlt : id < t.size := (Array.getElem?_eq_some_iff.1 hs).1
  have hmem : some id ∈ e.frames := by
    rw [hframes]
    exact List.mem_map_of_mem (List.mem_range'_1.2 ⟨hid, by omega⟩)
  obtain ⟨⟨frame, node⟩, hn, hown⟩ := List.mem_filterMap.1 hmem
  cases node with
  | lambda span params body own label =>
    obtain rfl : own = some id := Option.some.inj hown
    obtain ⟨id', s', hid', hs', -, -, -, hnested⟩ := hnodes _ hn
    obtain rfl : id = id' := Option.some.inj hid'
    obtain rfl : s = s' := Option.some.inj (hs.symm.trans hs')
    exact hnested
  | number | name | call | block | assign | cond => cases hown

namespace Resolver

variable {globals : List String} {e e' : Expr} {r : Resolver}

theorem program_makes (h : (new globals).program e = .done e' r) :
    r.scopes.size = 1 + e'.frames.length ∧ e'.frames = (List.range' 1 e'.frames.length).map some ∧
      r.scopes.CapturesOnce := by
  obtain ⟨tree, r', htree, h⟩ := Resolution.andThen_eq_done h
  cases h
  obtain ⟨hsize, hframes, honce⟩ := Expr.resolve_makes e htree (some 0)
  exact ⟨hsize, hframes, honce (ScopeTable.CapturesOnce.push (fun h => by cases h) rfl)⟩

theorem program_describes (h : (new globals).program e = .done e' r) : r.scopes.Describes globals e' := by
  obtain ⟨hsize, hframes, honce⟩ := program_makes h
  obtain ⟨⟨s, hmain⟩, hdense, htree⟩ := program_sound h
  have hvalid : FramesValid r.scopes globals [Frame.main] := ⟨⟨s, hmain⟩, trivial⟩
  have hnodes : ∀ n ∈ e'.nodes (some 0), n.2.Annotated r.scopes globals n.1 :=
    Expr.resolved_annotated e htree hvalid (by simp)
  refine ⟨hsize, hframes, hnodes, ?_, fun id s' hs' => ?_, hdense, honce⟩
  · exact ⟨s, hmain.scope, hmain.parent_eq, hmain.params_eq, hmain.captures_main⟩
  · rcases Nat.eq_zero_or_pos id with rfl | hid
    · obtain rfl : s = s' := Option.some.inj (hmain.scope.symm.trans hs')
      have hnone : FramesValid r.scopes globals [] := trivial
      exact hmain.nested hnone
    · exact ScopeTable.nested_of_annotated hsize hframes hnodes hid hs'

end Resolver

/-- The place at a node has an origin. An entry of the prelude, which is never captured, is its own. -/
theorem ScopeTable.Describes.exists_origin {t : ScopeTable} {globals : List String} {e : Expr}
    (h : t.Describes globals e) {n : Option Nat × Expr} (hn : n ∈ e.nodes (some 0)) {v : Var} (hv : n.2.var? = some v) :
    ∃ origin, t.origin? v = some origin ∧ (t.IsOrigin origin ∨ ∃ i < globals.length, v = .global i ∧ origin = v) := by
  -- There are more steps to take than there are scopes.
  have hplace : ∀ (id : Nat) (s : Scope), t[id]? = some s → s.Has id v →
      ∃ origin, t.origin? v = some origin ∧ (t.IsOrigin origin ∨ ∃ i < globals.length, v = .global i ∧ origin = v) := by
    intro id s hs hhas
    have hid : id < t.size + 1 := Nat.lt_succ_of_lt (Array.getElem?_eq_some_iff.1 hs).1
    obtain ⟨origin, horigin, hend⟩ := ScopeTable.exists_origin h.nested hid hs hhas
    exact ⟨origin, horigin, .inl hend⟩
  obtain ⟨frame, node⟩ := n
  have hannotated := h.nodes _ hn
  cases node with
  | name span x var =>
    obtain ⟨v', hv', hcases⟩ := hannotated
    obtain rfl : v = v' := Option.some.inj (hv.symm.trans hv')
    rcases hcases with ⟨i, hi, rfl⟩ | ⟨id, s, -, hs, hhas⟩
    · exact ⟨.global i, rfl, .inr ⟨i, hi, rfl, rfl⟩⟩
    · exact hplace id s hs hhas
  | assign span x value var =>
    obtain ⟨slot, id, s, hslot, -, hs, hhas⟩ := hannotated
    obtain rfl : v = .slot slot := Option.some.inj (hv.symm.trans hslot)
    exact hplace id s hs hhas
  | number | call | lambda | block | cond => cases hv

/-- The table of scopes belongs to the tree that comes with it, which is the tree of the program but for what has been
filled in. Every place in it has an origin: an argument or a local of some frame, a capture of the closure itself, or an
entry of the prelude that the place is. -/
theorem Resolver.program_scopes {globals : List String} {e e' : Expr} {r : Resolver}
    (h : (Resolver.new globals).program e = .done e' r) :
    e'.bare = e.bare ∧ r.scopes.Describes globals e' ∧ ∀ n ∈ e'.nodes (some 0), ∀ v, n.2.var? = some v →
      ∃ origin, r.scopes.origin? v = some origin ∧
        (r.scopes.IsOrigin origin ∨ ∃ i < globals.length, v = .global i ∧ origin = v) := by
  have hdescribes := program_describes h
  obtain ⟨hmain, -, htree⟩ := program_sound h
  have hvalid : FramesValid r.scopes globals [Frame.main] := ⟨hmain, trivial⟩
  obtain ⟨-, hbare⟩ := Expr.resolved_placed e htree hvalid (by simp)
  exact ⟨hbare, hdescribes, fun n hn v hv => hdescribes.exists_origin hn hv⟩

theorem Resolver.program_scopes_nestedReferences :
    ∃ e' r, (Resolver.new ["k", "g"]).program nestedReferences = .done e' r ∧ r.scopes.size = 3 ∧
      r.scopes.Describes ["k", "g"] e' ∧ ∀ n ∈ e'.nodes (some 0), ∀ v, n.2.var? = some v →
        ∃ origin, r.scopes.origin? v = some origin ∧
          (r.scopes.IsOrigin origin ∨ ∃ i < 2, v = .global i ∧ origin = v) := by
  have hsize : (match (Resolver.new ["k", "g"]).program nestedReferences with
      | .done _ r => r.scopes.size == 3
      | .failed _ _ _ => false) = true := by cbv
  cases h : (Resolver.new ["k", "g"]).program nestedReferences with
  | failed e' error r => rw [h] at hsize; cases hsize
  | done e' r =>
    rw [h] at hsize
    obtain ⟨-, hdescribes, horigins⟩ := program_scopes h
    exact ⟨e', r, rfl, by simpa using hsize, hdescribes, horigins⟩

/-- An entry of the prelude has a place too, and its origin is in no scope. -/
theorem Resolver.program_scopes_global :
    ∃ e' r n v, (Resolver.new ["add"]).program (.name default "add" none) = .done e' r ∧ n ∈ e'.nodes (some 0) ∧
      n.2.var? = some v ∧ r.scopes.origin? v = some (.global 0) ∧ ¬ r.scopes.IsOrigin (.global 0) := by
  refine ⟨.name default "add" (some (.global 0)), ⟨["add"], [], #[.ofLambda none none []], #[]⟩,
    (some 0, .name default "add" (some (.global 0))), .global 0, rfl, List.mem_singleton.2 rfl, rfl, rfl, ?_⟩
  rintro ⟨id, s, -, hhas, -⟩
  exact hhas

end ClosureLang
