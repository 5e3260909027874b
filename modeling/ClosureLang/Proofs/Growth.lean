import Mathlib
import ClosureLang.Scope.Resolver

/-!
# How a scope table grows

While names are resolved, scopes are added to the table, and locals and captures to the scopes of the lambdas that are
open. Nothing is taken away or moved, so an index or a slot that was given out once stays good. The scope of a lambda
that has been left is final.
-/

namespace ClosureLang

namespace Scope

/-- The same scope, perhaps with more locals and captures. -/
structure Extends (s s' : Scope) : Prop where
  name : s'.name = s.name
  parent : s'.parent = s.parent
  params : s'.params = s.params
  locals : s.locals <+: s'.locals
  captures : s.captures <+: s'.captures

theorem Extends.refl (s : Scope) : s.Extends s :=
  ⟨rfl, rfl, rfl, List.prefix_rfl, List.prefix_rfl⟩

theorem Extends.trans {s s' s'' : Scope} (h : s.Extends s') (h' : s'.Extends s'') : s.Extends s'' :=
  ⟨h'.name.trans h.name, h'.parent.trans h.parent, h'.params.trans h.params, h.locals.trans h'.locals,
    h.captures.trans h'.captures⟩

theorem extends_addLocal (s : Scope) (x : String) : s.Extends (s.addLocal x) :=
  ⟨rfl, rfl, rfl, List.prefix_append _ _, List.prefix_rfl⟩

theorem extends_addCapture (s : Scope) (x : String) (source : CaptureSource) : s.Extends (s.addCapture x source) :=
  ⟨rfl, rfl, rfl, List.prefix_rfl, List.prefix_append _ _⟩

theorem Extends.capture {s s' : Scope} (h : s.Extends s') {i : Nat} {c : Capture} (hc : s.captures[i]? = some c) :
    s'.captures[i]? = some c := by
  obtain ⟨added, hadded⟩ := h.captures
  rw [← hadded, List.getElem?_append_left (List.getElem?_eq_some_iff.1 hc).1, hc]

/-! ## Slots -/

/-- The slots of the locals and of the captures. -/
def slots (s : Scope) : List Nat := s.locals.map (·.slot) ++ s.captures.map (·.slot)

/-- Each slot of the frame belongs to one local or to one capture. -/
def Dense (s : Scope) : Prop := s.slots.Perm (List.range s.frameSize)

theorem dense_ofLambda (name : Option String) (parent : Option Nat) (params : List String) :
    (ofLambda name parent params).Dense := .refl _

theorem Dense.addLocal {s : Scope} (h : s.Dense) (x : String) : (s.addLocal x).Dense := by
  have hsize : (s.addLocal x).frameSize = s.frameSize + 1 := by
    simp [Scope.addLocal, frameSize]
    omega
  rw [Dense, hsize, List.range_succ]
  refine List.Perm.trans ?_ (h.append_right [s.frameSize])
  simp only [slots, Scope.addLocal, List.map_append, List.map_cons, List.map_nil, List.append_assoc]
  exact (List.perm_append_comm).append_left _

theorem Dense.addCapture {s : Scope} (h : s.Dense) (x : String) (source : CaptureSource) :
    (s.addCapture x source).Dense := by
  have hsize : (s.addCapture x source).frameSize = s.frameSize + 1 := by
    simp [Scope.addCapture, frameSize]
    omega
  rw [Dense, hsize, List.range_succ]
  simpa [slots, Scope.addCapture] using h.append_right [s.frameSize]

theorem Dense.lt {s : Scope} (h : s.Dense) {n : Nat} (hn : n ∈ s.slots) : n < s.frameSize :=
  List.mem_range.1 (h.mem_iff.1 hn)

/-- No local shares its slot with a capture. -/
theorem Dense.local_ne_capture {s : Scope} (h : s.Dense) {n : Nat} (hn : n ∈ s.locals.map (·.slot)) :
    n ∉ s.captures.map (·.slot) := by
  have hnodup : s.slots.Nodup := h.nodup_iff.2 List.nodup_range
  exact fun hn' => (List.nodup_append.1 hnodup).2.2 n hn n hn' rfl

end Scope

namespace ScopeTable

/-- From `t` to `t'`, scopes were added, and only those of the frames in `ids` were extended. -/
structure Grows (ids : List Nat) (t t' : ScopeTable) : Prop where
  size : t.size ≤ t'.size
  scope : ∀ {i : Nat} {s : Scope}, t[i]? = some s → ∃ s', t'[i]? = some s' ∧ s.Extends s' ∧ (i ∉ ids → s' = s)

variable {ids ids' : List Nat} {t t' t'' : ScopeTable}

theorem Grows.refl (ids : List Nat) (t : ScopeTable) : Grows ids t t :=
  ⟨Nat.le_refl _, fun h => ⟨_, h, .refl _, fun _ => rfl⟩⟩

theorem Grows.trans (h : Grows ids t t') (h' : Grows ids t' t'') : Grows ids t t'' where
  size := Nat.le_trans h.size h'.size
  scope hs := by
    obtain ⟨s', hs', hext, heq⟩ := h.scope hs
    obtain ⟨s'', hs'', hext', heq'⟩ := h'.scope hs'
    exact ⟨s'', hs'', hext.trans hext', fun hi => (heq' hi).trans (heq hi)⟩

theorem Grows.weaken (h : Grows ids t t') (hids : ids ⊆ ids') : Grows ids' t t' where
  size := h.size
  scope hs := by
    obtain ⟨s', hs', hext, heq⟩ := h.scope hs
    exact ⟨s', hs', hext, fun hi => heq fun hi' => hi (hids hi')⟩

/-- Frames that are new do not count among those that changed. -/
theorem Grows.strengthen {id : Nat} (h : Grows (id :: ids) t t') (hid : t.size ≤ id) : Grows ids t t' where
  size := h.size
  scope {i s} hs := by
    obtain ⟨s', hs', hext, heq⟩ := h.scope hs
    have hi : i < t.size := (Array.getElem?_eq_some_iff.1 hs).1
    refine ⟨s', hs', hext, fun hni => heq fun hmem => ?_⟩
    rcases List.mem_cons.1 hmem with rfl | hmem
    · omega
    · exact hni hmem

theorem grows_push (ids : List Nat) (t : ScopeTable) (s : Scope) : Grows ids t (t.push s) where
  size := by simp
  scope {i s₀} hs := by
    have hi : i < t.size := (Array.getElem?_eq_some_iff.1 hs).1
    exact ⟨s₀, by rw [Array.getElem?_push, if_neg (by omega), hs], .refl s₀, fun _ => rfl⟩

theorem grows_modify {id : Nat} (hid : id ∈ ids) (t : ScopeTable) {f : Scope → Scope}
    (hf : ∀ s : Scope, s.Extends (f s)) :
    Grows ids t (t.modify id f) where
  size := by simp
  scope {i s} hs := by
    rw [Array.getElem?_modify, hs]
    by_cases h : id = i
    · exact ⟨f s, by simp [h], hf s, fun hi => absurd (h ▸ hid) hi⟩
    · exact ⟨s, by simp [h], .refl s, fun _ => rfl⟩

/-- Every scope of the table is dense. -/
def Dense (t : ScopeTable) : Prop := ∀ {i : Nat} {s : Scope}, t[i]? = some s → s.Dense

theorem Dense.push (h : t.Dense) {s : Scope} (hs : s.Dense) : Dense (t.push s) := by
  intro i s' hs'
  rw [Array.getElem?_push] at hs'
  split at hs'
  · cases hs'
    exact hs
  · exact h hs'

theorem Dense.modify (h : t.Dense) (id : Nat) {f : Scope → Scope} (hf : ∀ s : Scope, s.Dense → (f s).Dense) :
    Dense (t.modify id f) := by
  intro i s' hs'
  rw [Array.getElem?_modify] at hs'
  split at hs'
  · obtain ⟨s, hs, rfl⟩ := Option.map_eq_some_iff.1 hs'
    exact hf s (h hs)
  · exact h hs'

end ScopeTable

end ClosureLang
