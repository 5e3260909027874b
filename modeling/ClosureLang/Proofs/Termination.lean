import ClosureLang.Proofs.Preservation
import ClosureLang.Proofs.Transitions

/-!
# Every run ends

A machine that does one piece of work after another comes to an end, whatever its code is and whatever state it starts
from: no work is left, or a piece of work fails. What bounds the run is the limit on nested calls. A body starts with
one level less than the call that it belongs to, and work that is over leaves the depth as it found it.

A program without a base case has no value, at no depth, so all its runs end with an error. This is so where a function
cannot get around calling itself, under the name it is assigned to or as an argument of itself.
-/

namespace ClosureLang

namespace Machine.Config

/-- Steps that go on and on from a configuration. -/
def Endless (c : Config) : Prop := ∃ run : Nat → Config, run 0 = c ∧ ∀ n, Next (run n) (run (n + 1))

/-- Where steps can come to an end they do, because there is but one way to go on. -/
theorem Reaches.not_endless {c c' : Config} (h : Reaches c c') (hend : ∀ c'', ¬ Next c' c'') : ¬ c.Endless := by
  induction h using Relation.ReflTransGen.head_induction_on with
  | refl =>
    rintro ⟨run, rfl, hrun⟩
    exact hend _ (hrun 0)
  | head hnext _ ih =>
    rintro ⟨run, rfl, hrun⟩
    exact ih ⟨fun n => run (n + 1), (hrun 0).unique hnext, fun n => hrun (n + 1)⟩

end Machine.Config

/-! ## Calls that cannot be avoided -/

namespace Expr

mutual

/-- The expression has no value unless a call of `f` with suitable arguments has one. -/
def Insists (f : String) (suitable : List Expr → Prop) : Expr → Prop
  | call _ callee args =>
    (callee.asName? = some f ∧ suitable args) ∨ callee.Insists f suitable ∨ AnyInsists f suitable args
  | block _ statements => f ∉ assigned statements ∧ AnyInsists f suitable statements
  | assign _ _ value _ => value.Insists f suitable
  | cond _ test onTrue onFalse =>
    test.Insists f suitable ∨ onTrue.Insists f suitable ∧ onFalse.Insists f suitable
  | number _ _ | name _ _ _ | lambda _ _ _ _ _ => False

def AnyInsists (f : String) (suitable : List Expr → Prop) : List Expr → Prop
  | [] => False
  | e :: es => e.Insists f suitable ∨ AnyInsists f suitable es

end

/-- Where `f` names `d`, it is called with suitable arguments and gives a result. -/
def Called (deeper : Option (Expr → Env → Except Stop Meaning)) (f : String) (suitable : List Expr → Prop)
    (d : Meaning) : Prop :=
  ∃ args ρ ds v, suitable args ∧ ρ.lookup f = some d ∧ evalArgs deeper args ρ = .ok ds ∧ d.apply deeper ds = .ok v

mutual

theorem Insists.called {deeper : Option (Expr → Env → Except Stop Meaning)} {f : String} {suitable : List Expr → Prop}
    {d v : Meaning} {binding : Option String} {ρ : Env} (e : Expr) (h : e.Insists f suitable) (hf : ρ.lookup f = some d)
    (hv : e.evalWith deeper binding ρ = .ok v) : Called deeper f suitable d := by
  cases e with
  | number | name | lambda => exact h.elim
  | assign => cases hv
  | call span callee args =>
    rw [evalWith] at hv
    obtain ⟨g, hg, hv⟩ := exists_of_bind_eq_ok hv
    split at hv
    · cases hv
    obtain ⟨ds, hds, hv⟩ := exists_of_bind_eq_ok hv
    split at hv
    · cases hv
    rcases h with ⟨hname, hsuitable⟩ | hcallee | hargs
    · obtain rfl : g = d := by
        cases callee with
        | name nspan x var =>
          cases hname
          simpa [evalWith, hf, eq_comm] using hg
        | number | call | lambda | block | assign | cond => cases hname
      exact ⟨args, ρ, ds, v, hsuitable, hf, hds, hv⟩
    · exact Insists.called callee hcallee hf hg
    · exact AnyInsists.called_args args hargs hf hds
  | block span statements =>
    rw [evalWith] at hv
    exact AnyInsists.called_statements statements h.2 h.1 hf hv
  | cond span test onTrue onFalse =>
    rw [evalWith] at hv
    obtain ⟨g, hg, hv⟩ := exists_of_bind_eq_ok hv
    rcases h with htest | ⟨htrue, hfalse⟩
    · exact Insists.called test htest hf hg
    · split at hv
      · exact Insists.called onTrue htrue hf hv
      · exact Insists.called onFalse hfalse hf hv
      · cases hv

theorem AnyInsists.called_args {deeper : Option (Expr → Env → Except Stop Meaning)} {f : String}
    {suitable : List Expr → Prop} {d : Meaning} {ds : List Meaning} {ρ : Env} (es : List Expr)
    (h : AnyInsists f suitable es) (hf : ρ.lookup f = some d) (hds : evalArgs deeper es ρ = .ok ds) :
    Called deeper f suitable d := by
  cases es with
  | nil => exact h.elim
  | cons e es =>
    rw [evalArgs] at hds
    obtain ⟨ds', hds', hds⟩ := exists_of_bind_eq_ok hds
    obtain ⟨v, hv, -⟩ := exists_of_bind_eq_ok hds
    rcases h with he | hes
    · exact Insists.called e he hf hv
    · exact AnyInsists.called_args es hes hf hds'

theorem AnyInsists.called_statements {deeper : Option (Expr → Env → Except Stop Meaning)} {f : String}
    {suitable : List Expr → Prop} {d v : Meaning} {ρ : Env} (es : List Expr) (h : AnyInsists f suitable es)
    (hassigned : f ∉ assigned es) (hf : ρ.lookup f = some d) (hv : evalStatements deeper es ρ = .ok v) :
    Called deeper f suitable d := by
  match es with
  | [] => exact h.elim
  | [result] =>
    rw [evalStatements] at hv
    exact Insists.called result (h.resolve_right id) hf hv
  | assign _ x value _ :: e :: es =>
    rw [evalStatements] at hv
    · obtain ⟨d', hd', hv⟩ := exists_of_bind_eq_ok hv
      rw [assigned, List.mem_cons, not_or] at hassigned
      rcases h with hvalue | hrest
      · exact Insists.called value hvalue hf hd'
      · -- The block assigns to other names, so `f` still means what it meant outside.
        have hf' : List.lookup f ((x, d') :: ρ) = some d := by
          rw [List.lookup_cons, beq_eq_false_iff_ne.2 hassigned.1]
          exact hf
        exact AnyInsists.called_statements (e :: es) hrest hassigned.2 hf' hv
    · simp
  | number .. :: _ :: _ | name .. :: _ :: _ | call .. :: _ :: _ | lambda .. :: _ :: _ | block .. :: _ :: _
  | cond .. :: _ :: _ => cases hv

end

end Expr

/-! ## Functions that call themselves -/

theorem Expr.evalArgs_getElem? {deeper : Option (Expr → Env → Except Stop Meaning)} {args : List Expr} {ρ : Env}
    {ds : List Meaning} (h : evalArgs deeper args ρ = .ok ds) {i : Nat} {e : Expr} (he : args[i]? = some e) :
    ∃ d, ds[i]? = some d ∧ evalWith deeper none e ρ = .ok d := by
  induction args generalizing i ds with
  | nil => cases he
  | cons e es ih =>
    rw [evalArgs] at h
    obtain ⟨ds', hds', h⟩ := exists_of_bind_eq_ok h
    obtain ⟨v, hv, h⟩ := exists_of_bind_eq_ok h
    cases h
    cases i with
    | zero =>
      cases he
      exact ⟨v, rfl, hv⟩
    | succ i => exact ih hds' he

namespace Meaning

variable {d : Meaning}

/-- A closure that cannot get around a call of the name it was assigned to. -/
def Recurs (d : Meaning) : Prop :=
  ∃ label params body f env, d = .closure label params body (some f) env ∧ f ∉ params ∧ body.Insists f fun _ => True

/-- The argument with this index is the name itself. -/
def PassesOn (i : Nat) (x : String) (args : List Expr) : Prop := ∃ span var, args[i]? = some (.name span x var)

/-- A closure that cannot get around a call of its argument `i` with that argument in the same place. -/
def AppliesArgument (i : Nat) (d : Meaning) : Prop :=
  ∃ label params body self env x, d = .closure label params body self env ∧ params.idxOf? x = some i ∧
    body.Insists x (PassesOn i x)

theorem lookup_zip_of_not_mem {params : List String} {x : String} (h : x ∉ params) (ds : List Meaning) :
    (params.zip ds).lookup x = none := by
  rw [List.lookup_eq_none_iff]
  rintro ⟨y, d⟩ hmem
  have hy : y ∈ params := (List.of_mem_zip hmem).1
  simpa using fun hxy : x = y => h (hxy ▸ hy)

theorem lookup_zip_of_idxOf? {params : List String} {x : String} {i : Nat} (h : params.idxOf? x = some i)
    {ds : List Meaning} (hd : ds[i]? = some d) : (params.zip ds).lookup x = some d := by
  induction params generalizing i ds with
  | nil => cases h
  | cons y params ih =>
    cases ds with
    | nil => cases hd
    | cons d' ds =>
      rw [List.zip_cons_cons, List.lookup_cons]
      rw [List.idxOf?_cons] at h
      by_cases hxy : y = x
      · simp only [hxy, beq_self_eq_true, if_true, Option.some.injEq] at h ⊢
        subst h
        exact Option.some.inj hd
      · rw [beq_eq_false_iff_ne.2 hxy] at h
        rw [beq_eq_false_iff_ne.2 (Ne.symm hxy)]
        obtain ⟨j, hj, rfl⟩ := Option.map_eq_some_iff.1 h
        exact ih hj hd

/-- There is no depth at which such a closure gives a result. -/
theorem Recurs.apply_ne_ok (h : d.Recurs) (n : Nat) (ds : List Meaning) (v : Meaning) :
    d.apply (Expr.levels n) ds ≠ .ok v := by
  induction n generalizing ds v with
  | zero => exact fun hv => by cases hv
  | succ n ih =>
    intro hv
    have hd := h
    obtain ⟨label, params, body, f, env, rfl, hf, hbody⟩ := hd
    rw [Expr.levels, apply, Expr.evalWithin_eq] at hv
    -- No parameter shadows the name, so in the body it is the closure itself.
    have hself : (scope (.closure label params body (some f) env) params (some f) env ds).lookup f =
        some (.closure label params body (some f) env) := by
      rw [scope, List.lookup_append, List.lookup_append, lookup_zip_of_not_mem hf]
      simp
    obtain ⟨args, ρ, ds', v', -, -, -, hcall⟩ := Expr.Insists.called body hbody hself hv
    exact ih ds' v' hcall

theorem PassesOn.evalArgs {deeper : Option (Expr → Env → Except Stop Meaning)} {i : Nat} {x : String} {args : List Expr}
    (h : PassesOn i x args) {ρ : Env} (hx : ρ.lookup x = some d) {ds : List Meaning}
    (hds : Expr.evalArgs deeper args ρ = .ok ds) : ds[i]? = some d := by
  obtain ⟨span, var, harg⟩ := h
  obtain ⟨v, hv, heval⟩ := Expr.evalArgs_getElem? hds harg
  rw [Expr.evalWith, hx] at heval
  cases heval
  exact hv

theorem AppliesArgument.apply_ne_ok {d' : Meaning} {i : Nat} (h : d.AppliesArgument i) (h' : d'.AppliesArgument i)
    (n : Nat) {ds : List Meaning} (hds : ds[i]? = some d') (v : Meaning) : d.apply (Expr.levels n) ds ≠ .ok v := by
  induction n generalizing d ds v with
  | zero => exact fun hv => by cases hv
  | succ n ih =>
    intro hv
    obtain ⟨label, params, body, self, env, x, rfl, hx, hbody⟩ := h
    rw [Expr.levels, apply, Expr.evalWithin_eq] at hv
    have hlookup : (scope (.closure label params body self env) params self env ds).lookup x = some d' := by
      rw [scope, List.lookup_append, List.lookup_append, lookup_zip_of_idxOf? hx hds]
      rfl
    obtain ⟨args, ρ, ds', v', hpasses, hρ, hargs, hcall⟩ := Expr.Insists.called body hbody hlookup hv
    -- The argument is called with itself in its place, so all is as before, one level deeper.
    exact ih h' (hpasses.evalArgs hρ hargs) v' hcall

end Meaning

/-- A program that calls a function which cannot get around calling itself. -/
inductive Expr.Baseless : Expr → Prop where
  | recursion {span aspan lspan : Span} {f : String} {params : List Expr} {body result : Expr} {frame : Option Nat}
    {label : Option String} {var : Option Var} (hf : f ∉ paramNames params) (hbody : body.Insists f fun _ => True)
    (hresult : result.Insists f fun _ => True) :
    Baseless (.block span [.assign aspan f (.lambda lspan params body frame label) var, result])
  | application {span lspan lspan' : Span} {x x' : String} {params params' args : List Expr} {body body' : Expr}
    {frame frame' : Option Nat} {label label' : Option String} {i : Nat}
    (hparam : (paramNames params).idxOf? x = some i) (hbody : body.Insists x (Meaning.PassesOn i x))
    (harg : args[i]? = some (.lambda lspan' params' body' frame' label'))
    (hparam' : (paramNames params').idxOf? x' = some i) (hbody' : body'.Insists x' (Meaning.PassesOn i x')) :
    Baseless (.call span (.lambda lspan params body frame label) args)

/-- A program without a base case has no value. -/
theorem Expr.Baseless.not_evaluates {e : Expr} (h : e.Baseless) (d : Meaning) : ¬ e.Evaluates d := by
  rintro ⟨n, hn⟩
  rw [evalWithin_eq] at hn
  cases h with
  | @recursion span aspan lspan f params body result frame label var hf hbody hresult =>
    have hrecurs : Meaning.Recurs (.closure (label.or (some f)) (paramNames params) body (some f) Env.standard) :=
      ⟨_, _, _, _, _, rfl, hf, hbody⟩
    rw [evalWith, evalStatements, evalWith] at hn
    · obtain ⟨args, ρ, ds, v, -, -, -, hcall⟩ := Insists.called result hresult (List.lookup_cons_self) hn
      exact hrecurs.apply_ne_ok n ds v hcall
    · simp
  | @application span lspan lspan' x x' params params' args body body' frame frame' label label' i hparam hbody harg
      hparam' hbody' =>
    rw [evalWith, evalWith] at hn
    obtain ⟨_, hclosure, hn⟩ := exists_of_bind_eq_ok hn
    cases hclosure
    obtain ⟨ds, hds, hn⟩ := exists_of_bind_eq_ok hn
    split at hn
    · cases hn
    obtain ⟨d', hd', heval⟩ := evalArgs_getElem? hds harg
    rw [evalWith] at heval
    cases heval
    have hcallee : Meaning.AppliesArgument i (.closure (label.or none) (paramNames params) body none Env.standard) :=
      ⟨_, _, _, _, _, x, rfl, hparam, hbody⟩
    have hargument :
        Meaning.AppliesArgument i (.closure (label'.or none) (paramNames params') body' none Env.standard) :=
      ⟨_, _, _, _, _, x', rfl, hparam', hbody'⟩
    exact hcallee.apply_ne_ok hargument n hd' d hn

/-! ## Runs -/

namespace Machine

theorem exec_ends (c : Code) (m : Machine) :
    (∃ m', exec c m = .ok () m' ∧ Config.Reaches ⟨[.run c], m⟩ ⟨[], m'⟩) ∨
      ∃ e m' c', exec c m = .error e m' ∧ Config.Reaches ⟨[.run c], m⟩ c' ∧ c'.Fails e m' := by
  cases hexec : exec c m with
  | ok _ m' => exact .inl ⟨m', rfl, wp_ok (exec_does c m) hexec⟩
  | error e m' =>
    obtain ⟨c', hreach, hfails⟩ := wp_error (exec_does c m) hexec
    exact .inr ⟨e, m', c', rfl, hreach, hfails⟩

/-- Runs end. Whatever code a machine runs and whatever state it is in, its steps do not go on for ever: they end where
`exec` ends, well or with the same error. A program that has no value, and above all one whose functions have no base
case, ends with an error. -/
theorem exec_terminates :
    (∀ (c : Code) (m : Machine), ¬ Config.Endless ⟨[.run c], m⟩ ∧
      ((∃ m', exec c m = .ok () m' ∧ Config.Reaches ⟨[.run c], m⟩ ⟨[], m'⟩) ∨
        ∃ e m' c', exec c m = .error e m' ∧ Config.Reaches ⟨[.run c], m⟩ c' ∧ c'.Fails e m')) ∧
    ∀ {e e' : Expr} {r : Resolver} {p : Program}, (Resolver.new Prelude.standard.names).program e = .done e' r →
      e'.toProgram r.scopes Prelude.standard = .ok p → (e.Baseless ∨ ∀ d, ¬ e.Evaluates d) →
      ∀ m : Machine, ∃ err m', run p m = .error err m' := by
  refine ⟨fun c m => ⟨?_, exec_ends c m⟩, fun {e e' r p} hresolved hprogram hendless m => ?_⟩
  · rcases exec_ends c m with ⟨m', -, hreach⟩ | ⟨e, m', c', -, hreach, hfails⟩
    · exact hreach.not_endless (Config.not_next_done m')
    · exact hreach.not_endless fun _ => hfails.not_next
  · have hnone : ∀ d, ¬ e.Evaluates d := hendless.elim (fun h => h.not_evaluates) id
    obtain ⟨p', hprogram', himplements⟩ := (Resolver.program_sound hresolved).implements
    cases hprogram.symm.trans hprogram'
    cases hrun : run p m with
    | error err m' => exact ⟨err, m', rfl⟩
    | ok v m' =>
      obtain ⟨d, hd, -⟩ := wp_ok (run_outcome himplements m) hrun
      exact absurd ⟨_, hd⟩ (hnone d)

/-- `{ f = (n, b) -> if b then f(n, b) else not(f(b, n)); f(true, f) }` -/
def restlessRecursion : Expr :=
  let x (name : String) : Expr := .name default name none
  .block default
    [.assign default "f" (.lambda default [x "n", x "b"]
        (.cond default (x "b") (.call default (x "f") [x "n", x "b"])
          (.call default (x "not") [.call default (x "f") [x "b", x "n"]])) none none) none,
      .call default (x "f") [x "true", x "f"]]

/-- `(x -> x(x))(y -> { z = y; y(y) })` -/
def restlessApplication : Expr :=
  let x (name : String) : Expr := .name default name none
  .call default (.lambda default [x "x"] (.call default (x "x") [x "x"]) none none)
    [.lambda default [x "y"]
      (.block default [.assign default "z" (x "y") none, .call default (x "y") [x "y"]]) none none]

theorem baseless_restlessRecursion : restlessRecursion.Baseless := by
  refine .recursion (by decide) ?_ (.inl ⟨rfl, trivial⟩)
  exact .inr ⟨.inl ⟨rfl, trivial⟩, .inr (.inr (.inl (.inl ⟨rfl, trivial⟩)))⟩

theorem baseless_restlessApplication : restlessApplication.Baseless :=
  .application (i := 0) rfl (.inl ⟨rfl, _, _, rfl⟩) rfl rfl ⟨by decide, .inr (.inl (.inl ⟨rfl, _, _, rfl⟩))⟩

theorem exec_terminates_restless :
    (restlessRecursion.Baseless ∧ ∃ e' r p,
      (Resolver.new Prelude.standard.names).program restlessRecursion = .done e' r ∧
      e'.toProgram r.scopes Prelude.standard = .ok p ∧ ∀ m : Machine, ∃ err m', run p m = .error err m') ∧
    restlessApplication.Baseless ∧ ∃ e' r p,
      (Resolver.new Prelude.standard.names).program restlessApplication = .done e' r ∧
      e'.toProgram r.scopes Prelude.standard = .ok p ∧ ∀ m : Machine, ∃ err m', run p m = .error err m' := by
  have hends {e : Expr} (hbaseless : e.Baseless)
      (hresolved : ((Resolver.new Prelude.standard.names).program e).Succeeds) :
      ∃ e' r p, (Resolver.new Prelude.standard.names).program e = .done e' r ∧
        e'.toProgram r.scopes Prelude.standard = .ok p ∧ ∀ m : Machine, ∃ err m', run p m = .error err m' := by
    obtain ⟨e', r, hresolved⟩ := hresolved
    obtain ⟨_, _, -, -, -, -, hprogram⟩ := (Resolver.program_sound hresolved).program Prelude.standard
    exact ⟨e', r, _, hresolved, hprogram, exec_terminates.2 hresolved hprogram (.inl hbaseless)⟩
  exact ⟨⟨baseless_restlessRecursion, hends baseless_restlessRecursion ⟨_, _, rfl⟩⟩,
    baseless_restlessApplication, hends baseless_restlessApplication ⟨_, _, rfl⟩⟩

end Machine

end ClosureLang
