import ClosureLang.Machine.Arithmetic
import ClosureLang.Proofs.WellScoped

/-!
# What a program means

An evaluator on trees as they are before names have been resolved. It looks names up in an environment, innermost
binding first, and knows of no frames, slots or captures: a closure keeps the whole environment it was made in.

The evaluator counts how deep calls nest, which makes it total. A program evaluates to a value if it does so at some
depth, and then it does at every greater one.
-/

namespace ClosureLang

/-- What an expression denotes. A closure that is assigned to a name knows itself by that name. -/
inductive Meaning where
  | number (x : Float)
  | boolean (b : Bool)
  | builtin (b : Builtin)
  | closure (label : Option String) (params : List String) (body : Expr) (self : Option String)
      (env : List (String × Meaning))

/-- Bindings, the innermost first. -/
abbrev Env := List (String × Meaning)

/-- The builtins and the two truth values. -/
def Env.standard : Env :=
  Builtin.all.map (fun b => (b.name, .builtin b)) ++ [("true", .boolean true), ("false", .boolean false)]

/-- Why an evaluation has no result. The first two do not arise for trees whose names can be resolved. -/
inductive Stop where
  | unbound
  | misplaced
  | notCallable
  | typeMismatch
  | arityMismatch
  | divisionByZero
  | tooDeep
deriving DecidableEq, Repr

/-- The error of the machine for it. -/
def Stop.kind : Stop → Option RuntimeKind
  | unbound | misplaced => none
  | notCallable => some .notCallable
  | typeMismatch => some .typeMismatch
  | arityMismatch => some .arityMismatch
  | divisionByZero => some .divisionByZero
  | tooDeep => some .stackOverflow

/-- A builtin on its arguments. -/
def Builtin.denote : Builtin → List Meaning → Except Stop Meaning
  | add, [.number x, .number y] => .ok (.number (x + y))
  | sub, [.number x, .number y] => .ok (.number (x - y))
  | mul, [.number x, .number y] => .ok (.number (x * y))
  | div, [.number x, .number y] => if y == 0 then .error .divisionByZero else .ok (.number (x / y))
  | mod, [.number x, .number y] => if y == 0 then .error .divisionByZero else .ok (.number (Binary64.remainder x y))
  | eq, [.number x, .number y] => .ok (.boolean (x == y))
  | eq, [.boolean x, .boolean y] => .ok (.boolean (x == y))
  | neq, [.number x, .number y] => .ok (.boolean (x != y))
  | neq, [.boolean x, .boolean y] => .ok (.boolean (x != y))
  | lt, [.number x, .number y] => .ok (.boolean (x < y))
  | le, [.number x, .number y] => .ok (.boolean (x ≤ y))
  | gt, [.number x, .number y] => .ok (.boolean (y < x))
  | ge, [.number x, .number y] => .ok (.boolean (y ≤ x))
  | and, [.boolean x, .boolean y] => .ok (.boolean (x && y))
  | or, [.boolean x, .boolean y] => .ok (.boolean (x || y))
  | neg, [.number x] => .ok (.number (-x))
  | not, [.boolean x] => .ok (.boolean (!x))
  | _, _ => .error .typeMismatch

namespace Meaning

/-- The number of arguments of a function. -/
def arity? : Meaning → Option Nat
  | builtin b => some b.arity
  | closure _ params _ _ _ => some params.length
  | _ => none

/-- The bindings for the body of a closure: its parameters, then itself, then what was there when it was made. -/
def scope (f : Meaning) (params : List String) (self : Option String) (env : Env) (args : List Meaning) : Env :=
  params.zip args ++ (self.toList.map fun x => (x, f)) ++ env

/-- Calls a function. `deeper` evaluates bodies, if calls may nest one level deeper. -/
def apply (deeper : Option (Expr → Env → Except Stop Meaning)) (f : Meaning) (args : List Meaning) :
    Except Stop Meaning :=
  match deeper with
  | none => .error .tooDeep
  | some eval =>
    match f with
    | builtin b => b.denote args
    | closure _ params body self env => eval body (f.scope params self env args)
    | _ => .error .notCallable

end Meaning

namespace Expr

mutual

/-- Evaluates an expression that is assigned to `binding`. -/
def evalWith (deeper : Option (Expr → Env → Except Stop Meaning)) (binding : Option String) :
    Expr → Env → Except Stop Meaning
  | number _ x, _ => .ok (.number x)
  | name _ x _, ρ =>
    match ρ.lookup x with
    | some d => .ok d
    | none => .error .unbound
  | call _ callee args, ρ => do
    let f ← evalWith deeper none callee ρ
    match f.arity? with
    | none => .error .notCallable
    | some arity =>
      let ds ← evalArgs deeper args ρ
      if ds.length ≠ arity then .error .arityMismatch else f.apply deeper ds
  | lambda _ params body _ label, ρ => .ok (.closure (label.or binding) (paramNames params) body binding ρ)
  | block _ statements, ρ => evalStatements deeper statements ρ
  | assign _ _ _ _, _ => .error .misplaced
  | cond _ test onTrue onFalse, ρ => do
    match ← evalWith deeper none test ρ with
    | .boolean true => evalWith deeper none onTrue ρ
    | .boolean false => evalWith deeper none onFalse ρ
    | _ => .error .typeMismatch

/-- Evaluates arguments, the last one first. -/
def evalArgs (deeper : Option (Expr → Env → Except Stop Meaning)) :
    List Expr → Env → Except Stop (List Meaning)
  | [], _ => .ok []
  | e :: es, ρ => do
    let ds ← evalArgs deeper es ρ
    let d ← evalWith deeper none e ρ
    return d :: ds

/-- Evaluates the statements of a block. Each assignment adds a binding for those after it. -/
def evalStatements (deeper : Option (Expr → Env → Except Stop Meaning)) :
    List Expr → Env → Except Stop Meaning
  | [], _ => .error .misplaced
  | [result], ρ => evalWith deeper none result ρ
  | assign _ x value _ :: statements, ρ => do
    let d ← evalWith deeper (some x) value ρ
    evalStatements deeper statements ((x, d) :: ρ)
  | _ :: _, _ => .error .misplaced

end

/-- Evaluates an expression whose calls nest at most `depth` deep. -/
def evalWithin : (depth : Nat) → Expr → Env → Except Stop Meaning
  | 0 => evalWith none none
  | depth + 1 => evalWith (some (evalWithin depth)) none

/-- What evaluates bodies when calls may nest `n` deep. -/
def levels : (n : Nat) → Option (Expr → Env → Except Stop Meaning)
  | 0 => none
  | n + 1 => some (evalWithin n)

theorem evalWithin_eq (n : Nat) : evalWithin n = evalWith (levels n) none := by
  cases n <;> rfl

/-- The program evaluates to `d`. -/
def Evaluates (e : Expr) (d : Meaning) : Prop := ∃ depth, e.evalWithin depth Env.standard = .ok d

end Expr

/-! ## Depth -/

/-- What has come to an end stays as it is. -/
def Settled {α : Type} (x y : Except Stop α) : Prop := x ≠ .error .tooDeep → y = x

namespace Settled

variable {α β : Type} {x y : Except Stop α}

theorem refl (x : Except Stop α) : Settled x x := fun _ => rfl

theorem bind {f g : α → Except Stop β} (h : Settled x y) (hf : ∀ a, Settled (f a) (g a)) :
    Settled (x >>= f) (y >>= g) := by
  intro hend
  cases x with
  | ok a =>
    rw [h (by simp)]
    exact hf a hend
  | error stop =>
    have hstop : (Except.error stop : Except Stop α) ≠ .error .tooDeep := by
      rintro ⟨⟩
      exact hend rfl
    rw [h hstop]
    rfl

end Settled

/-- What evaluates bodies may have more depth, or there may be something that does where there was nothing. -/
def DeeperSettled : (deeper deeper' : Option (Expr → Env → Except Stop Meaning)) → Prop
  | none, _ => True
  | some eval, some eval' => ∀ e ρ, Settled (eval e ρ) (eval' e ρ)
  | some _, none => False

section Depth

variable {deeper deeper' : Option (Expr → Env → Except Stop Meaning)}

theorem Meaning.apply_settled (hd : DeeperSettled deeper deeper') (f : Meaning) (args : List Meaning) :
    Settled (f.apply deeper args) (f.apply deeper' args) := by
  cases deeper with
  | none => exact fun h => absurd rfl h
  | some eval =>
    cases deeper' with
    | none => exact hd.elim
    | some eval' =>
      cases f with
      | closure label params body self env => exact hd body _
      | number | boolean | builtin => exact .refl _

end Depth

namespace Expr

theorem evalStatements_assign {deeper : Option (Expr → Env → Except Stop Meaning)} {span : Span} {x : String}
    {value : Expr} {var : Option Var} {statements : List Expr} {ρ : Env} (h : BlockForm statements) :
    evalStatements deeper (assign span x value var :: statements) ρ =
      evalWith deeper (some x) value ρ >>= fun d => evalStatements deeper statements ((x, d) :: ρ) := by
  cases h <;> rfl

mutual

theorem evalWith_settled {deeper deeper' : Option (Expr → Env → Except Stop Meaning)}
    (hd : DeeperSettled deeper deeper') (binding : Option String) (e : Expr) (ρ : Env) :
    Settled (evalWith deeper binding e ρ) (evalWith deeper' binding e ρ) := by
  cases e with
  | number | lambda | assign => exact .refl _
  | name => exact .refl _
  | call span callee args =>
    rw [evalWith, evalWith]
    refine (evalWith_settled hd none callee ρ).bind fun f => ?_
    cases f.arity? with
    | none => exact .refl _
    | some arity =>
      refine (evalArgs_settled hd args ρ).bind fun ds => ?_
      split
      · exact .refl _
      · exact f.apply_settled hd ds
  | block span statements =>
    rw [evalWith, evalWith]
    exact evalStatements_settled hd statements ρ
  | cond span test onTrue onFalse =>
    rw [evalWith, evalWith]
    refine (evalWith_settled hd none test ρ).bind fun d => ?_
    split
    · exact evalWith_settled hd none onTrue ρ
    · exact evalWith_settled hd none onFalse ρ
    · exact .refl _

theorem evalArgs_settled {deeper deeper' : Option (Expr → Env → Except Stop Meaning)}
    (hd : DeeperSettled deeper deeper') (es : List Expr) (ρ : Env) :
    Settled (evalArgs deeper es ρ) (evalArgs deeper' es ρ) := by
  cases es with
  | nil => exact .refl _
  | cons e es =>
    rw [evalArgs, evalArgs]
    refine (evalArgs_settled hd es ρ).bind fun ds => ?_
    exact (evalWith_settled hd none e ρ).bind fun d => .refl _

theorem evalStatements_settled {deeper deeper' : Option (Expr → Env → Except Stop Meaning)}
    (hd : DeeperSettled deeper deeper') (es : List Expr) (ρ : Env) :
    Settled (evalStatements deeper es ρ) (evalStatements deeper' es ρ) := by
  match es with
  | [] => exact .refl _
  | [result] =>
    rw [evalStatements, evalStatements]
    exact evalWith_settled hd none result ρ
  | assign _ x value _ :: e :: es =>
    rw [evalStatements, evalStatements]
    · exact (evalWith_settled hd (some x) value ρ).bind fun d => evalStatements_settled hd (e :: es) ((x, d) :: ρ)
    all_goals simp
  | number .. :: _ :: _ | name .. :: _ :: _ | call .. :: _ :: _ | lambda .. :: _ :: _ | block .. :: _ :: _
  | cond .. :: _ :: _ => exact .refl _

end

/-- A greater depth changes nothing but an evaluation that was too deep. -/
theorem evalWithin_settled {n n' : Nat} (h : n ≤ n') (e : Expr) (ρ : Env) :
    Settled (e.evalWithin n ρ) (e.evalWithin n' ρ) := by
  induction n generalizing n' e ρ with
  | zero =>
    have hd : DeeperSettled (levels 0) (levels n') := trivial
    rw [evalWithin_eq, evalWithin_eq]
    exact evalWith_settled hd none e ρ
  | succ n ih =>
    obtain ⟨k, rfl⟩ : ∃ k, n' = k + 1 := ⟨n' - 1, by omega⟩
    have hd : DeeperSettled (levels (n + 1)) (levels (k + 1)) := fun e ρ => ih (by omega) e ρ
    rw [evalWithin_eq, evalWithin_eq]
    exact evalWith_settled hd none e ρ

/-- At any depth a program that has a value evaluates to it or goes too deep. -/
theorem Evaluates.within {e : Expr} {d : Meaning} (h : e.Evaluates d) (n : Nat) :
    e.evalWithin n Env.standard = .ok d ∨ e.evalWithin n Env.standard = .error .tooDeep := by
  obtain ⟨depth, hdepth⟩ := h
  by_cases hdeep : e.evalWithin n Env.standard = .error .tooDeep
  · exact .inr hdeep
  · rcases Nat.le_total n depth with hle | hle
    · exact .inl ((evalWithin_settled hle e _ hdeep).symm.trans hdepth)
    · exact .inl ((evalWithin_settled hle e _ (by rw [hdepth]; simp)).trans hdepth)

end Expr

end ClosureLang
