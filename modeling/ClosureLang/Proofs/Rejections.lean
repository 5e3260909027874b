import ClosureLang.Interpreter
import ClosureLang.Proofs.Compilation

/-!
# Why a source has no program

A source is rejected by the first stage that finds something wrong with it: its characters, its words or its names. The
last stage never does, since all trees whose names are resolved have code.
-/

namespace ClosureLang

namespace Logged

variable {α β ε : Type} {d : Diagnostic} {log log' : Array Event}

theorem bind_eq_error_iff {x : Logged α} {f : α → Logged β} : (x >>= f) log = .error d log' ↔
    x log = .error d log' ∨ ∃ a log₁, x log = .ok a log₁ ∧ f a log₁ = .error d log' := by
  simp only [bind, EStateM.bind]
  cases x log <;> simp

theorem ofExcept_eq_error {toDiagnostic : ε → Diagnostic} {x : Except ε α}
    (h : ofExcept toDiagnostic x log = .error d log') : ∃ e, x = .error e ∧ d = toDiagnostic e := by
  cases x with
  | ok a => cases h
  | error e =>
    cases h
    exact ⟨e, rfl, rfl⟩

theorem exists_of_bind_eq_ok {x : Logged α} {f : α → Logged β} {b : β} (h : (x >>= f) log = .ok b log') :
    ∃ a log₁, x log = .ok a log₁ ∧ f a log₁ = .ok b log' := by
  simp only [bind, EStateM.bind] at h
  split at h
  · next a log₁ hx => exact ⟨a, log₁, hx, h⟩
  · cases h

theorem ofExcept_eq_ok {toDiagnostic : ε → Diagnostic} {x : Except ε α} {a : α}
    (h : ofExcept toDiagnostic x log = .ok a log') : x = .ok a := by
  cases x with
  | ok b =>
    cases h
    rfl
  | error e => cases h

end Logged

namespace Interpreter

variable {i : Interpreter} {source : String} {d : Diagnostic} {log log' : Array Event}

/-- What is wrong with a source that has no program. -/
inductive Rejects (i : Interpreter) (source : String) : Diagnostic → Prop where
  | lexical {e : LexError} (h : Token.ofSource source = .error e) : Rejects i source (.ofLexError e)
  | parse {tokens : List Token} {e : ParseError} (htokens : Token.ofSource source = .ok tokens)
      (h : Expr.ofTokens tokens = .error e) : Rejects i source (.ofParseError e)
  | resolution {tokens : List Token} {tree tree' : Expr} {e : ResolveError} {r : Resolver}
      (htokens : Token.ofSource source = .ok tokens) (htree : Expr.ofTokens tokens = .ok tree)
      (h : (Resolver.new i.globals.names).program tree = .failed tree' e r) : Rejects i source (.ofResolveError e)

theorem compileTree_eq_error {tree : Expr} (h : i.compileTree tree log = .error d log') :
    ∃ tree' e r, (Resolver.new i.globals.names).program tree = .failed tree' e r ∧ d = .ofResolveError e := by
  unfold compileTree at h
  cases hprogram : (Resolver.new i.globals.names).program tree with
  | failed tree' e r =>
    rw [hprogram] at h
    cases h
    exact ⟨tree', e, r, rfl, rfl⟩
  | done tree' r =>
    -- What is resolved has code, so nothing fails from here on.
    obtain ⟨s, c, -, -, -, -, hcode⟩ := (Resolver.program_sound hprogram).program i.globals
    rw [hprogram] at h
    dsimp only at h
    rw [hcode] at h
    cases h

/-- A source without a program is rejected for one of three reasons. -/
theorem rejects_of_compile (h : i.compile source log = .error d log') : i.Rejects source d := by
  rcases Logged.bind_eq_error_iff.1 h with h | ⟨tokens, _, htokens, h⟩
  · obtain ⟨e, he, rfl⟩ := Logged.ofExcept_eq_error h
    exact .lexical he
  have htokens := Logged.ofExcept_eq_ok htokens
  rcases Logged.bind_eq_error_iff.1 h with h | ⟨tree, _, htree, h⟩
  · obtain ⟨e, he, rfl⟩ := Logged.ofExcept_eq_error h
    exact .parse htokens he
  have htree := Logged.ofExcept_eq_ok htree
  rcases Logged.bind_eq_error_iff.1 h with h | ⟨_, _, -, h⟩
  · cases h
  obtain ⟨tree', e, r, hprogram, rfl⟩ := compileTree_eq_error h
  exact .resolution htokens htree hprogram

end Interpreter

end ClosureLang
