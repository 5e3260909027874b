import ClosureLang.Proofs.Grammar

/-!
# Rules for readers

`wp p Q E c` says how the reader `p` ends at the place `c`: with a result and a place in `Q`, or with an error in `E`.
The rules below take readers apart, one rule for each primitive.

A reader of nested expressions gets the precedence to stay above. The section on levels tells which phrases it can find
then, and which words can come after them.

Places are given by the words that are still to come: tokens other than the end, so that reading one always moves on.
-/

namespace ClosureLang

open Token (Kind)
open Grammar

/-! ## Places -/

/-- A token that is not the end. -/
abbrev Token.Proper := {t : Token // t.kind ≠ .eof}

namespace Token

def kinds (ws : List Token.Proper) : List Kind := ws.map (·.val.kind)

@[simp] theorem kinds_nil : kinds [] = [] := rfl

@[simp] theorem kinds_cons (w : Token.Proper) (ws : List Token.Proper) : kinds (w :: ws) = w.val.kind :: kinds ws := rfl

@[simp] theorem kinds_append (ws₁ ws₂ : List Token.Proper) : kinds (ws₁ ++ ws₂) = kinds ws₁ ++ kinds ws₂ :=
  List.map_append

end Token

/-- The place before some words, with the tokens `stop` and `later` after them. -/
def Cursor.before : (words : List Token.Proper) → (stop : Token) → (later : List Token) → Cursor
  | [], stop, later => ⟨stop, later⟩
  | w :: ws, stop, later => ⟨w.val, ws.map (·.val) ++ stop :: later⟩

namespace Cursor

variable {w : Token.Proper} {ws : List Token.Proper} {stop : Token} {later : List Token}

@[simp] theorem current_before_nil : (before [] stop later).current = stop := rfl

@[simp] theorem current_before_cons : (before (w :: ws) stop later).current = w.val := rfl

@[simp] theorem next_before_cons : (before (w :: ws) stop later).next = before ws stop later := by
  cases ws <;> simp [before, next, w.2]

theorem next_before_word : (before [] w.val (ws.map (·.val) ++ stop :: later)).next = before ws stop later :=
  next_before_cons

theorem next_before_nil (h : stop.kind = .eof) : (before [] stop later).next = before [] stop later := by
  simp [before, next, h]

theorem before_append (ws₁ ws₂ : List Token.Proper) :
    before (ws₁ ++ w :: ws₂) stop later = before ws₁ w.val (ws₂.map (·.val) ++ stop :: later) := by
  cases ws₁ <;> simp [before]

theorem ofTokens?_before (ws : List Token.Proper) (stop : Token) :
    ofTokens? (ws.map (·.val) ++ [stop]) = some (before ws stop []) := by
  cases ws <;> rfl

end Cursor

/-! ## Levels and precedences -/

namespace Grammar

/-- How tightly an operator can bind that follows a phrase of the level. -/
def Level.ceiling : Level → Precedence
  | expression => .lowest
  | disjunction => .disjunction
  | conjunction => .conjunction
  | comparison => .comparison
  | sum => .sum
  | product => .product
  | unary => .unary
  | application | primary => .call

/-- The highest precedence that a reader can stay above and still find the phrases of the level. -/
def Level.floor : Level → Precedence
  | expression => .lowest
  | disjunction => .choice
  | conjunction => .disjunction
  | comparison => .conjunction
  | sum => .comparison
  | product => .sum
  | unary | application | primary => .unary

/-- The word can follow a phrase of the level: if it is an operator, it can have the phrase on its left. -/
def Follows (l : Level) (e : Ending) (next : Kind) : Prop :=
  ∀ p x, next.extension? = some (p, x) → p ≤ l.ceiling ∧ e = .closed

/-- No operator that binds tighter than `above` comes next. -/
def Stops (above : Precedence) (next : Kind) : Prop :=
  ∀ p x, next.extension? = some (p, x) → p ≤ above

theorem follows_of_none {l : Level} {e : Ending} {next : Kind} (h : next.extension? = none) : Follows l e next := by
  intro p x hnext
  rw [h] at hnext
  cases hnext

theorem stops_of_none {above : Precedence} {next : Kind} (h : next.extension? = none) : Stops above next := by
  intro p x hnext
  rw [h] at hnext
  cases hnext

theorem extension?_bounds {k : Kind} {p : Precedence} {x : Extension} (h : k.extension? = some (p, x)) :
    0 < p ∧ p ≤ .call := by
  cases k <;> simp [Token.Kind.extension?] at h <;> obtain ⟨rfl, -⟩ := h <;> decide

/-- Every operator can follow a phrase that takes arguments. -/
theorem follows_closed {l : Level} (hl : l.ceiling = .call) (next : Kind) : Follows l .closed next :=
  fun _ _ hnext => ⟨hl ▸ (extension?_bounds hnext).2, rfl⟩

/-- No operator follows the body of a lambda. -/
theorem extension?_of_follows_lambda {l : Level} {next : Kind} (h : Follows l .lambda next) :
    next.extension? = none := by
  cases hnext : next.extension? with
  | none => rfl
  | some px => exact absurd (h _ _ hnext).2 (by decide)

theorem extension?_of_mem_operators {l : Level} {op : Kind} {function : String} (h : (op, function) ∈ operators l) :
    op.extension? = some (l.ceiling, .operand function) := by
  have all : ∀ p ∈ operators l, p.1.extension? = some (l.ceiling, .operand p.2) := by
    cases l <;> decide
  exact all _ h

theorem mem_operators_of_extension? {op : Kind} {p : Precedence} {function : String}
    (h : op.extension? = some (p, .operand function)) : ∃ l, (op, function) ∈ operators l ∧ l.ceiling = p := by
  cases op <;> simp [Token.Kind.extension?] at h <;> obtain ⟨rfl, rfl⟩ := h
  case star | slash | percent => exact ⟨.product, by simp [operators], rfl⟩
  case plus | minus => exact ⟨.sum, by simp [operators], rfl⟩
  case ampAmp => exact ⟨.conjunction, by simp [operators], rfl⟩
  case pipePipe => exact ⟨.disjunction, by simp [operators], rfl⟩
  all_goals exact ⟨.comparison, by simp [operators], rfl⟩

theorem extension?_arguments {k : Kind} {p : Precedence} (h : k.extension? = some (p, .arguments)) :
    k = .leftParen ∧ p = .call := by
  cases k <;> simp [Token.Kind.extension?] at h
  exact ⟨rfl, h.symm⟩

theorem extension?_branches {k : Kind} {p : Precedence} (h : k.extension? = some (p, .branches)) :
    k = .question ∧ p = .choice := by
  cases k <;> simp [Token.Kind.extension?] at h
  exact ⟨rfl, h.symm⟩

/-- The levels that have operators lie between the loosest and the unary one. -/
theorem floor_of_mem_operators {l : Level} {op : Kind} {function : String} (h : (op, function) ∈ operators l) :
    l.ceiling = l.floor + 1 ∧ l.ceiling ≤ l.tighter.floor ∧ l.ceiling ≤ .unary := by
  cases l <;> simp [operators] at h <;> decide

theorem Phrase.loosen_of_ceiling {l m : Level} {e : Ending} {ws : List Kind} {t : Expr} (h : Phrase l e ws t)
    (hle : m.ceiling ≤ l.ceiling) (hm : m ≠ .primary) : Phrase m e ws t := by
  refine h.loosen ?_
  cases m <;> cases l <;> first | decide | exact absurd rfl hm | exact absurd hle (by decide)

/-- The right operand of an operator is read above the operator's precedence. -/
theorem Phrase.loosen_of_operator {l m : Level} {e : Ending} {ws : List Kind} {t : Expr} {op : Kind}
    {function : String} (h : Phrase l e ws t) (hop : (op, function) ∈ operators m) (hle : m.ceiling ≤ l.floor) :
    Phrase m.tighter e ws t := by
  refine h.loosen ?_
  cases m <;> simp [operators] at hop <;> cases l <;> first | decide | exact absurd hle (by decide)

theorem Phrase.loosen_of_floor {l m : Level} {e : Ending} {ws : List Kind} {t : Expr} (h : Phrase l e ws t)
    (hle : m.floor ≤ l.floor) (hm : m.rank ≤ Level.unary.rank) : Phrase m e ws t := by
  refine h.loosen ?_
  cases m <;> cases l <;> first | decide | exact absurd hm (by decide) | exact absurd hle (by decide)

end Grammar

/-! ## Rules -/

namespace Parser

variable {α β : Type} {Q : α → Cursor → Prop} {E : ParseError → Prop} {c : Cursor}

/-- From `c`, the reader ends well in `Q` or with an error in `E`. -/
def wp (p : Parser α) (Q : α → Cursor → Prop) (E : ParseError → Prop) (c : Cursor) : Prop :=
  match p c with
  | .ok a c' => Q a c'
  | .error e _ => E e

theorem wp_ok {p : Parser α} {a : α} {c' : Cursor} (h : wp p Q E c) (hp : p c = .ok a c') : Q a c' := by
  unfold wp at h
  rwa [hp] at h

theorem wp_mono {p : Parser α} {Q' : α → Cursor → Prop} {E' : ParseError → Prop} (h : wp p Q E c)
    (hQ : ∀ a c', Q a c' → Q' a c') (hE : ∀ e, E e → E' e) : wp p Q' E' c := by
  unfold wp at h ⊢
  split at h
  · exact hQ _ _ h
  · exact hE _ h

@[simp] theorem wp_pure {a : α} : wp (pure a) Q E c ↔ Q a c := Iff.rfl

@[simp] theorem wp_bind {p : Parser β} {f : β → Parser α} :
    wp (p >>= f) Q E c ↔ wp p (fun b c' => wp (f b) Q E c') E c := by
  simp only [wp, bind, EStateM.bind]
  cases p c <;> rfl

@[simp] theorem wp_get {Q : Cursor → Cursor → Prop} : wp get Q E c ↔ Q c c := Iff.rfl

@[simp] theorem wp_peek {Q : Token → Cursor → Prop} : wp peek Q E c ↔ Q c.current c := Iff.rfl

@[simp] theorem wp_advance {Q : Token → Cursor → Prop} : wp advance Q E c ↔ Q c.current c.next := Iff.rfl

@[simp] theorem wp_fail {problem : ParseProblem} {span : Span} :
    wp (fail problem span : Parser α) Q E c ↔ E ⟨problem, span⟩ := Iff.rfl

@[simp] theorem wp_check {Q : Bool → Cursor → Prop} {kind : Kind} :
    wp (check kind) Q E c ↔ Q (c.current.kind = kind) c := Iff.rfl

@[simp] theorem wp_expect {Q : Token → Cursor → Prop} {kind : Kind} :
    wp (expect kind) Q E c ↔
      if c.current.kind = kind then Q c.current c.next
      else E ⟨.expected kind c.current.kind, c.current.span⟩ := by
  by_cases h : c.current.kind = kind <;> simp [expect, h]

@[simp] theorem wp_tooDeep {Q : Expr → Cursor → Prop} :
    wp tooDeep Q E c ↔ E ⟨.nestedTooDeeply, c.current.span⟩ := Iff.rfl

@[simp] theorem wp_extensions_of_stops {Q : Expr → Cursor → Prop} {n : Nat} {above : Precedence} {left : Expr}
    (h : Stops above c.current.kind) : wp (extensions n above left) Q E c ↔ Q left c := by
  rw [extensions, wp_bind, wp_peek]
  cases hnext : c.current.kind.extension? with
  | none => rfl
  | some px =>
    obtain ⟨p, x⟩ := px
    simp only [if_pos (h p x hnext), wp_pure]

/-- One round of the loop over operators. -/
theorem wp_extensions_of_operator {Q : Expr → Cursor → Prop} {n : Nat} {above p : Precedence} {left : Expr}
    {x : Extension} (h : c.current.kind.extension? = some (p, x)) (hlt : above < p) :
    wp (extensions n above left) Q E c ↔
      match n with
      | 0 => E ⟨.nestedTooDeeply, c.current.span⟩
      | n + 1 => wp (extend (expression n) left p x) (fun e c' => wp (extensions n above e) Q E c') E c := by
  rw [extensions, wp_bind, wp_peek, h]
  simp only [if_neg (Nat.not_le.2 hlt)]
  cases n with
  | zero => rfl
  | succ n => rw [wp_bind]

theorem wp_items {Q : List Expr → Cursor → Prop} {item : Parser Expr} {separator close : Kind} :
    wp (items item separator close) Q E c ↔ wp (separated item separator close (c.rest.length + 1)) Q E c :=
  Iff.rfl

/-! ## Results -/

theorem bind_of_ok {p : Parser β} {f : β → Parser α} {c c' : Cursor} {b : β} (h : p c = .ok b c') :
    (p >>= f) c = f b c' := by
  simp only [bind, EStateM.bind, h]

theorem bind_of_error {p : Parser β} {f : β → Parser α} {c c' : Cursor} {e : ParseError} (h : p c = .error e c') :
    (p >>= f) c = .error e c' := by
  simp only [bind, EStateM.bind, h]

theorem statement_of_none {sub : Precedence → Parser Expr} {c : Cursor} (h : c.target? = none) :
    statement sub c = nested sub c := by
  have hget : (get : Parser Cursor) c = .ok c c := rfl
  rw [statement, bind_of_ok hget, h]

end Parser

end ClosureLang
