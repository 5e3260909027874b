import ClosureLang.Proofs.Reading
import ClosureLang.Scope.Resolver

/-!
# First tokens

Every node of a tree begins where one of its tokens does, and so does every error of the parser. An error of the
resolver has the span of a node, and tells no name but that of this node.

Nothing is assumed of the tokens but a property `T`, which the walk hands on: what begins, begins with such a token.
-/

namespace ClosureLang

open Token (Kind)

/-! ## Nodes -/

namespace Expr

/-- The nodes right below a node. -/
def parts : Expr → List Expr
  | number .. | name .. => []
  | call _ callee args => callee :: args
  | lambda _ params body _ _ => params ++ [body]
  | block _ statements => statements
  | assign _ _ value _ => [value]
  | cond _ test onTrue onFalse => [test, onTrue, onFalse]

/-- The first node is the second one or stands somewhere below it. -/
inductive Within : Expr → Expr → Prop where
  | self (e : Expr) : Within e e
  | part {node child e : Expr} (hchild : child ∈ e.parts) (h : Within node child) : Within node e

theorem span_labelled (e : Expr) (x : String) : (e.labelled x).span = e.span := by
  cases e <;> rfl

theorem parts_labelled (e : Expr) (x : String) : (e.labelled x).parts = e.parts := by
  cases e <;> rfl

end Expr

/-- The span has the line and the column of such a token. -/
def Span.Begins (T : Token → Prop) (s : Span) : Prop := ∃ t, T t ∧ s.line = t.span.line ∧ s.column = t.span.column

/-- So have the spans of all nodes of the tree. -/
def Expr.Begins (T : Token → Prop) (e : Expr) : Prop := ∀ node : Expr, node.Within e → node.span.Begins T

section Begins

variable {T : Token → Prop} {s : Span} {e : Expr}

theorem Span.begins_token {t : Token} (h : T t) : t.span.Begins T := ⟨t, h, rfl, rfl⟩

theorem Span.Begins.through (h : s.Begins T) (last : Span) : (s.through last).Begins T := h

namespace Expr.Begins

theorem node (hspan : e.span.Begins T) (hparts : ∀ child ∈ e.parts, child.Begins T) : e.Begins T := by
  intro node h
  cases h with
  | self => exact hspan
  | part hchild h => exact hparts _ hchild node h

theorem leaf (hspan : e.span.Begins T) (hparts : e.parts = []) : e.Begins T := by
  refine node hspan ?_
  rw [hparts]
  exact List.forall_mem_nil _

theorem span (h : e.Begins T) : e.span.Begins T := h e (.self e)

theorem parts (h : e.Begins T) : ∀ child ∈ e.parts, child.Begins T :=
  fun _ hchild node hnode => h node (.part hchild hnode)

theorem labelled (h : e.Begins T) (x : String) : (e.labelled x).Begins T := by
  apply node
  · rw [span_labelled]
    exact h.span
  · rw [parts_labelled]
    exact h.parts

end Expr.Begins

end Begins

/-! ## Reading -/

/-- The words that a reader can insist on. -/
def Parser.wanted : List Kind := [.equal, .rightParen, .rightBrace, .colon, .eof]

/-- A problem that shows a word has found this one. -/
def ParseProblem.About (found : Kind) : ParseProblem → Prop
  | noExpression k => k = found
  | expected w k => w ∈ Parser.wanted ∧ k = found
  | nestedTooDeeply | noProgram | endOfInput | missingArrow => True

/-- The error begins at such a token and is about it. -/
def ParseError.Begins (T : Token → Prop) (e : ParseError) : Prop :=
  ∃ t, T t ∧ e.span.line = t.span.line ∧ e.span.column = t.span.column ∧ e.problem.About t.kind

theorem ParseError.begins_token {T : Token → Prop} {t : Token} (h : T t) {problem : ParseProblem}
    (hproblem : problem.About t.kind) : Begins T ⟨problem, t.span⟩ := ⟨t, h, rfl, rfl, hproblem⟩

/-- All tokens that are left have the property. -/
def Cursor.All (T : Token → Prop) (c : Cursor) : Prop := ∀ t ∈ c.current :: c.rest, T t

theorem Cursor.All.current {T : Token → Prop} {c : Cursor} (h : c.All T) : T c.current := h _ (List.mem_cons_self ..)

theorem Cursor.All.next {T : Token → Prop} {c : Cursor} (h : c.All T) : c.next.All T := by
  unfold Cursor.next
  split
  · exact h
  · split
    · exact h
    · next hrest =>
      intro t ht
      refine h t (List.mem_cons_of_mem _ ?_)
      rw [hrest]
      exact ht

namespace Parser

variable {α β : Type} {T : Token → Prop} {R : α → Prop}

/-- From tokens with the property `T` the reader comes to a result with the property `R`, or to an error at one of the
tokens. -/
def Draws (T : Token → Prop) (p : Parser α) (R : α → Prop) : Prop :=
  ∀ c, c.All T → wp p (fun a c' => R a ∧ c'.All T) (·.Begins T) c

theorem draws_pure {a : α} (h : R a) : Draws T (pure a) R := fun _ hc => ⟨h, hc⟩

theorem draws_fail {problem : ParseProblem} {span : Span} (h : ParseError.Begins T ⟨problem, span⟩) :
    Draws T (fail problem span) R := fun _ _ => h

theorem draws_tooDeep {R : Expr → Prop} : Draws T tooDeep R := fun _ hc => ParseError.begins_token hc.current trivial

theorem draws_get : Draws T get fun _ => True := fun _ hc => ⟨trivial, hc⟩

theorem draws_peek : Draws T peek T := fun _ hc => ⟨hc.current, hc⟩

theorem draws_check (kind : Kind) : Draws T (check kind) fun _ => True := fun _ hc => ⟨trivial, hc⟩

theorem draws_advance : Draws T advance T := fun _ hc => ⟨hc.current, hc.next⟩

theorem draws_expect {kind : Kind} (h : kind ∈ wanted) : Draws T (expect kind) T := by
  intro c hc
  rw [wp_expect]
  split
  · exact ⟨hc.current, hc.next⟩
  · exact ParseError.begins_token hc.current ⟨h, rfl⟩

theorem Draws.bind {p : Parser β} {f : β → Parser α} {S : β → Prop} (hp : Draws T p S)
    (hf : ∀ b, S b → Draws T (f b) R) : Draws T (p >>= f) R := by
  intro c hc
  rw [wp_bind]
  exact wp_mono (hp c hc) (fun b c' ⟨hb, hc'⟩ => hf b hb c' hc') fun _ => id

/-- The reader finds trees that begin so. -/
abbrev DrawsTree (T : Token → Prop) (p : Parser Expr) : Prop := Draws T p (Expr.Begins T)

abbrev DrawsTrees (T : Token → Prop) (p : Parser (List Expr)) : Prop := Draws T p (∀ e ∈ ·, e.Begins T)

variable {sub : Precedence → Parser Expr} {start : Span}

theorem separated_draws {item : Parser Expr} {separator close : Kind} (hitem : DrawsTree T item) (rounds : Nat) :
    DrawsTrees T (separated item separator close rounds) := by
  induction rounds with
  | zero => exact draws_pure nofun
  | succ rounds ih =>
    refine draws_peek.bind fun next _ => ?_
    split
    · exact draws_pure nofun
    · refine hitem.bind fun first hfirst => ?_
      refine (draws_check separator).bind fun more _ => ?_
      split
      · refine draws_advance.bind fun _ _ => ?_
        refine ih.bind fun others hothers => ?_
        exact draws_pure (List.forall_mem_cons.2 ⟨hfirst, hothers⟩)
      · exact draws_pure (List.forall_mem_singleton.2 hfirst)

theorem items_draws {item : Parser Expr} {separator close : Kind} (hitem : DrawsTree T item) :
    DrawsTrees T (items item separator close) :=
  draws_get.bind fun _ _ => separated_draws hitem _

section Nested

variable (hsub : ∀ above, DrawsTree T (sub above))
include hsub

theorem statement_draws : DrawsTree T (statement sub) := by
  refine draws_get.bind fun c _ => ?_
  split
  · next x _ =>
    refine draws_advance.bind fun target htarget => ?_
    refine (draws_expect (by decide)).bind fun _ _ => ?_
    refine (hsub .lowest).bind fun value hvalue => ?_
    apply draws_pure
    apply Expr.Begins.node
    · exact (Span.begins_token htarget).through value.span
    · exact List.forall_mem_singleton.2 (hvalue.labelled x)
  · exact hsub .lowest

theorem lambda_draws {params : List Expr} (hparams : ∀ e ∈ params, e.Begins T) (hstart : start.Begins T) :
    DrawsTree T (lambda sub params start) := by
  refine (hsub .lowest).bind fun body hbody => ?_
  apply draws_pure
  apply Expr.Begins.node
  · exact hstart.through body.span
  · exact List.forall_mem_append.2 ⟨hparams, List.forall_mem_singleton.2 hbody⟩

theorem group_draws (hstart : start.Begins T) : DrawsTree T (group sub start) := by
  refine (items_draws (hsub .lowest)).bind fun inside hinside => ?_
  refine (draws_expect (by decide)).bind fun close _ => ?_
  refine (draws_check .arrow).bind fun arrow _ => ?_
  split
  · exact draws_advance.bind fun _ _ => lambda_draws hsub hinside hstart
  · split
    · exact draws_pure (List.forall_mem_singleton.1 hinside)
    · -- The list is blamed from its opening parenthesis on.
      obtain ⟨t, ht, hline, hcolumn⟩ := hstart.through close.span
      exact draws_fail ⟨t, ht, hline, hcolumn, trivial⟩

theorem unary_draws (function : String) (hstart : start.Begins T) : DrawsTree T (unary sub function start) := by
  refine (hsub .unary).bind fun operand hoperand => ?_
  apply draws_pure
  apply Expr.Begins.node
  · exact hstart.through operand.span
  · have hname : Expr.Begins T (.name start function none) := .leaf hstart rfl
    exact List.forall_mem_cons.2 ⟨hname, List.forall_mem_singleton.2 hoperand⟩

theorem block_draws (hstart : start.Begins T) : DrawsTree T (block sub start) := by
  refine (items_draws (statement_draws hsub)).bind fun statements hstatements => ?_
  refine (draws_expect (by decide)).bind fun close _ => ?_
  apply draws_pure
  apply Expr.Begins.node
  · exact hstart.through close.span
  · exact hstatements

theorem operand_draws : DrawsTree T (operand sub) := by
  refine draws_advance.bind fun token htoken => ?_
  have hspan := Span.begins_token htoken
  split
  · exact draws_pure (.leaf hspan rfl)
  · next x _ =>
    have hname : Expr.Begins T (.name token.span x none) := .leaf hspan rfl
    refine (draws_check .arrow).bind fun arrow _ => ?_
    split
    · exact draws_advance.bind fun _ _ => lambda_draws hsub (List.forall_mem_singleton.2 hname) hspan
    · exact draws_pure hname
  · exact unary_draws hsub _ hspan
  · exact unary_draws hsub _ hspan
  · exact group_draws hsub hspan
  · exact block_draws hsub hspan
  · exact draws_fail (ParseError.begins_token htoken trivial)
  · exact draws_fail (ParseError.begins_token htoken rfl)

/-- What is read after an operand makes a node that begins where the operand does. -/
theorem extend_draws {left : Expr} (hleft : left.Begins T) (p : Precedence) (x : Extension) :
    DrawsTree T (extend sub left p x) := by
  cases x with
  | arguments =>
    refine draws_advance.bind fun _ _ => ?_
    refine (items_draws (hsub .lowest)).bind fun args hargs => ?_
    refine (draws_expect (by decide)).bind fun close _ => ?_
    apply draws_pure
    apply Expr.Begins.node
    · exact hleft.span.through close.span
    · exact List.forall_mem_cons.2 ⟨hleft, hargs⟩
  | branches =>
    refine draws_advance.bind fun _ _ => ?_
    refine (hsub .lowest).bind fun onTrue hTrue => ?_
    refine (draws_expect (by decide)).bind fun _ _ => ?_
    refine (hsub .lowest).bind fun onFalse hFalse => ?_
    apply draws_pure
    apply Expr.Begins.node
    · exact hleft.span.through onFalse.span
    · exact List.forall_mem_cons.2 ⟨hleft, List.forall_mem_cons.2 ⟨hTrue, List.forall_mem_singleton.2 hFalse⟩⟩
  | operand function =>
    refine draws_advance.bind fun operator hoperator => ?_
    refine (hsub p).bind fun right hright => ?_
    apply draws_pure
    apply Expr.Begins.node
    · exact hleft.span.through right.span
    · have hname : Expr.Begins T (.name operator.span function none) := .leaf (Span.begins_token hoperator) rfl
      exact List.forall_mem_cons.2 ⟨hname, List.forall_mem_cons.2 ⟨hleft, List.forall_mem_singleton.2 hright⟩⟩

end Nested

theorem extensions_draws {n : Nat} (hsub : ∀ m < n, ∀ above, DrawsTree T (expression m above)) {left : Expr}
    (hleft : left.Begins T) (above : Precedence) : DrawsTree T (extensions n above left) := by
  induction n generalizing left with
  | zero =>
    rw [extensions]
    refine draws_peek.bind fun token _ => ?_
    split
    · exact draws_pure hleft
    · split
      · exact draws_pure hleft
      · exact draws_tooDeep
  | succ n ih =>
    rw [extensions]
    refine draws_peek.bind fun token _ => ?_
    split
    · exact draws_pure hleft
    · split
      · exact draws_pure hleft
      · refine (extend_draws (hsub n (Nat.lt_succ_self n)) hleft _ _).bind fun longer hlonger => ?_
        exact ih (fun m hm => hsub m (Nat.lt_succ_of_lt hm)) hlonger

theorem expression_draws (n : Nat) (above : Precedence) : DrawsTree T (expression n above) := by
  induction n using Nat.strongRecOn generalizing above with
  | ind n ih =>
    cases n with
    | zero =>
      rw [expression]
      exact draws_tooDeep
    | succ n =>
      rw [expression]
      refine (operand_draws (ih n (Nat.lt_succ_self n))).bind fun left hleft => ?_
      exact extensions_draws (fun m hm => ih m (Nat.lt_succ_of_lt hm)) hleft above

theorem program_draws : DrawsTree T program := by
  refine (items_draws (statement_draws (expression_draws maxLevels))).bind fun statements hstatements => ?_
  refine (draws_expect (by decide)).bind fun _ _ => ?_
  match statements, hstatements with
  | [], _ => exact draws_peek.bind fun _ htoken => draws_fail (ParseError.begins_token htoken trivial)
  | [e], h => exact draws_pure (List.forall_mem_singleton.1 h)
  | first :: second :: others, h =>
    apply draws_pure
    apply Expr.Begins.node
    · exact (h first (List.mem_cons_self ..)).span.through _
    · exact h

end Parser

namespace Expr

/-- The nodes of a tree begin with its tokens, and tokens without a tree are blamed at one of them. -/
theorem ofTokens_begins {tokens : List Token} {T : Token → Prop} (hne : tokens ≠ []) (hT : ∀ t ∈ tokens, T t) :
    match ofTokens tokens with
    | .ok e => e.Begins T
    | .error error => error.Begins T := by
  cases tokens with
  | nil => exact absurd rfl hne
  | cons t ts =>
    have hc : Cursor.All T ⟨t, ts⟩ := hT
    have hprogram := Parser.program_draws _ hc
    unfold ofTokens
    dsimp only [Cursor.ofTokens?]
    unfold Parser.wp at hprogram
    split at hprogram
    · next hok =>
      rw [hok]
      exact hprogram.1
    · next herror =>
      rw [herror]
      exact hprogram

end Expr

/-! ## Resolving -/

/-- The name that a node itself reads or assigns. -/
def Expr.ownName? : Expr → Option String
  | name _ x _ => some x
  | assign _ x _ _ => some x
  | _ => none

/-- A problem that shows a name or a node shows that of this one. -/
def ResolveProblem.About (node : Expr) : ResolveProblem → Prop
  | undefined x | usedBeforeAssignment x | assignmentOutsideBlock x | duplicateParameter x | assignedTwice x =>
    node.ownName? = some x
  | parameterNotName found => found = node
  | blockWithoutResult | strayExpression => True

/-- The error has the span of the node and is about it. -/
structure ResolveError.About (error : ResolveError) (node : Expr) : Prop where
  span : error.span = node.span
  problem : error.problem.About node

namespace Resolution

variable {α β : Type} {E : ResolveError → Prop} {step : Resolution α}

/-- An error, if there is one, has the property. -/
def Fails (E : ResolveError → Prop) : Resolution α → Prop
  | done _ _ => True
  | failed _ error _ => E error

theorem Fails.map (h : step.Fails E) (f : α → β) : (step.map f).Fails E := by
  cases step with
  | done => trivial
  | failed => exact h

theorem Fails.andThen (h : step.Fails E) {rest : α → β} {next : α → Resolver → Resolution β}
    (hnext : ∀ tree r, (next tree r).Fails E) : (step.andThen rest next).Fails E := by
  cases step with
  | done tree r => exact hnext tree r
  | failed => exact h

end Resolution

namespace Resolver

variable {error : ResolveError}

theorem search_about {globals : List String} {x : String} {inner : Option Frame} {crossed : List Nat}
    {frames : List Frame} {problem : ResolveProblem} (h : search globals x inner crossed frames = .error problem)
    (span : Span) (var : Option Var) : problem.About (.name span x var) := by
  induction frames generalizing inner crossed with
  | nil =>
    rw [search] at h
    split at h
    · cases h
    · cases h
      rfl
  | cons frame outer ih =>
    cases frame with
    | lambda id params binding =>
      rw [search] at h
      split at h
      · cases h
      · exact ih h
    | block owner locals =>
      rw [search] at h
      split at h
      · exact ih h
      · split at h
        · cases h
        · split at h
          · cases h
          · cases h
            rfl
        · cases h
          rfl

theorem lookup_about {r : Resolver} {x : String} {problem : ResolveProblem} (h : r.lookup x = .error problem)
    (span : Span) (var : Option Var) : problem.About (.name span x var) := by
  unfold lookup at h
  split at h
  · next hsearch =>
    cases h
    exact search_about hsearch span var
  · cases h

theorem bindParams_about {params : List Expr} {index : Nat} {seen : List String}
    (h : (bindParams index seen params).2 = .error error) : ∃ e ∈ params, error.About e := by
  induction params generalizing index seen with
  | nil => cases h
  | cons e params ih =>
    cases e with
    | name span x var =>
      rw [bindParams] at h
      split at h
      · cases h
        exact ⟨_, List.mem_cons_self .., rfl, rfl⟩
      · obtain ⟨e, he, habout⟩ := ih h
        exact ⟨e, List.mem_cons_of_mem _ he, habout⟩
    | number | call | lambda | block | assign | cond =>
      cases h
      exact ⟨_, List.mem_cons_self .., rfl, rfl⟩

theorem declare_about {statements : List Expr} {r : Resolver} {declared : List BlockLocal}
    (h : (r.declare declared statements).2 = .error error) : ∃ e ∈ statements, error.About e := by
  induction statements generalizing r declared with
  | nil => cases h
  | cons e statements ih =>
    cases e with
    | assign span x value var =>
      rw [declare] at h
      split at h
      · cases h
        exact ⟨_, List.mem_cons_self .., rfl, rfl⟩
      · obtain ⟨e, he, habout⟩ := ih h
        exact ⟨e, List.mem_cons_of_mem _ he, habout⟩
    | number | name | call | lambda | block | cond =>
      cases h
      exact ⟨_, List.mem_cons_self .., rfl, trivial⟩

/-- The form of a block is blamed on the block or on one of its statements. -/
theorem openBlock_about {r : Resolver} {span : Span} {statements : List Expr}
    (h : (r.openBlock span statements).2 = some error) :
    error.About (.block span statements) ∨ ∃ e ∈ statements, error.About e := by
  unfold openBlock at h
  split at h
  · cases h
    exact .inl ⟨rfl, trivial⟩
  · next hlast =>
    cases h
    exact .inr ⟨_, List.mem_of_getLast? hlast, rfl, trivial⟩
  · split at h
    · next hdeclare =>
      cases h
      obtain ⟨e, he, habout⟩ := declare_about (congrArg Prod.snd hdeclare)
      exact .inr ⟨e, List.dropLast_subset _ he, habout⟩
    · cases h

end Resolver

namespace Expr

open Resolver

variable {E : ResolveError → Prop}

/-- Errors about any node of the tree have the property. -/
def Blamed (E : ResolveError → Prop) (e : Expr) : Prop :=
  ∀ node error, Within node e → error.About node → E error

theorem Blamed.own {e : Expr} (h : e.Blamed E) {error : ResolveError} (hspan : error.span = e.span)
    (hproblem : error.problem.About e) : E error := h e error (.self e) ⟨hspan, hproblem⟩

theorem Blamed.parts {e : Expr} (h : e.Blamed E) : ∀ child ∈ e.parts, child.Blamed E :=
  fun _ hchild node error hnode => h node error (.part hchild hnode)

mutual

/-- Errors are about nodes. -/
theorem resolve_fails (e : Expr) (h : e.Blamed E) (binding : Option String) (r : Resolver) :
    (e.resolve binding r).Fails E := by
  cases e with
  | number => trivial
  | name span x var =>
    rw [resolve]
    split
    · trivial
    · next hlookup => exact h.own rfl (lookup_about hlookup span var)
  | call span callee args =>
    obtain ⟨hcallee, hargs⟩ := List.forall_mem_cons.1 h.parts
    rw [resolve]
    exact (resolve_fails callee hcallee none r).andThen fun _ r => (resolveAll_fails args hargs r).map _
  | lambda span params body frame label =>
    obtain ⟨hparams, hbody⟩ := List.forall_mem_append.1 h.parts
    rw [resolve]
    split
    · next hbind =>
      obtain ⟨param, hparam, habout⟩ := bindParams_about (congrArg Prod.snd hbind)
      exact (hparams param hparam).own habout.span habout.problem
    · exact (resolve_fails body (hbody body (List.mem_singleton_self _)) none _).andThen fun _ _ => trivial
  | block span statements =>
    have hstatements := h.parts
    rw [resolve]
    split
    · next hopen =>
      rcases openBlock_about (congrArg Prod.snd hopen) with habout | ⟨statement, hstatement, habout⟩
      · exact h.own habout.span habout.problem
      · exact (hstatements statement hstatement).own habout.span habout.problem
    · exact (resolveStatements_fails statements hstatements _).andThen fun _ _ => trivial
  | assign => exact h.own rfl rfl
  | cond span test onTrue onFalse =>
    obtain ⟨htest, hbranches⟩ := List.forall_mem_cons.1 h.parts
    obtain ⟨hTrue, hFalse⟩ := List.forall_mem_cons.1 hbranches
    rw [resolve]
    refine (resolve_fails test htest none r).andThen fun _ r => ?_
    refine (resolve_fails onTrue hTrue none r).andThen fun _ r => ?_
    exact (resolve_fails onFalse (hFalse _ (List.mem_singleton_self _)) none r).map _

theorem resolveAll_fails (es : List Expr) (h : ∀ e ∈ es, e.Blamed E) (r : Resolver) : (resolveAll es r).Fails E := by
  cases es with
  | nil => trivial
  | cons e es =>
    obtain ⟨he, hes⟩ := List.forall_mem_cons.1 h
    rw [resolveAll]
    exact (resolve_fails e he none r).andThen fun _ r => (resolveAll_fails es hes r).map _

theorem resolveStatements_fails (es : List Expr) (h : ∀ e ∈ es, e.Blamed E) (r : Resolver) :
    (resolveStatements es r).Fails E := by
  match es with
  | [] => trivial
  | e :: es =>
    obtain ⟨he, hes⟩ := List.forall_mem_cons.1 h
    cases e with
    | assign span x value var =>
      have hvalue := he.parts value (List.mem_singleton_self _)
      rw [resolveStatements]
      exact (resolve_fails value hvalue _ _).andThen fun _ r => (resolveStatements_fails es hes _).map _
    | number | name | call | lambda | block | cond =>
      rw [resolveStatements]
      · exact (resolve_fails _ he none r).andThen fun _ r => (resolveStatements_fails es hes r).map _
      · exact nofun

end

theorem program_fails {e : Expr} (h : e.Blamed E) (r : Resolver) : (r.program e).Fails E :=
  (resolve_fails e h none _).andThen fun _ _ => trivial

end Expr

end ClosureLang
