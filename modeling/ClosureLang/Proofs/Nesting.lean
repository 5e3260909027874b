import ClosureLang.Proofs.Completeness

/-!
# How deep trees are

Every operand and every extension takes a level, but what stands between parentheses or braces, or after a sign, gives
its levels back: the operators after it count from the level where it began. A tree that was read with `n` levels is
therefore not at most `n` deep. Its greatest depth is `1 + 2 + … + n`, and the towers at the end of this module are
that deep.
-/

namespace ClosureLang

open Token (Kind)

namespace Expr

mutual

/-- The most calls, lambdas, blocks and conditions on a path from the root to a leaf. -/
def height : Expr → Nat
  | number .. | name .. => 0
  | call _ callee args => max callee.height (heightAll args) + 1
  | lambda _ params body _ _ => max (heightAll params) body.height + 1
  | block _ statements => heightAll statements + 1
  | assign _ _ value _ => value.height
  | cond _ test onTrue onFalse => max test.height (max onTrue.height onFalse.height) + 1

def heightAll : List Expr → Nat
  | [] => 0
  | e :: es => max e.height (heightAll es)

end

@[simp] theorem height_labelled (e : Expr) (x : String) : (e.labelled x).height = e.height := by
  cases e <;> rfl

theorem height_le_heightAll {e : Expr} {es : List Expr} (h : e ∈ es) : e.height ≤ heightAll es := by
  induction h with
  | head es => exact Nat.le_max_left _ _
  | tail _ _ ih => exact Nat.le_trans ih (Nat.le_max_right _ _)

/-- The tree of a program with these statements: the only one stands for itself, several are a block. -/
inductive IsProgramOf : Expr → List Expr → Prop where
  | single {e : Expr} : IsProgramOf e [e]
  | several {span : Span} {first second : Expr} {others : List Expr} :
      IsProgramOf (.block span (first :: second :: others)) (first :: second :: others)

/-- The statements that some tokens spell, before they are put together. -/
def statementsOfTokens (tokens : List Token) : Except ParseError (List Expr) :=
  match Cursor.ofTokens? tokens with
  | none => .error ⟨.noProgram, .unknown⟩
  | some c =>
    match Parser.items (Parser.statement (Parser.expression Parser.maxLevels)) .semicolon .eof c with
    | .ok statements _ => .ok statements
    | .error e _ => .error e

end Expr

namespace Parser

/-! ## Results -/

section Gives

variable {α β : Type} {P P' : α → Prop}

/-- Wherever the reader comes to a result, the result has the property. -/
def Gives (p : Parser α) (P : α → Prop) : Prop := ∀ c, wp p (fun a _ => P a) (fun _ => True) c

theorem wp_of_ok {p : Parser α} {Q : α → Cursor → Prop} {E : ParseError → Prop} {c c' : Cursor} {a : α}
    (h : p c = .ok a c') : wp p Q E c ↔ Q a c' := by
  rw [wp, h]

theorem exists_ok_of_wp {p : Parser α} {Q : α → Cursor → Prop} {c : Cursor} (h : wp p Q (fun _ => False) c) :
    ∃ a c', p c = .ok a c' ∧ Q a c' := by
  unfold wp at h
  split at h
  · next a c' hp => exact ⟨a, c', hp, h⟩
  · cases h

/-- A result of a reader is one. -/
theorem wp_self (p : Parser α) (c : Cursor) : wp p (fun a c' => p c = .ok a c') (fun _ => True) c := by
  unfold wp
  split
  · next h => exact h
  · trivial

theorem Gives.mono {p : Parser α} (h : Gives p P) (hP : ∀ a, P a → P' a) : Gives p P' :=
  fun c => wp_mono (h c) (fun a _ => hP a) fun _ h => h

theorem gives_true (p : Parser α) : Gives p fun _ => True := by
  intro c
  unfold wp
  split <;> trivial

theorem gives_pure {a : α} (h : P a) : Gives (pure a) P := fun _ => h

theorem gives_fail {problem : ParseProblem} {span : Span} : Gives (fail problem span) P := fun _ => trivial

theorem gives_tooDeep {P : Expr → Prop} : Gives tooDeep P := fun _ => trivial

theorem Gives.bind {p : Parser β} {f : β → Parser α} {R : β → Prop} (hp : Gives p R)
    (hf : ∀ b, R b → Gives (f b) P) : Gives (p >>= f) P := by
  intro c
  rw [wp_bind]
  exact wp_mono (hp c) (fun b c' hb => hf b hb c') fun _ h => h

/-- A reader whose result plays no part. -/
theorem gives_after {p : Parser β} {f : β → Parser α} (hf : ∀ b, Gives (f b) P) : Gives (p >>= f) P :=
  (gives_true p).bind fun b _ => hf b

end Gives

/-! ## The bound -/

section Bound

variable {sub : Precedence → Parser Expr} {h : Nat}

/-- Nested expressions are at most this high. -/
def SubBelow (sub : Precedence → Parser Expr) (h : Nat) : Prop := ∀ above, Gives (sub above) (·.height ≤ h)

theorem separated_below {item : Parser Expr} {separator close : Kind} (hitem : Gives item (·.height ≤ h))
    (rounds : Nat) : Gives (separated item separator close rounds) (Expr.heightAll · ≤ h) := by
  induction rounds with
  | zero => exact gives_pure (Nat.zero_le _)
  | succ rounds ih =>
    refine gives_after fun next => ?_
    split
    · exact gives_pure (Nat.zero_le _)
    · refine hitem.bind fun first hfirst => ?_
      refine gives_after fun more => ?_
      split
      · refine gives_after fun _ => ?_
        refine ih.bind fun others hothers => ?_
        exact gives_pure (Nat.max_le.2 ⟨hfirst, hothers⟩)
      · exact gives_pure (Nat.max_le.2 ⟨hfirst, Nat.zero_le _⟩)

theorem items_below {item : Parser Expr} {separator close : Kind} (hitem : Gives item (·.height ≤ h)) :
    Gives (items item separator close) (Expr.heightAll · ≤ h) :=
  gives_after fun _ => separated_below hitem _

theorem statement_below (hsub : SubBelow sub h) : Gives (statement sub) (·.height ≤ h) := by
  refine gives_after fun c => ?_
  split
  · refine gives_after fun _ => ?_
    refine gives_after fun _ => ?_
    refine (hsub .lowest).bind fun value hvalue => ?_
    refine gives_pure ?_
    rw [Expr.height, Expr.height_labelled]
    exact hvalue
  · exact hsub .lowest

theorem lambda_below (hsub : SubBelow sub h) {params : List Expr} (hparams : Expr.heightAll params ≤ h)
    (start : Span) : Gives (lambda sub params start) (·.height ≤ h + 1) := by
  refine (hsub .lowest).bind fun body hbody => ?_
  exact gives_pure (Nat.succ_le_succ (Nat.max_le.2 ⟨hparams, hbody⟩))

theorem group_below (hsub : SubBelow sub h) (start : Span) : Gives (group sub start) (·.height ≤ h + 1) := by
  refine (items_below (hsub .lowest)).bind fun inside hinside => ?_
  refine gives_after fun _ => ?_
  refine gives_after fun arrow => ?_
  split
  · exact gives_after fun _ => lambda_below hsub hinside start
  · split
    · next e =>
      have he : e.height ≤ h := Nat.le_trans (Nat.le_max_left _ _) hinside
      exact gives_pure (Nat.le_succ_of_le he)
    · exact gives_fail

theorem unary_below (hsub : SubBelow sub h) (function : String) (operator : Span) :
    Gives (unary sub function operator) (·.height ≤ h + 1) := by
  refine (hsub .unary).bind fun operand hoperand => ?_
  refine gives_pure (Nat.succ_le_succ ?_)
  simpa [Expr.height, Expr.heightAll] using hoperand

theorem block_below (hsub : SubBelow sub h) (start : Span) : Gives (block sub start) (·.height ≤ h + 1) := by
  refine (items_below (statement_below hsub)).bind fun statements hstatements => ?_
  exact gives_after fun _ => gives_pure (Nat.succ_le_succ hstatements)

/-- An operand adds one node to what is nested in it. -/
theorem operand_below (hsub : SubBelow sub h) : Gives (operand sub) (·.height ≤ h + 1) := by
  refine gives_after fun token => ?_
  split
  · exact gives_pure (Nat.zero_le _)
  · refine gives_after fun arrow => ?_
    split
    · exact gives_after fun _ => lambda_below hsub (Nat.zero_le _) _
    · exact gives_pure (Nat.zero_le _)
  · exact unary_below hsub _ _
  · exact unary_below hsub _ _
  · exact group_below hsub _
  · exact block_below hsub _
  · exact gives_fail
  · exact gives_fail

/-- An extension adds one node to the operand on its left and to what is nested in it. -/
theorem extend_below (hsub : SubBelow sub h) {left : Expr} (hleft : left.height ≤ h) (p : Precedence) (x : Extension) :
    Gives (extend sub left p x) (·.height ≤ h + 1) := by
  cases x with
  | arguments =>
    refine gives_after fun _ => ?_
    refine (items_below (hsub .lowest)).bind fun args hargs => ?_
    exact gives_after fun _ => gives_pure (Nat.succ_le_succ (Nat.max_le.2 ⟨hleft, hargs⟩))
  | branches =>
    refine gives_after fun _ => ?_
    refine (hsub .lowest).bind fun onTrue hTrue => ?_
    refine gives_after fun _ => ?_
    refine (hsub .lowest).bind fun onFalse hFalse => ?_
    exact gives_pure (Nat.succ_le_succ (Nat.max_le.2 ⟨hleft, Nat.max_le.2 ⟨hTrue, hFalse⟩⟩))
  | operand function =>
    refine gives_after fun _ => ?_
    refine (hsub p).bind fun right hright => ?_
    refine gives_pure (Nat.succ_le_succ ?_)
    simp only [Expr.height, Expr.heightAll]
    omega

/-- The loop over operators adds one node for each of its levels. -/
theorem extensions_below {n : Nat} (hsub : ∀ m < n, SubBelow (expression m) h) {left : Expr} (hleft : left.height ≤ h)
    (above : Precedence) : Gives (extensions n above left) (·.height ≤ h + n) := by
  induction n using Nat.strongRecOn generalizing left h with
  | ind n ih =>
    rw [extensions]
    refine gives_after fun token => ?_
    split
    · exact gives_pure (Nat.le_add_right_of_le hleft)
    · split
      · exact gives_pure (Nat.le_add_right_of_le hleft)
      · cases n with
        | zero => exact gives_tooDeep
        | succ n =>
          -- The operand may be one higher then, and there is one level less: the sum stays.
          refine (extend_below (hsub n (Nat.lt_succ_self n)) hleft _ _).bind fun longer hlonger => ?_
          have hsub' (m : Nat) (hm : m < n) : SubBelow (expression m) (h + 1) := fun above =>
            (hsub m (Nat.lt_succ_of_lt hm) above).mono fun _ he => Nat.le_succ_of_le he
          refine (ih n (Nat.lt_succ_self n) hsub' hlonger).mono fun e he => ?_
          omega

/-- The greatest height of what is read with so many levels: an operand on top of what is nested in it, and then an
extension for each level that is left. -/
def maxHeight : (levels : Nat) → Nat
  | 0 => 0
  | levels + 1 => maxHeight levels + 1 + levels

theorem two_mul_maxHeight (n : Nat) : 2 * maxHeight n = n * (n + 1) := by
  induction n with
  | zero => rfl
  | succ n ih =>
    calc 2 * maxHeight (n + 1) = 2 * maxHeight n + 2 * (n + 1) := by rw [maxHeight]; omega
      _ = n * (n + 1) + 2 * (n + 1) := by rw [ih]
      _ = (n + 1) * (n + 1 + 1) := by rw [← Nat.add_mul, Nat.mul_comm]

theorem maxHeight_mono {m n : Nat} (hle : m ≤ n) : maxHeight m ≤ maxHeight n := by
  induction hle with
  | refl => exact Nat.le_refl _
  | step _ ih => exact Nat.le_trans ih (by rw [maxHeight]; omega)

theorem expression_below (n : Nat) : SubBelow (expression n) (maxHeight n) := by
  induction n using Nat.strongRecOn with
  | ind n ih =>
    intro above
    cases n with
    | zero => exact gives_tooDeep
    | succ n =>
      rw [expression]
      refine (operand_below (ih n (Nat.lt_succ_self n))).bind fun left hleft => ?_
      refine extensions_below (fun m hm above => ?_) hleft above
      refine (ih m (Nat.lt_succ_of_lt hm) above).mono fun e he => ?_
      exact Nat.le_succ_of_le (Nat.le_trans he (maxHeight_mono (Nat.le_of_lt hm)))

theorem statements_below {tokens : List Token} {statements : List Expr}
    (hstatements : Expr.statementsOfTokens tokens = .ok statements) :
    Expr.heightAll statements ≤ maxHeight maxLevels := by
  unfold Expr.statementsOfTokens at hstatements
  split at hstatements
  · cases hstatements
  · next c _ =>
    split at hstatements
    · next hitems =>
      cases hstatements
      have hbelow : Gives (items (statement (expression maxLevels)) .semicolon .eof)
          (Expr.heightAll · ≤ maxHeight maxLevels) := items_below (statement_below (expression_below maxLevels))
      have hle := wp_ok (hbelow c) hitems
      exact hle
    · cases hstatements

end Bound

/-- A tree that was read is put together from the statements. -/
theorem isProgramOf_of_ok {tokens : List Token} {e : Expr} (h : Expr.ofTokens tokens = .ok e) :
    ∃ statements, Expr.statementsOfTokens tokens = .ok statements ∧ e.IsProgramOf statements := by
  unfold Expr.ofTokens at h
  unfold Expr.statementsOfTokens
  cases hc : Cursor.ofTokens? tokens with
  | none =>
    rw [hc] at h
    cases h
  | some c =>
    rw [hc] at h
    dsimp only at h ⊢
    have hprogram : wp program (fun e _ => ∃ statements c', items (statement (expression maxLevels)) .semicolon .eof c =
        .ok statements c' ∧ e.IsProgramOf statements) (fun _ => True) c := by
      rw [program, wp_bind]
      refine wp_mono (wp_self _ c) ?_ fun _ _ => trivial
      intro statements c' hitems
      rw [wp_bind, wp_expect]
      split
      · rcases statements with - | ⟨first, - | ⟨second, others⟩⟩
        · trivial
        · exact ⟨_, _, hitems, .single⟩
        · exact ⟨_, _, hitems, .several⟩
      · trivial
    split at h
    · next hok =>
      cases h
      obtain ⟨statements, c', hitems, he⟩ := wp_ok hprogram hok
      exact ⟨statements, by rw [hitems], he⟩
    · cases h

/-! ## Towers -/

section Lists

variable {Q : List Expr → Cursor → Prop} {E : ParseError → Prop} {item : Parser Expr} {separator close : Kind}
  {c : Cursor}

theorem wp_items_of_close (hc : c.current.kind = close) (hQ : Q [] c) : wp (items item separator close) Q E c := by
  rw [wp_items, separated, wp_bind, wp_peek, if_pos (.inl hc)]
  exact hQ

theorem wp_items_of_one (hclose : c.current.kind ≠ close) (heof : c.current.kind ≠ .eof)
    (h : wp item (fun e c' => c'.current.kind ≠ separator ∧ Q [e] c') E c) : wp (items item separator close) Q E c := by
  rw [wp_items, separated, wp_bind, wp_peek, if_neg (not_or.2 ⟨hclose, heof⟩), wp_bind]
  refine wp_mono h ?_ fun _ h => h
  rintro e c' ⟨hseparator, hQ⟩
  rw [wp_bind, wp_check]
  simp only [hseparator, decide_false, Bool.false_eq_true, if_false]
  exact hQ

end Lists

section Towers

variable {stop : Token} {later : List Token} {rest : List Token.Proper}

/-- A word without a place. -/
def bare (kind : Kind) (h : kind ≠ .eof) : Token.Proper := ⟨⟨kind, .unknown⟩, h⟩

theorem wp_expect_bare {Q : Token → Cursor → Prop} {E : ParseError → Prop} {kind : Kind} {h : kind ≠ .eof} :
    wp (expect kind) Q E (.before (bare kind h :: rest) stop later) ↔
      Q (bare kind h).val (.before rest stop later) := by
  have hkind : (bare kind h).val.kind = kind := rfl
  rw [wp_expect, Cursor.current_before_cons, if_pos hkind, Cursor.next_before_cons]

/-- So many calls without arguments, one after the other. -/
def calls : Nat → List Token.Proper
  | 0 => []
  | k + 1 => bare .leftParen nofun :: bare .rightParen nofun :: calls k

/-- Blocks in one another, each of them called so many times, from the outermost to the innermost. -/
def tower : List Nat → List Token.Proper
  | [] => []
  | k :: ks => bare .leftBrace nofun :: (tower ks ++ bare .rightBrace nofun :: calls k)

/-- One node for each block and for each call. -/
def towerHeight : List Nat → Nat
  | [] => 0
  | k :: ks => towerHeight ks + 1 + k

/-- The calls of each block fit in the levels that are left for them. -/
def Fits : (levels : Nat) → List Nat → Prop
  | _, [] => True
  | 0, _ :: _ => False
  | levels + 1, k :: ks => k ≤ levels ∧ Fits levels ks

/-- Each call takes a level and adds a node. -/
theorem extensions_calls {n k : Nat} (hk : k ≤ n) {above : Precedence} (habove : above < .call)
    (hstops : Grammar.Stops above (Cursor.before rest stop later).current.kind) (left : Expr) :
    wp (extensions n above left) (fun e c => e.height = left.height + k ∧ c = .before rest stop later)
      (fun _ => False) (.before (calls k ++ rest) stop later) := by
  induction k generalizing n left with
  | zero =>
    rw [calls, List.nil_append, wp_extensions_of_stops hstops]
    exact ⟨rfl, rfl⟩
  | succ k ih =>
    obtain ⟨n, rfl⟩ : ∃ m, n = m + 1 := ⟨n - 1, by omega⟩
    rw [calls, List.cons_append, List.cons_append, wp_extensions_of_operator (x := .arguments) rfl habove]
    dsimp only
    rw [extend, wp_bind, wp_advance, Cursor.next_before_cons, wp_bind]
    refine wp_items_of_close rfl ?_
    rw [wp_bind, wp_expect_bare, wp_pure]
    refine wp_mono (ih (Nat.le_of_succ_le_succ hk) _) ?_ fun _ h => h
    rintro e c ⟨he, rfl⟩
    refine ⟨?_, rfl⟩
    rw [he, Expr.height, Expr.heightAll]
    omega

/-- The calls of a block have all levels again that the block did not need. -/
theorem expression_block {levels k h : Nat} (ws : List Token.Proper) (hk : k ≤ levels)
    (hstops : Grammar.Stops .lowest (Cursor.before rest stop later).current.kind)
    (hstatements : wp (items (statement (expression levels)) .semicolon .rightBrace)
      (fun es c => Expr.heightAll es = h ∧ c = .before (bare .rightBrace nofun :: (calls k ++ rest)) stop later)
      (fun _ => False) (.before (ws ++ bare .rightBrace nofun :: (calls k ++ rest)) stop later)) :
    wp (expression (levels + 1) .lowest) (fun e c => e.height = h + 1 + k ∧ c = .before rest stop later)
      (fun _ => False)
      (.before (bare .leftBrace nofun :: (ws ++ bare .rightBrace nofun :: (calls k ++ rest))) stop later) := by
  rw [expression, wp_bind, operand, wp_bind, wp_advance, Cursor.next_before_cons, Cursor.current_before_cons]
  refine wp_bind.2 (wp_mono hstatements ?_ fun _ h => h)
  rintro statements c ⟨hheight, rfl⟩
  rw [wp_bind, wp_expect_bare, wp_pure]
  refine wp_mono (extensions_calls hk (by decide) hstops _) ?_ fun _ h => h
  rintro e c ⟨he, rfl⟩
  exact ⟨by rw [he, Expr.height, hheight], rfl⟩

/-- A tower that fits is read as it stands. -/
theorem statement_tower {levels k : Nat} {ks : List Nat} (hfits : Fits levels (k :: ks))
    (hstops : Grammar.Stops .lowest (Cursor.before rest stop later).current.kind) :
    wp (statement (expression levels)) (fun e c => e.height = towerHeight (k :: ks) ∧ c = .before rest stop later)
      (fun _ => False) (.before (tower (k :: ks) ++ rest) stop later) := by
  -- No statement that begins with a brace is an assignment.
  change wp (expression levels .lowest) _ _ _
  induction ks generalizing levels k rest with
  | nil =>
    match levels, hfits with
    | levels + 1, ⟨hk, _⟩ => exact expression_block [] hk hstops (wp_items_of_close rfl ⟨rfl, rfl⟩)
  | cons k' ks ih =>
    match levels, hfits with
    | levels + 1, ⟨hk, hks⟩ =>
      rw [tower, List.cons_append, List.append_assoc, List.cons_append]
      refine expression_block _ hk hstops (wp_items_of_one nofun nofun ?_)
      refine wp_mono (p := statement (expression levels)) (ih hks (Grammar.stops_of_none rfl)) ?_ fun _ h => h
      rintro e c ⟨he, rfl⟩
      exact ⟨nofun, by rw [Expr.heightAll, he, Expr.heightAll, Nat.max_zero], rfl⟩

/-- A tower that fits is a program with one statement. -/
theorem ofTokens_tower (stop : Token) {k : Nat} {ks : List Nat} (hfits : Fits maxLevels (k :: ks))
    (hstop : stop.kind = .eof) :
    ∃ e, Expr.ofTokens ((tower (k :: ks)).map (·.val) ++ [stop]) = .ok e ∧
      Expr.statementsOfTokens ((tower (k :: ks)).map (·.val) ++ [stop]) = .ok [e] ∧
      e.height = towerHeight (k :: ks) := by
  have hstops : Grammar.Stops .lowest (Cursor.before [] stop []).current.kind :=
    Grammar.stops_of_none (by rw [Cursor.current_before_nil, hstop]; rfl)
  have hstatement := statement_tower hfits hstops
  rw [List.append_nil] at hstatement
  have hitems : wp (items (statement (expression maxLevels)) .semicolon .eof)
      (fun es c => ∃ e, es = [e] ∧ e.height = towerHeight (k :: ks) ∧ c = .before [] stop []) (fun _ => False)
      (.before (tower (k :: ks)) stop []) := by
    refine wp_items_of_one nofun nofun (wp_mono hstatement ?_ fun _ h => h)
    rintro e c ⟨he, rfl⟩
    exact ⟨by simp [hstop], e, rfl, he, rfl⟩
  obtain ⟨_, _, hok, e, rfl, he, rfl⟩ := exists_ok_of_wp hitems
  have hprogram : wp program (fun e' _ => e' = e) (fun _ => False) (.before (tower (k :: ks)) stop []) := by
    rw [program, wp_bind, wp_of_ok hok, wp_bind, wp_expect, Cursor.current_before_nil, if_pos hstop]
    rfl
  refine ⟨e, ?_, ?_, he⟩
  · rcases ofTokens_outcome hprogram with ⟨_, _, hparsed, rfl⟩ | ⟨_, _, h⟩
    · exact hparsed
    · cases h
  · rw [Expr.statementsOfTokens, Cursor.ofTokens?_before]
    dsimp only
    rw [hok]

/-- The tower of the greatest height. -/
def highest : Nat → List Nat
  | 0 => []
  | n + 1 => n :: highest n

theorem fits_highest (n : Nat) : Fits n (highest n) := by
  induction n with
  | zero => trivial
  | succ n ih => exact ⟨Nat.le_refl n, ih⟩

theorem towerHeight_highest (n : Nat) : towerHeight (highest n) = maxHeight n := by
  induction n with
  | zero => rfl
  | succ n ih => rw [highest, towerHeight, ih, maxHeight]

end Towers

/-- No statement of a program is higher than all levels together, the implicit block around several of them apart, and
no smaller bound holds. -/
theorem height_le_iff (n : Nat) :
    (∀ (tokens : List Token) (stop : Token) (e : Expr), stop.kind = .eof → Expr.ofTokens (tokens ++ [stop]) = .ok e →
      ∃ statements, Expr.statementsOfTokens (tokens ++ [stop]) = .ok statements ∧ e.IsProgramOf statements ∧
        ∀ s ∈ statements, s.height ≤ n) ↔ maxLevels * (maxLevels + 1) / 2 ≤ n := by
  have hmax : maxLevels * (maxLevels + 1) / 2 = maxHeight maxLevels := by
    rw [← two_mul_maxHeight, Nat.mul_div_cancel_left _ (by decide)]
  rw [hmax]
  constructor
  · -- The highest tower is accepted, and is as high as the bound allows.
    intro hbound
    obtain ⟨e, hparsed, hstatements, hheight⟩ := ofTokens_tower ⟨.eof, .unknown⟩ (fits_highest 1000) rfl
    obtain ⟨statements, hstatements', -, hle⟩ := hbound _ _ e rfl hparsed
    cases hstatements.symm.trans hstatements'
    calc maxHeight maxLevels = towerHeight (highest maxLevels) := (towerHeight_highest _).symm
      _ = e.height := hheight.symm
      _ ≤ n := hle e (List.mem_singleton.2 rfl)
  · intro hle tokens stop e _ hparsed
    obtain ⟨statements, hstatements, he⟩ := isProgramOf_of_ok hparsed
    refine ⟨statements, hstatements, he, fun s hs => ?_⟩
    exact Nat.le_trans (Expr.height_le_heightAll hs) (Nat.le_trans (statements_below hstatements) hle)

/-- A block that is called once, around a block that is called 998 times, is a program of more than a thousand nodes
on a path. -/
theorem height_gt_maxLevels : ∃ e,
    Expr.ofTokens ((tower [1, 998]).map (·.val) ++ [⟨.eof, .unknown⟩]) = .ok e ∧
      Expr.statementsOfTokens ((tower [1, 998]).map (·.val) ++ [⟨.eof, .unknown⟩]) = .ok [e] ∧
      e.height = maxLevels + 1 := by
  have hfits : Fits maxLevels [1, 998] := ⟨by decide, Nat.le_refl 998, trivial⟩
  exact ofTokens_tower ⟨.eof, .unknown⟩ hfits rfl

end Parser

end ClosureLang
