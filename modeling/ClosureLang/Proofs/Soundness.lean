import ClosureLang.Proofs.Reading

/-!
# What is read is in the grammar

A reader stops before a word that cannot go on with what it has read. `Spelt` says which words were read, and the
lemmas say, reader by reader, that the grammar derives the result from them. The loop over operators keeps an operand
that every operator to come can have on its left.
-/

namespace ClosureLang

open Token (Kind kinds)

namespace Parser

open Grammar

/-! ## Words that are read -/

section Reads

variable {α β : Type} {stop : Token} {start : Kind} {R R' : List Kind → Kind → α → Prop}

/-- Some of the words were read with this result, and the place is before the others. `R` relates the words that were
read, the word that comes next, and the result. -/
def Spelt (stop : Token) (ws : List Token.Proper) (R : List Kind → Kind → α → Prop) (a : α) (c : Cursor) : Prop :=
  ∃ read rest, ws = read ++ rest ∧ c = .before rest stop [] ∧ R (kinds read) c.current.kind a

/-- Wherever `start` comes next, a result of the reader and the words that were read for it are in `R`. -/
def Reads (stop : Token) (start : Kind) (p : Parser α) (R : List Kind → Kind → α → Prop) : Prop :=
  ∀ ws, (Cursor.before ws stop []).current.kind = start →
    wp p (Spelt stop ws R) (fun _ => True) (.before ws stop [])

theorem Reads.mono {p : Parser α} (h : Reads stop start p R) (hR : ∀ read next a, R read next a → R' read next a) :
    Reads stop start p R' := by
  intro ws hstart
  refine wp_mono (h ws hstart) ?_ fun _ h => h
  rintro a c ⟨read, rest, hws, hc, hread⟩
  exact ⟨read, rest, hws, hc, hR _ _ _ hread⟩

theorem reads_pure {a : α} (h : R [] start a) : Reads stop start (pure a) R := by
  intro ws hstart
  exact ⟨[], ws, rfl, rfl, hstart ▸ h⟩

theorem reads_fail {problem : ParseProblem} {span : Span} : Reads stop start (fail problem span) R :=
  fun _ _ => trivial

/-- One reader after the other: what the second one reads follows what the first one has read. -/
theorem Reads.bind {p : Parser β} {f : β → Parser α} {S : List Kind → Kind → β → Prop} (hp : Reads stop start p S)
    (hf : ∀ read next b, S read next b → Reads stop next (f b) fun read' next' a => R (read ++ read') next' a) :
    Reads stop start (p >>= f) R := by
  intro ws hstart
  rw [wp_bind]
  refine wp_mono (hp ws hstart) ?_ fun _ h => h
  rintro b c ⟨read, rest, rfl, rfl, hread⟩
  refine wp_mono (hf _ _ b hread rest rfl) ?_ fun _ h => h
  rintro a c ⟨read', rest', rfl, rfl, hread'⟩
  refine ⟨read ++ read', rest', by simp, rfl, ?_⟩
  rwa [Token.kinds_append]

theorem reads_peek : Reads stop start peek fun read next t => read = [] ∧ start = next ∧ t.kind = start :=
  fun ws hstart => ⟨[], ws, rfl, rfl, rfl, hstart.symm, hstart⟩

theorem reads_check (kind : Kind) :
    Reads stop start (check kind) fun read next b => read = [] ∧ start = next ∧ b = decide (start = kind) :=
  fun ws hstart => ⟨[], ws, rfl, rfl, rfl, hstart.symm, by rw [hstart]⟩

theorem reads_advance (hstop : stop.kind = .eof) (h : start ≠ .eof) :
    Reads stop start advance fun read _ t => read = [start] ∧ t.kind = start := by
  intro ws hstart
  cases ws with
  | nil => exact absurd (hstart.symm.trans hstop) h
  | cons w ws =>
    subst hstart
    exact ⟨[w], ws, rfl, by simp, rfl, rfl⟩

theorem reads_expect (hstop : stop.kind = .eof) {kind : Kind} (h : kind ≠ .eof) :
    Reads stop start (expect kind) fun read _ _ => start = kind ∧ read = [kind] := by
  intro ws hstart
  rw [wp_expect, hstart]
  split
  · next heq =>
    subst heq
    obtain ⟨read, rest, hws, hc, hread, -⟩ := reads_advance hstop h ws hstart
    exact ⟨read, rest, hws, hc, rfl, hread⟩
  · trivial

end Reads

/-! ## Readers -/

section Readers

variable {sub : Precedence → Parser Expr} {stop : Token}

/-- The words of an operand for every operator that comes next, among those that bind tighter than `above`. -/
def Operand (above : Precedence) (read : List Kind) (next : Kind) (t : Expr) : Prop :=
  ∃ l e, Phrase l e read t ∧ above ≤ l.floor ∧ Follows l e next

/-- Nested expressions are read as the grammar has them. -/
def SubReads (stop : Token) (sub : Precedence → Parser Expr) : Prop :=
  ∀ above ≤ Precedence.unary, ∀ start,
    Reads stop start (sub above) fun read next e => Stops above next ∧ Operand above read next e.shape

theorem nested_reads (h : SubReads stop sub) (start : Kind) :
    Reads stop start (nested sub) fun read next e =>
      next.extension? = none ∧ ∃ en, Phrase .expression en read e.shape := by
  refine (h .lowest (by decide) start).mono ?_
  rintro read next e ⟨hstops, l, en, hphrase, -, -⟩
  refine ⟨?_, en, hphrase.loosen (Nat.zero_le _)⟩
  -- No operator binds as loosely as `lowest`.
  cases hnext : next.extension? with
  | none => rfl
  | some px => exact absurd (hstops _ _ hnext) (Nat.not_le.2 (extension?_bounds hnext).1)

theorem lambda_reads (h : SubReads stop sub) (start : Kind) (params : List Expr) (span : Span) :
    Reads stop start (lambda sub params span) fun read next e =>
      next.extension? = none ∧ ∃ en body, Phrase .expression en read body ∧
        e.shape = .lambda .unknown (Expr.shapeAll params) body none none := by
  refine (nested_reads h start).bind ?_
  rintro read next body ⟨hnext, en, hbody⟩
  refine reads_pure ⟨hnext, en, body.shape, ?_, rfl⟩
  rwa [List.append_nil]

theorem separated_reads {item : Parser Expr} {k : Listing} {close : Kind} (hstop : stop.kind = .eof)
    (hitem : ∀ start, Reads stop start item fun read _ e => Item k read e.shape) (rounds : Nat) (start : Kind) :
    Reads stop start (separated item k.separator close rounds) fun read _ es => Items k read (Expr.shapeAll es) := by
  induction rounds generalizing start with
  | zero => exact reads_pure .nil
  | succ rounds ih =>
    rw [separated]
    refine reads_peek.bind ?_
    rintro _ _ t ⟨rfl, rfl, ht⟩
    split
    · exact reads_pure .nil
    · refine (hitem _).bind ?_
      rintro read next e he
      refine (reads_check _).bind ?_
      rintro _ _ b ⟨rfl, rfl, rfl⟩
      by_cases hsep : next = k.separator
      · subst hsep
        have hsep : k.separator ≠ .eof := by cases k <;> decide
        simp only [decide_true, if_true]
        refine (reads_advance hstop hsep).bind ?_
        rintro _ next' t ⟨rfl, -⟩
        refine (ih _).bind ?_
        rintro read' next' es hes
        refine reads_pure ?_
        simpa [Expr.shapeAll] using Items.more he hes
      · simp only [hsep, decide_false, Bool.false_eq_true, if_false]
        refine reads_pure ?_
        simpa [Expr.shapeAll] using Items.last he

theorem arguments_reads (hstop : stop.kind = .eof) (h : SubReads stop sub) (start : Kind) :
    Reads stop start (arguments sub) fun read _ es => Items .arguments read (Expr.shapeAll es) := by
  have hitem (start : Kind) : Reads stop start (nested sub) fun read _ e => Item .arguments read e.shape := by
    refine (nested_reads h start).mono ?_
    rintro read next e ⟨-, en, hphrase⟩
    exact .expression hphrase
  exact fun ws hstart => separated_reads hstop hitem _ start ws hstart

theorem target?_before {c : Cursor} {x : String} (h : c.target? = some x) : c.current.kind = .identifier x := by
  unfold Cursor.target? at h
  split at h
  · next y t _ hkind _ =>
    split at h
    · obtain rfl : y = x := by simpa using h
      exact hkind
    · cases h
  · cases h

theorem statement_reads (hstop : stop.kind = .eof) (h : SubReads stop sub) (start : Kind) :
    Reads stop start (statement sub) fun read _ e => Item .statements read e.shape := by
  intro ws hstart
  rw [statement, wp_bind, wp_get]
  split
  · next x hx =>
    have hstart : start = .identifier x := hstart ▸ target?_before hx
    subst hstart
    refine Reads.bind (reads_advance hstop (by simp)) ?_ ws hstart
    rintro _ next t ⟨rfl, -⟩
    refine (reads_expect hstop (by simp)).bind ?_
    rintro _ next' _ ⟨-, rfl⟩
    refine (nested_reads h _).bind ?_
    rintro read next value ⟨-, en, hvalue⟩
    refine reads_pure ?_
    simpa [Expr.shape, Expr.shape_labelled] using Item.assignment hvalue
  · refine (nested_reads h start).mono ?_ ws hstart
    rintro read next e ⟨-, en, hphrase⟩
    exact .expression hphrase

theorem block_reads (hstop : stop.kind = .eof) (h : SubReads stop sub) (start : Kind) (span : Span) :
    Reads stop start (block sub span) fun read _ e => Phrase .primary .closed (.leftBrace :: read) e.shape := by
  have hitems : Reads stop start (items (statement sub) .semicolon .rightBrace) fun read _ es =>
      Items .statements read (Expr.shapeAll es) :=
    fun ws hstart => separated_reads (k := .statements) hstop (statement_reads hstop h) _ start ws hstart
  refine hitems.bind ?_
  rintro read next statements hstatements
  refine (reads_expect hstop (by simp)).bind ?_
  rintro _ next' close ⟨-, rfl⟩
  refine reads_pure ?_
  simpa [Expr.shape] using Phrase.block hstatements

theorem group_reads (hstop : stop.kind = .eof) (h : SubReads stop sub) (start : Kind) (span : Span) :
    Reads stop start (group sub span) fun read next e =>
      ∃ en, Phrase .primary en (.leftParen :: read) e.shape ∧ Follows .primary en next := by
  refine (arguments_reads hstop h start).bind ?_
  rintro read next inside hinside
  refine (reads_expect hstop (by simp)).bind ?_
  rintro _ next' close ⟨-, rfl⟩
  refine (reads_check _).bind ?_
  rintro _ _ _ ⟨rfl, rfl, rfl⟩
  by_cases harrow : next' = .arrow
  · subst harrow
    simp only [decide_true, if_true]
    refine (reads_advance hstop (by simp)).bind ?_
    rintro _ next t ⟨rfl, -⟩
    refine (lambda_reads h _ _ _).mono ?_
    rintro read' next' e ⟨hnext, en, body, hbody, he⟩
    refine ⟨.lambda, ?_, follows_of_none hnext⟩
    rw [he]
    simpa using Phrase.lambda hinside hbody
  · simp only [harrow, decide_false, Bool.false_eq_true, if_false]
    split
    · next e =>
      refine reads_pure ⟨.closed, ?_, follows_closed rfl _⟩
      simpa using Phrase.group hinside
    · exact reads_fail

theorem unary_reads (h : SubReads stop sub) (start op : Kind) {function : String} (hop : (op, function) ∈ signs)
    (span : Span) :
    Reads stop start (unary sub function span) fun read next e =>
      ∃ en, Phrase .unary en (op :: read) e.shape ∧ Follows .unary en next := by
  refine (h .unary (Nat.le_refl _) start).bind ?_
  rintro read next operand ⟨hstops, l, en, hphrase, hfloor, hfollows⟩
  have hoperand : Phrase .unary en read operand.shape := hphrase.loosen_of_floor hfloor (Nat.le_refl _)
  refine reads_pure ⟨en, ?_, fun p x hnext => ⟨hstops p x hnext, (hfollows p x hnext).2⟩⟩
  simpa [Expr.shape, Expr.shapeAll, operation] using Phrase.sign hop hoperand

/-- An operand is a primary phrase or begins with a sign, so it can be read above every operator. -/
theorem operand_reads (hstop : stop.kind = .eof) (h : SubReads stop sub) (start : Kind) :
    Reads stop start (operand sub) fun read next e => Operand .unary read next e.shape := by
  by_cases heof : start = .eof
  · -- The end is read without moving on, and is no operand.
    subst heof
    intro ws hstart
    rw [operand, wp_bind, wp_advance, hstart]
    trivial
  refine (reads_advance hstop heof).bind ?_
  rintro _ next token ⟨rfl, rfl⟩
  split
  · next value heq =>
    rw [heq]
    exact reads_pure ⟨.primary, .closed, .number, (Nat.le_refl _), follows_closed rfl _⟩
  · next x heq =>
    rw [heq]
    refine (reads_check _).bind ?_
    rintro _ _ _ ⟨rfl, rfl, rfl⟩
    by_cases harrow : next = .arrow
    · subst harrow
      simp only [decide_true, if_true]
      refine (reads_advance hstop (by simp)).bind ?_
      rintro _ next t ⟨rfl, -⟩
      refine (lambda_reads h _ _ _).mono ?_
      rintro read next e ⟨hnext, en, body, hbody, he⟩
      refine ⟨.primary, .lambda, ?_, (Nat.le_refl _), follows_of_none hnext⟩
      rw [he]
      exact .lambdaOfName hbody
    · simp only [harrow, decide_false, Bool.false_eq_true, if_false]
      exact reads_pure ⟨.primary, .closed, .name, (Nat.le_refl _), follows_closed rfl _⟩
  · next heq =>
    rw [heq]
    refine (unary_reads h next .minus (by simp [signs]) _).mono ?_
    rintro read next e ⟨en, hphrase, hfollows⟩
    exact ⟨.unary, en, hphrase, (Nat.le_refl _), hfollows⟩
  · next heq =>
    rw [heq]
    refine (unary_reads h next .bang (by simp [signs]) _).mono ?_
    rintro read next e ⟨en, hphrase, hfollows⟩
    exact ⟨.unary, en, hphrase, (Nat.le_refl _), hfollows⟩
  · next heq =>
    rw [heq]
    refine (group_reads hstop h next _).mono ?_
    rintro read next e ⟨en, hphrase, hfollows⟩
    exact ⟨.primary, en, hphrase, (Nat.le_refl _), hfollows⟩
  · next heq =>
    rw [heq]
    refine (block_reads hstop h next _).mono ?_
    intro read next e hphrase
    exact ⟨.primary, .closed, hphrase, (Nat.le_refl _), follows_closed rfl _⟩
  · exact reads_fail
  · exact reads_fail

/-- What an operator makes of the operand on its left. -/
theorem extend_reads (hstop : stop.kind = .eof) (h : SubReads stop sub) {start : Kind} {above p : Precedence}
    {x : Extension} (hstart : start.extension? = some (p, x)) (habove : above < p) {left : Expr} {before : List Kind}
    {l : Level} (hleft : Phrase l .closed before left.shape) (hp : p ≤ l.ceiling) :
    Reads stop start (extend sub left p x) fun read next e => Operand above (before ++ read) next e.shape := by
  have hne : start ≠ .eof := by
    rintro rfl
    cases hstart
  cases x with
  | arguments =>
    obtain ⟨rfl, rfl⟩ := extension?_arguments hstart
    have hcallee := hleft.loosen_of_ceiling (m := .application) hp (by decide)
    refine (reads_advance hstop hne).bind ?_
    rintro _ next t ⟨rfl, -⟩
    refine (arguments_reads hstop h _).bind ?_
    intro read next args hargs
    refine (reads_expect hstop (by simp)).bind ?_
    rintro _ next' close ⟨-, rfl⟩
    refine reads_pure ⟨.application, .closed, ?_, Nat.le_of_lt_succ habove, follows_closed rfl _⟩
    simpa [Expr.shape] using Phrase.call hcallee hargs
  | branches =>
    obtain ⟨rfl, rfl⟩ := extension?_branches hstart
    have htest := hleft.loosen (m := .disjunction) (by cases l <;> first | decide | exact absurd hp (by decide))
    refine (reads_advance hstop hne).bind ?_
    rintro _ next t ⟨rfl, -⟩
    refine (nested_reads h _).bind ?_
    rintro read₁ next onTrue ⟨-, en₁, hTrue⟩
    refine (reads_expect hstop (by simp)).bind ?_
    rintro _ next' colon ⟨-, rfl⟩
    refine (nested_reads h _).bind ?_
    rintro read₂ next onFalse ⟨hnext, en₂, hFalse⟩
    refine reads_pure ⟨.expression, en₂, ?_, Nat.le_of_lt_succ habove, follows_of_none hnext⟩
    simpa [Expr.shape] using Phrase.choice htest hTrue hFalse
  | operand function =>
    obtain ⟨m, hm, rfl⟩ := mem_operators_of_extension? hstart
    obtain ⟨hfloor, -, hunary⟩ := floor_of_mem_operators hm
    have hleft := hleft.loosen_of_ceiling hp (by rintro rfl; cases hm)
    refine (reads_advance hstop hne).bind ?_
    rintro _ next t ⟨rfl, -⟩
    refine (h _ hunary _).bind ?_
    rintro read next right ⟨hstops, r, en, hphrase, hr, hfollows⟩
    have hright := hphrase.loosen_of_operator hm hr
    have habove : above ≤ m.floor := Nat.le_of_lt_succ (Nat.lt_of_lt_of_eq habove hfloor)
    refine reads_pure ⟨m, en, ?_, habove, fun p x hnext => ⟨hstops p x hnext, (hfollows p x hnext).2⟩⟩
    simpa [Expr.shape, Expr.shapeAll, operation] using Phrase.operator hm hleft hright

end Readers

/-! ## Expressions and programs -/

section Programs

variable {stop : Token}

/-- The loop over operators, which starts with an operand and the words that were read for it. The operand stays one
for all operators to come: an operator that binds tighter has gone to the operand before. -/
theorem extensions_reads (hstop : stop.kind = .eof) {n : Nat} (hsub : ∀ m < n, SubReads stop (expression m))
    {above : Precedence} {left : Expr} {before : List Kind} {start : Kind}
    (hleft : Operand above before start left.shape) :
    Reads stop start (extensions n above left) fun read next e =>
      Stops above next ∧ Operand above (before ++ read) next e.shape := by
  induction n using Nat.strongRecOn generalizing left before start with
  | ind n ih =>
    rw [extensions]
    refine reads_peek.bind ?_
    rintro _ _ t ⟨rfl, rfl, ht⟩
    rw [ht]
    cases hstart : start.extension? with
    | none =>
      exact reads_pure ⟨stops_of_none hstart, by simpa using hleft⟩
    | some px =>
      obtain ⟨p, x⟩ := px
      dsimp only
      split
      · next hle =>
        refine reads_pure ⟨fun p' x' hnext => ?_, by simpa using hleft⟩
        rw [hstart] at hnext
        cases hnext
        exact hle
      · next hlt =>
        cases n with
        | zero => exact fun _ _ => trivial
        | succ n =>
          -- The operand can have the operator on its right, so what the operator makes of it is an operand again.
          obtain ⟨l, e, hphrase, -, hfollows⟩ := hleft
          obtain ⟨hp, rfl⟩ := hfollows p x hstart
          refine (extend_reads hstop (hsub n (by omega)) hstart (Nat.lt_of_not_le hlt) hphrase hp).bind ?_
          intro read next longer hlonger
          refine (ih n (by omega) (fun m hm => hsub m (by omega)) hlonger).mono ?_
          rintro read' next' e ⟨hstops, he⟩
          exact ⟨hstops, by simpa using he⟩

theorem expression_reads (hstop : stop.kind = .eof) (n : Nat) : SubReads stop (expression n) := by
  induction n using Nat.strongRecOn with
  | ind n ih =>
    intro above habove start
    cases n with
    | zero => exact fun _ _ => trivial
    | succ n =>
      rw [expression]
      refine (operand_reads hstop (ih n (by omega)) start).bind ?_
      rintro read next left ⟨l, e, hphrase, hfloor, hfollows⟩
      exact extensions_reads hstop (fun m hm => ih m (by omega)) ⟨l, e, hphrase, Nat.le_trans habove hfloor, hfollows⟩

/-- A program that is read is one of the grammar. -/
theorem program_reads (hstop : stop.kind = .eof) (ws : List Token.Proper) :
    wp program (fun e _ => Grammar.Program (kinds ws) e.shape) (fun _ => True) (.before ws stop []) := by
  have hitem := statement_reads hstop (expression_reads hstop maxLevels)
  rw [program, wp_bind]
  refine wp_mono (separated_reads (k := .statements) hstop hitem _ _ ws rfl) ?_ fun _ h => h
  rintro statements c ⟨read, rest, rfl, rfl, hstatements⟩
  rw [wp_bind, wp_expect]
  split
  · next hrest =>
    -- Only the end is left, since no word is of its kind.
    obtain rfl : rest = [] := by
      cases rest with
      | nil => rfl
      | cons w rest => exact absurd hrest w.2
    rw [List.append_nil]
    match statements, hstatements with
    | [], _ => trivial
    | [e], hstatements => exact .single hstatements
    | first :: second :: others, hstatements => exact .several hstatements
  · trivial

end Programs

end Parser

end ClosureLang
