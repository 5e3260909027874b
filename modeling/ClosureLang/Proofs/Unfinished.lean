import ClosureLang.Proofs.Prospects

/-!
# Unfinished programs

What can become of expressions and programs if more words come. Whatever is unfinished can be completed: empty blocks,
which need no level but their own, stand for missing operands and for the bodies of lambdas.

Only the nesting limit gets in the way. A reader that may not nest any further can be asked for words that lead nowhere:
the parenthesis of an empty group, and the arrow after it.
-/

namespace ClosureLang

open Token (Kind kinds)

namespace Parser

open Grammar

/-! ## Readers -/

section Readers

variable {all ws : List Token.Proper} {stop : Token} {n : Nat}

theorem moves_of_reads {p : Parser Expr} {R : List Kind → Kind → Expr → Prop}
    (h : ∀ stop, stop.kind = .eof → ∀ start, Reads stop start p R) (hne : ∀ next e, ¬R [] next e) : Moves p := by
  intro ws stop hstop
  refine wp_mono (h stop hstop _ ws rfl) ?_ fun _ _ => trivial
  rintro e _ ⟨read, rest, rfl, rfl, hread⟩
  refine ⟨rest, rfl, ?_⟩
  cases read with
  | nil => exact absurd hread (hne _ _)
  | cons w read => simp only [List.length_append, List.length_cons]; omega

theorem moves_nested (n : Nat) : Moves (nested (expression n)) := by
  refine moves_of_reads (fun _ hstop => nested_reads (expression_reads hstop n)) ?_
  rintro next e ⟨-, en, hphrase⟩
  exact hphrase.ne_nil rfl

theorem moves_statement (n : Nat) : Moves (statement (expression n)) :=
  moves_of_reads (fun _ hstop => statement_reads hstop (expression_reads hstop n)) fun _ _ h => h.opens

/-- Without levels, nothing can be read. -/
theorem expression_zero (above : Precedence) (c : Cursor) : Fails (expression 0 above) TooDeep c := rfl

/-- An empty block needs no level but its own. -/
theorem operand_braces (sub : Precedence → Parser Expr) :
    Mends (operand sub) [] [.leftBrace, .rightBrace] fun _ => True := by
  intro us more stop' _ hkinds _
  obtain ⟨w, us, rfl, hw, hus⟩ := List.map_eq_cons_iff.1 hkinds
  obtain ⟨w', us, rfl, hw', hus'⟩ := List.map_eq_cons_iff.1 hus
  obtain rfl : us = [] := List.map_eq_nil_iff.1 hus'
  have hblock : wp (operand sub) (fun _ c => c = .before more stop' []) (fun _ => False)
      (.before (w :: w' :: more) stop' []) := by
    rw [operand, wp_bind, wp_advance, Cursor.current_before_cons, Cursor.next_before_cons, hw]
    refine wp_bind.2 (wp_items_of_close hw' ?_)
    rw [wp_bind, wp_of_ok (expect_of_kind hw'), wp_pure]
  obtain ⟨a, _, hok, rfl⟩ := exists_ok_of_wp hblock
  exact ⟨a, hok⟩

theorem extensions_of_ends {above : Precedence} (left : Expr) (h : Ends (upcoming ws stop)) :
    extensions n above left (.before ws stop []) = .ok left (.before ws stop []) := by
  refine ok_of_wp ?_
  rw [wp_extensions_of_stops (h.stops above)]
  exact ⟨rfl, rfl⟩

theorem expression_braces (n : Nat) (above : Precedence) :
    Mends (expression (n + 1) above) [] [.leftBrace, .rightBrace] Ends := by
  intro us more stop' hstop' hkinds hnext
  obtain ⟨left, hleft⟩ := operand_braces (expression n) us more stop' hstop' hkinds trivial
  refine ⟨left, ?_⟩
  rw [expression, bind_of_ok hleft]
  exact extensions_of_ends left hnext

theorem operand_name {sub : Precedence → Parser Expr} {w : Token.Proper} {x : String} (hw : w.val.kind = .identifier x)
    (hnext : upcoming ws stop ≠ .arrow) :
    operand sub (.before (w :: ws) stop []) = .ok (.name w.val.span x none) (.before ws stop []) := by
  refine ok_of_wp ?_
  rw [operand, wp_bind, wp_advance, Cursor.current_before_cons, Cursor.next_before_cons, hw]
  dsimp only
  rw [wp_bind, wp_check]
  simp only [hnext, decide_false, Bool.false_eq_true, if_false]
  exact ⟨rfl, rfl⟩

/-- What can become of a nested expression. -/
def SubProspect (all : List Token.Proper) (stop : Token) (n : Nat) : Prop :=
  ∀ above ws, ws <:+ all → Prospect all stop (expression n above) ws Ends

theorem lambda_prospect (hstop : stop.kind = .eof) (hsub : SubProspect all stop n) (hws : ws <:+ all)
    (params : List Expr) (start : Span) : Prospect all stop (lambda (expression n) params start) ws Ends :=
  (hsub .lowest ws hws).bind_pure hstop ends_eof _

theorem unary_prospect (hstop : stop.kind = .eof) (hsub : SubProspect all stop n) (hws : ws <:+ all)
    (function : String) (operator : Span) : Prospect all stop (unary (expression n) function operator) ws Ends :=
  (hsub .unary ws hws).bind_pure hstop ends_eof _

theorem arguments_prospect (hstop : stop.kind = .eof) (hsub : SubProspect all stop n) (hws : ws <:+ all) :
    Prospect all stop (arguments (expression n)) ws (Closes .rightParen) :=
  items_prospect (k := .arguments) hstop (moves_nested n) (.inl rfl)
    (fun ws _ hws => hsub .lowest ws hws) hws

theorem statement_of_assignment {sub : Precedence → Parser Expr} {w w' : Token.Proper} {x : String}
    (hw : w.val.kind = .identifier x) (hw' : w'.val.kind = .equal) :
    statement sub (.before (w :: w' :: ws) stop []) =
      (do
        let value ← nested sub
        return .assign (w.val.span.through value.span) x (value.labelled x) none : Parser Expr)
      (.before ws stop []) := by
  have hget (c : Cursor) : (get : Parser Cursor) c = .ok c c := rfl
  rw [statement, bind_of_ok (hget _), target?_of_assignment hw hw']
  refine (bind_of_ok advance_before).trans ?_
  exact bind_of_ok (expect_of_kind hw')

theorem target?_of_ne {w : Token.Proper} (h : ∀ x, w.val.kind ≠ .identifier x) :
    (Cursor.before (w :: ws) stop []).target? = none := by
  unfold Cursor.target?
  split
  · next hkind _ => exact absurd hkind (h _)
  · rfl

theorem target?_of_ne_equal {w : Token.Proper} (h : upcoming ws stop ≠ .equal) :
    (Cursor.before (w :: ws) stop []).target? = none := by
  unfold Cursor.target?
  split
  · next hkind hrest =>
    cases ws <;> cases hrest <;> exact if_neg h
  · rfl

/-- Without levels, neither an expression nor the value of an assignment can be read. -/
theorem statement_zero {w : Token.Proper} (hstop : stop.kind = .eof) :
    Fails (statement (expression 0)) TooDeep (.before (w :: ws) stop []) := by
  cases htarget : (Cursor.before (w :: ws) stop []).target? with
  | none =>
    unfold Fails wp
    rw [statement_of_none htarget]
    exact rfl
  | some x =>
    -- There is a target only before an equals sign.
    have hequal : upcoming ws stop = .equal := by
      refine Decidable.byContradiction fun h => ?_
      cases (target?_of_ne_equal h).symm.trans htarget
    cases ws with
    | nil => cases hequal.symm.trans hstop
    | cons w' ws =>
      unfold Fails wp
      rw [statement_of_assignment (target?_before htarget) hequal]
      exact rfl

/-- A word that may be a target is an expression if no more words come. If there is no level left, the value that is
assigned to it is nested too deeply as well. -/
theorem statement_prospect (hstop : stop.kind = .eof) (hsub : SubProspect all stop n) (hne : ws ≠ [])
    (hws : ws <:+ all) : Prospect all stop (statement (expression n)) ws Ends := by
  have hnested (h : ∀ us stop', (Cursor.before (ws ++ us) stop' []).target? = none) :
      Prospect all stop (statement (expression n)) ws Ends :=
    (hsub .lowest ws hws).of_eq hstop List.suffix_rfl fun us stop' _ => statement_of_none (h us stop')
  match ws with
  | [] => exact absurd rfl hne
  | [w] =>
    by_cases hw : ∃ x, w.val.kind = .identifier x
    · -- The word after the name decides whether the name is a target.
      obtain ⟨x, hw⟩ := hw
      cases n with
      | zero => exact .tooDeep fun us stop' hstop' => statement_zero hstop'
      | succ n =>
        refine .opened (a := .name w.val.span x none) fun us stop' _ hnext => ?_
        refine (statement_of_none (target?_of_ne_equal hnext.ne_equal)).trans ?_
        rw [nested, expression]
        refine (bind_of_ok (operand_name hw hnext.ne_arrow)).trans ?_
        exact extensions_of_ends _ hnext
    · exact hnested fun us stop' => target?_of_ne (not_exists.1 hw)
  | w :: w' :: ws =>
    by_cases hw : ∃ x, w.val.kind = .identifier x
    · obtain ⟨x, hw⟩ := hw
      by_cases hw' : w'.val.kind = .equal
      · have hws' : ws <:+ w :: w' :: ws := (List.suffix_cons w' ws).trans (List.suffix_cons w _)
        exact ((hsub .lowest ws (hws'.trans hws)).bind_pure hstop ends_eof _).of_eq hstop hws' fun us stop' _ =>
          statement_of_assignment hw hw'
      · exact hnested fun us stop' => target?_of_ne_equal hw'
    · exact hnested fun us stop' => target?_of_ne (not_exists.1 hw)

/-- What stands between parentheses or braces, and what follows the closing one. -/
theorem enclosed_prospect {p : Parser (List Expr)} {f : List Expr → Token → Parser Expr} {close : Kind}
    (hstop : stop.kind = .eof) (hws : ws <:+ all) (hp : Prospect all stop p ws (Closes close)) (ks : List Kind)
    (hks : close :: ks ⊆ fillers) (harrow : close ≠ .arrow) (hmends : ∀ es t, Mends (f es t) [] ks Ends)
    (hhint : close = .rightParen → (∃ ks', ks = .arrow :: ks') ∨ ∀ es t, Declines (f es t))
    (hf : ∀ es w rest, w :: rest <:+ all → Prospect all stop (f es w.val) rest Ends) :
    Prospect all stop (do let es ← p; let t ← expect close; f es t) ws Ends := by
  have hclosing (es : List Expr) : Closing all stop (do let t ← expect close; f es t) Ends (close :: ks) :=
    closing_expect hks hstop (hmends es) fun h => (hhint h).imp_right fun h => h es
  refine hp.bind (close :: ks) hks hstop (.inr rfl) (.inl rfl) ?_ (fun es _ => hclosing es)
    fun _ => declines_expect harrow
  intro es rest hrest _
  cases rest with
  | nil => exact (hclosing es).prospect
  | cons w rest =>
    have hrest := hrest.trans hws
    exact prospect_expect hstop (hrest.mem (.head _)) fun _ => hf es w rest hrest

theorem block_prospect (hstop : stop.kind = .eof) (hsub : SubProspect all stop n) (hws : ws <:+ all)
    (start : Span) : Prospect all stop (block (expression n) start) ws Ends := by
  have hitems : Prospect all stop (items (statement (expression n)) .semicolon .rightBrace) ws (Closes .rightBrace) :=
    items_prospect (k := .statements) hstop (moves_statement n) (.inr (.inl rfl))
      (fun ws hne hws => statement_prospect hstop hsub hne hws) hws
  exact enclosed_prospect hstop hws hitems [] (by simp [fillers]) nofun (fun _ _ => mends_pure _) nofun
    fun _ _ _ _ => prospect_pure _

/-- What follows the closing parenthesis of a group. -/
def groupEnd (sub : Precedence → Parser Expr) (start : Span) (inside : List Expr) (close : Token) : Parser Expr := do
  if ← check .arrow then
    let _ ← advance
    lambda sub inside start
  else
    match inside with
    | [e] => return e
    | _ => fail .missingArrow (start.through close.span)

section Groups

variable {sub : Precedence → Parser Expr} {start : Span} {inside : List Expr} {close : Token} {w : Token.Proper}

theorem group_eq : group sub start = (do
    let inside ← arguments sub
    let close ← expect .rightParen
    groupEnd sub start inside close) := rfl

theorem groupEnd_of_arrow (hw : w.val.kind = .arrow) :
    groupEnd sub start inside close (.before (w :: ws) stop []) = lambda sub inside start (.before ws stop []) := by
  have hcheck : check .arrow (.before (w :: ws) stop []) = .ok true (.before (w :: ws) stop []) := by
    refine ok_of_wp ?_
    rw [wp_check, Cursor.current_before_cons, hw]
    exact ⟨rfl, rfl⟩
  unfold groupEnd
  rw [bind_of_ok hcheck]
  exact bind_of_ok advance_before

theorem check_of_ne {kind : Kind} (h : upcoming ws stop ≠ kind) :
    check kind (.before ws stop []) = .ok false (.before ws stop []) := by
  refine ok_of_wp ?_
  rw [wp_check]
  exact ⟨decide_eq_false h, rfl⟩

theorem groupEnd_single {e : Expr} (h : upcoming ws stop ≠ .arrow) :
    groupEnd sub start [e] close (.before ws stop []) = .ok e (.before ws stop []) := by
  unfold groupEnd
  rw [bind_of_ok (check_of_ne h)]
  rfl

theorem groupEnd_fails (hinside : ¬∃ e, inside = [e]) (h : upcoming ws stop ≠ .arrow) :
    Fails (groupEnd sub start inside close) (· = ⟨.missingArrow, start.through close.span⟩) (.before ws stop []) := by
  unfold groupEnd
  rw [Fails, wp_bind, wp_of_ok (check_of_ne h)]
  rcases inside with - | ⟨e, - | ⟨e', inside⟩⟩
  · exact rfl
  · exact absurd ⟨e, rfl⟩ hinside
  · exact rfl

theorem groupEnd_mends (inside : List Expr) (close : Token) :
    Mends (groupEnd (expression (n + 1)) start inside close) [] [.arrow, .leftBrace, .rightBrace] Ends := by
  intro us more stop' hstop' hkinds hnext
  obtain ⟨w, us, rfl, hw, hus⟩ := List.map_eq_cons_iff.1 hkinds
  obtain ⟨e, he⟩ := (expression_braces n .lowest).bind_pure (fun body =>
    Expr.lambda (start.through body.span) inside body none none) us more stop' hstop' hus hnext
  exact ⟨e, (groupEnd_of_arrow hw).trans he⟩

theorem late_arrow (hstart : Begins all start.start) (hall : [w] <:+ all) :
    Late all stop ⟨.missingArrow, start.through w.val.span⟩ := by
  obtain ⟨xs, hall⟩ := hall
  exact .arrow hstart hall.symm rfl

theorem final_arrow {x : Token.Proper} (hstart : Begins all start.start) (hall : w :: x :: ws <:+ all) :
    Final all ⟨.missingArrow, start.through w.val.span⟩ := by
  obtain ⟨xs, hall⟩ := hall
  exact .arrow hstart hall.symm rfl

/-- A list without an arrow after it is a group if it has one item. Otherwise the error is where the list is, and the
arrow may still come if the list is the end. -/
theorem groupEnd_prospect (hstop : stop.kind = .eof) (hsub : SubProspect all stop (n + 1))
    (hstart : Begins all start.start) (hws : w :: ws <:+ all) :
    Prospect all stop (groupEnd (expression (n + 1)) start inside w.val) ws Ends := by
  cases ws with
  | nil =>
    by_cases hinside : ∃ e, inside = [e]
    · obtain ⟨e, rfl⟩ := hinside
      exact .opened fun us stop' _ hnext => groupEnd_single hnext.ne_arrow
    · -- The list is the end: an arrow and an empty block make it a lambda.
      refine .pending (by simp [fillers]) (late_arrow hstart hws) (groupEnd_fails hinside ?_)
        (groupEnd_mends inside w.val) (.inl ⟨_, rfl⟩)
      intro h
      cases hstop.symm.trans h
  | cons x rest =>
    by_cases hx : x.val.kind = .arrow
    · have hrest : rest <:+ all := ((List.suffix_cons x rest).trans (List.suffix_cons w _)).trans hws
      exact (lambda_prospect hstop hsub hrest inside start).of_eq hstop (List.suffix_cons x rest) fun us stop' _ =>
        groupEnd_of_arrow hx
    · by_cases hinside : ∃ e, inside = [e]
      · obtain ⟨e, rfl⟩ := hinside
        exact .settled List.suffix_rfl fun us stop' _ => groupEnd_single hx
      · have hnext (us : List Token.Proper) (stop' : Token) : upcoming (x :: rest ++ us) stop' ≠ .arrow := hx
        exact .final (final_arrow hstart hws) fun us stop' _ => groupEnd_fails hinside (hnext us stop')

/-! Without levels, nothing can stand inside a group, and no lambda can follow it. Nothing is wrong before the words
that are asked for have come. -/

theorem group_zero_of_paren (hw : w.val.kind = .rightParen) :
    group (expression 0) start (.before (w :: ws) stop []) =
      groupEnd (expression 0) start [] w.val (.before ws stop []) := by
  have hcloses : Closes .rightParen (upcoming (w :: ws) stop) := .inl hw
  rw [group_eq, arguments, bind_of_ok (items_of_closes hcloses), bind_of_ok (expect_of_kind hw)]

theorem group_zero_of_ne (hw : w.val.kind ≠ .rightParen) :
    Fails (group (expression 0) start) TooDeep (.before (w :: ws) stop []) := by
  refine Fails.bind ?_
  rw [arguments, Fails, wp_items, separated_succ, round, wp_bind, wp_peek, Cursor.current_before_cons,
    if_neg (not_or.2 ⟨hw, w.2⟩)]
  exact rfl

theorem group_zero_nil (hstop : stop.kind = .eof) :
    Fails (group (expression 0) start) (· = ⟨.expected .rightParen .eof, stop.span⟩) (.before [] stop []) := by
  have hcloses : Closes .rightParen (upcoming [] stop) := .inr hstop
  rw [group_eq, Fails, wp_bind, arguments, wp_of_ok (items_of_closes hcloses), wp_bind, wp_expect,
    Cursor.current_before_nil, hstop]
  exact rfl

theorem groupEnd_zero_of_arrow (hw : w.val.kind = .arrow) :
    Fails (groupEnd (expression 0) start inside close) TooDeep (.before (w :: ws) stop []) := by
  unfold Fails wp
  rw [groupEnd_of_arrow hw]
  exact rfl

theorem not_single_nil : ¬∃ e : Expr, [] = [e] := by
  simp

theorem groupEnd_zero (hstop : stop.kind = .eof) :
    Fails (groupEnd (expression 0) start [] close) (fun _ => True) (.before ws stop []) := by
  by_cases harrow : upcoming ws stop = .arrow
  · cases ws with
    | nil => cases harrow.symm.trans hstop
    | cons w ws => exact (groupEnd_zero_of_arrow harrow).mono fun _ _ => trivial
  · exact (groupEnd_fails not_single_nil harrow).mono fun _ _ => trivial

theorem groupEnd_zero_prospect (hstop : stop.kind = .eof) (hstart : Begins all start.start) (hws : w :: ws <:+ all) :
    Prospect all stop (groupEnd (expression 0) start [] w.val) ws Ends := by
  cases ws with
  | nil =>
    refine .stuck (late_arrow hstart hws) (groupEnd_fails not_single_nil fun h => nomatch hstop.symm.trans h)
      (fun us stop' hstop' => groupEnd_zero hstop') ?_
    intro us more stop' _ hkinds
    obtain ⟨a, us, rfl, ha, -⟩ := List.map_eq_cons_iff.1 hkinds
    exact groupEnd_zero_of_arrow ha
  | cons x rest =>
    by_cases hx : x.val.kind = .arrow
    · exact .tooDeep fun us stop' _ => groupEnd_zero_of_arrow hx
    · have hnext (us : List Token.Proper) (stop' : Token) : upcoming (x :: rest ++ us) stop' ≠ .arrow := hx
      exact .final (final_arrow hstart hws) fun us stop' _ => groupEnd_fails not_single_nil (hnext us stop')

theorem group_zero_prospect (hstop : stop.kind = .eof) (hstart : Begins all start.start) (hws : ws <:+ all) :
    Prospect all stop (group (expression 0) start) ws Ends := by
  cases ws with
  | nil =>
    have hlate : Late all stop ⟨.expected .rightParen .eof, stop.span⟩ := .stop nofun nofun
    refine .stuck hlate (group_zero_nil hstop) ?_ ?_
    · -- The parenthesis is closed at once or not at all, and then no arrow and no other word helps.
      intro us stop' hstop'
      cases us with
      | nil => exact (group_zero_nil hstop').mono fun _ _ => trivial
      | cons u us =>
        by_cases hu : u.val.kind = .rightParen
        · unfold Fails wp
          rw [List.nil_append, group_zero_of_paren hu]
          exact groupEnd_zero hstop'
        · exact (group_zero_of_ne hu).mono fun _ _ => trivial
    · intro us more stop' _ hkinds
      obtain ⟨r, us, rfl, hr, hus⟩ := List.map_eq_cons_iff.1 hkinds
      obtain ⟨a, us, rfl, ha, -⟩ := List.map_eq_cons_iff.1 hus
      unfold Fails wp
      rw [List.nil_append, List.cons_append, group_zero_of_paren hr]
      exact groupEnd_zero_of_arrow ha
  | cons w ws =>
    by_cases hw : w.val.kind = .rightParen
    · exact (groupEnd_zero_prospect hstop hstart hws).of_eq hstop (List.suffix_cons w ws) fun us stop' _ =>
        group_zero_of_paren hw
    · exact .tooDeep fun us stop' _ => group_zero_of_ne hw

theorem group_prospect (hstop : stop.kind = .eof) (hsub : SubProspect all stop n) (hstart : Begins all start.start)
    (hws : ws <:+ all) : Prospect all stop (group (expression n) start) ws Ends := by
  cases n with
  | zero => exact group_zero_prospect hstop hstart hws
  | succ n =>
    exact enclosed_prospect hstop hws (arguments_prospect hstop hsub hws) [.arrow, .leftBrace, .rightBrace]
      (by simp [fillers]) nofun groupEnd_mends (fun _ => .inl ⟨_, rfl⟩)
      fun _ _ _ hrest => groupEnd_prospect hstop hsub hstart hrest

end Groups

theorem operand_prospect (hstop : stop.kind = .eof) (hsub : SubProspect all stop n) (hws : ws <:+ all) :
    Prospect all stop (operand (expression n)) ws Ends := by
  cases ws with
  | nil =>
    have hlate : Late all stop ⟨.endOfInput, stop.span⟩ := .stop (by rintro ⟨⟩) (by rintro ⟨⟩)
    refine .pending braces_subset hlate ?_ (fun us more stop' hstop' hkinds _ =>
      operand_braces _ us more stop' hstop' hkinds trivial) (.inl ⟨_, rfl⟩)
    rw [Fails, operand, wp_bind, wp_advance, Cursor.current_before_nil, hstop]
    exact rfl
  | cons w ws =>
    have hw : w ∈ all := hws.mem (.head _)
    have hrest : ws <:+ all := (List.suffix_cons w ws).trans hws
    refine prospect_advance hstop ?_
    split
    · exact prospect_pure _
    · next x hkind =>
      cases ws with
      | nil =>
        refine .opened (a := .name w.val.span x none) fun us stop' _ hnext => ?_
        exact bind_of_ok (check_of_ne hnext.ne_arrow)
      | cons w' ws =>
        refine prospect_check hstop ?_
        split
        · exact prospect_advance hstop (lambda_prospect hstop hsub ((List.suffix_cons w' ws).trans hrest) _ _)
        · exact prospect_pure _
    · exact unary_prospect hstop hsub hrest _ _
    · exact unary_prospect hstop hsub hrest _ _
    · exact group_prospect hstop hsub ⟨w, hw, rfl⟩ hrest
    · exact block_prospect hstop hsub hrest _
    · next heof => exact absurd heof w.2
    · have hfinal : Final all ⟨.noExpression w.val.kind, w.val.span⟩ := .word hw (by rintro ⟨⟩)
      exact .final hfinal fun us stop' _ => rfl

theorem extend_prospect (hstop : stop.kind = .eof) (hsub : SubProspect all stop n) {w : Token.Proper}
    (hws : w :: ws <:+ all) (left : Expr) (p : Precedence) (x : Extension) :
    Prospect all stop (extend (expression n) left p x) (w :: ws) Ends := by
  have hrest : ws <:+ all := (List.suffix_cons w ws).trans hws
  cases x with
  | arguments =>
    refine prospect_advance hstop ?_
    exact enclosed_prospect hstop hrest (arguments_prospect hstop hsub hrest) [] (by simp [fillers]) (by rintro ⟨⟩)
      (fun _ _ => mends_pure _) (fun _ => .inr fun _ _ => declines_pure _) fun _ _ _ _ => prospect_pure _
  | branches =>
    refine prospect_advance hstop ?_
    -- Without levels there is no first branch, so the second one can be an empty block.
    have hclosing (onTrue : Expr) (h : Reaches (nested (expression n)) ws onTrue) :
        Closing all stop (do
          let _ ← expect .colon
          let onFalse ← nested (expression n)
          return Expr.cond (left.span.through onFalse.span) left onTrue onFalse) Ends
          [.colon, .leftBrace, .rightBrace] := by
      cases n with
      | zero =>
        obtain ⟨us, stop', c, -, hok⟩ := h
        exact absurd (wp_ok (expression_zero .lowest _) hok) id
      | succ n =>
        exact closing_expect (by simp [fillers]) hstop (fun _ => (expression_braces n .lowest).bind_pure _)
          (by rintro ⟨⟩)
    refine (hsub .lowest ws hrest).bind [.colon, .leftBrace, .rightBrace] (by simp [fillers]) hstop ends_eof
      ends_colon ?_ hclosing fun _ => declines_expect (by rintro ⟨⟩)
    intro onTrue rest hsuffix hok
    cases rest with
    | nil => exact (hclosing onTrue ⟨[], stop, _, hstop, hok [] stop hstop⟩).prospect
    | cons colon rest =>
      have hsuffix := hsuffix.trans hrest
      refine prospect_expect hstop (hsuffix.mem (.head _)) fun _ => ?_
      exact (hsub .lowest rest ((List.suffix_cons colon rest).trans hsuffix)).bind_pure hstop ends_eof _
  | operand function =>
    refine prospect_advance hstop ?_
    exact (hsub p ws hrest).bind_pure hstop ends_eof _

theorem extensions_closing (above : Precedence) (left : Expr) :
    Closing all stop (extensions n above left) Ends [] :=
  .silent fun _ _ _ hnext => extensions_of_ends left hnext

theorem extensions_declines (above : Precedence) (left : Expr) : Declines (extensions n above left) := by
  intro a us stop' ha _
  have hstops : Stops above (upcoming (a :: us) stop') := by
    rw [upcoming, Cursor.current_before_cons, ha]
    exact stops_of_none rfl
  rw [wp_extensions_of_stops hstops]

/-- The loop over operators goes on with whatever was read before it. -/
theorem Prospect.bind_extensions {p : Parser Expr} (hp : Prospect all stop p ws Ends) (hstop : stop.kind = .eof)
    (above : Precedence) (h : ∀ left rest, rest <:+ ws → Prospect all stop (extensions n above left) rest Ends) :
    Prospect all stop (p >>= extensions n above) ws Ends :=
  hp.bind [] (List.nil_subset _) hstop ends_eof (fun _ h => h) (fun left rest hrest _ => h left rest hrest)
    (fun left _ => extensions_closing above left) fun left => extensions_declines above left

/-- The loop over operators ends at the end of the words, whatever levels are left. -/
theorem extensions_prospect (hstop : stop.kind = .eof) (hsub : ∀ m < n, SubProspect all stop m) (above : Precedence)
    (left : Expr) (hws : ws <:+ all) : Prospect all stop (extensions n above left) ws Ends := by
  induction n using Nat.strongRecOn generalizing left ws with
  | ind n ih =>
    cases ws with
    | nil => exact (extensions_closing above left).prospect
    | cons w ws =>
      rw [extensions]
      refine prospect_peek hstop ?_
      split
      · exact prospect_pure _
      · split
        · exact prospect_pure _
        · cases n with
          | zero => exact .tooDeep fun _ _ _ => rfl
          | succ n =>
            have hlt := Nat.lt_succ_self n
            refine (extend_prospect hstop (hsub n hlt) hws left _ _).bind_extensions hstop above ?_
            intro longer rest hrest
            exact ih n hlt (fun m hm => hsub m (Nat.lt_succ_of_lt hm)) longer (hrest.trans hws)

theorem expression_prospect (hstop : stop.kind = .eof) (n : Nat) : SubProspect all stop n := by
  induction n using Nat.strongRecOn with
  | ind n ih =>
    intro above ws hws
    cases n with
    | zero => exact .tooDeep fun us stop' _ => expression_zero above _
    | succ n =>
      rw [expression]
      refine (operand_prospect hstop (ih n (Nat.lt_succ_self n)) hws).bind_extensions hstop above ?_
      intro left rest hrest
      exact extensions_prospect hstop (fun m hm => ih m (Nat.lt_succ_of_lt hm)) above left (hrest.trans hws)

end Readers

/-! ## Programs -/

section Programs

variable {all ws : List Token.Proper} {stop : Token}

/-- What a program makes of its statements. -/
def programEnd (statements : List Expr) : Parser Expr := do
  let _ ← expect .eof
  match statements with
  | [] => fail .noProgram (← peek).span
  | [e] => return e
  | first :: others => return .block (first.span.through (others.getLastD first).span) statements

theorem program_eq : program = (do
    let statements ← items (statement (expression maxLevels)) .semicolon .eof
    programEnd statements) := rfl

theorem nil_of_upcoming (h : upcoming ws stop = .eof) : ws = [] := by
  cases ws with
  | nil => rfl
  | cons w ws => exact absurd h w.2

theorem expect_eof (hstop : stop.kind = .eof) : expect .eof (.before [] stop []) = .ok stop (.before [] stop []) := by
  refine ok_of_wp ?_
  rw [wp_expect, Cursor.current_before_nil, if_pos hstop]
  exact ⟨rfl, Cursor.next_before_nil hstop⟩

theorem programEnd_of_ne_nil {statements : List Expr} (h : statements ≠ []) :
    ∃ e, ∀ stop, stop.kind = .eof → programEnd statements (.before [] stop []) = .ok e (.before [] stop []) := by
  match statements, h with
  | [e], _ => exact ⟨e, fun stop hstop => bind_of_ok (expect_eof hstop)⟩
  | _ :: _ :: _, _ => exact ⟨_, fun stop hstop => bind_of_ok (expect_eof hstop)⟩

theorem programEnd_closing {statements : List Expr} (h : statements ≠ []) :
    Closing all stop (programEnd statements) (· = .eof) [] := by
  obtain ⟨e, he⟩ := programEnd_of_ne_nil h
  refine .silent (a := e) fun us stop' hstop' hnext => ?_
  obtain rfl := nil_of_upcoming hnext
  exact he stop' hstop'

/-- A list that begins with a word has an item. -/
theorem ne_nil_of_reaches {item : Parser Expr} {separator : Kind} {w : Token.Proper} {es : List Expr}
    (h : Reaches (items item separator .eof) (w :: ws) es) : es ≠ [] := by
  obtain ⟨us, stop', c, -, hok⟩ := h
  have hitems : wp (items item separator .eof) (fun es _ => es ≠ []) (fun _ => True)
      (.before (w :: ws ++ us) stop' []) := by
    rw [wp_items, separated_succ, round, wp_bind, wp_peek, List.cons_append, Cursor.current_before_cons,
      if_neg (not_or.2 ⟨w.2, w.2⟩)]
    have hfurther {tail : Parser (List Expr)} (first : Expr) : Gives (further separator tail first) (· ≠ []) := by
      refine gives_after fun more => ?_
      split
      · exact gives_after fun _ => gives_after fun _ => gives_pure (List.cons_ne_nil _ _)
      · exact gives_pure (List.cons_ne_nil _ _)
    exact gives_after hfurther _
  exact wp_ok hitems hok

/-- An empty block is a program. -/
theorem program_braces : Mends program [] [.leftBrace, .rightBrace] (· = .eof) := by
  intro us more stop' hstop' hkinds hnext
  obtain rfl := nil_of_upcoming hnext
  obtain ⟨e, he⟩ := expression_braces (maxLevels - 1) .lowest us [] stop' hstop' hkinds (hnext ▸ ends_eof)
  obtain ⟨w, us, rfl, hw, hus⟩ := List.map_eq_cons_iff.1 hkinds
  have hstatement : statement (expression maxLevels) (.before (w :: us ++ []) stop' []) = .ok e (.before [] stop' []) :=
    (statement_of_none (target?_of_ne (by simp [hw]))).trans he
  have hitems : items (statement (expression maxLevels)) .semicolon .eof (.before (w :: us ++ []) stop' []) =
      .ok [e] (.before [] stop' []) := by
    refine ok_of_wp (wp_items_of_one w.2 w.2 ((wp_of_ok hstatement).2 ⟨?_, rfl, rfl⟩))
    exact fun h => nomatch hnext.symm.trans h
  obtain ⟨e', he'⟩ := programEnd_of_ne_nil (List.cons_ne_nil e [])
  exact ⟨e', (bind_of_ok hitems).trans (he' stop' hstop')⟩

theorem program_nil (hstop : stop.kind = .eof) :
    Fails program (· = ⟨.noProgram, stop.span⟩) (.before [] stop []) := by
  have hcloses : Closes .eof (upcoming [] stop) := .inr hstop
  rw [Fails, program_eq, wp_bind, wp_of_ok (items_of_closes hcloses), programEnd, wp_bind, wp_of_ok (expect_eof hstop)]
  exact rfl

theorem program_prospect (hstop : stop.kind = .eof) : Prospect all stop program all (· = .eof) := by
  cases all with
  | nil =>
    have hlate : Late [] stop ⟨.noProgram, stop.span⟩ := .stop nofun nofun
    exact .pending braces_subset hlate (program_nil hstop) program_braces (.inl ⟨_, rfl⟩)
  | cons w ws =>
    have hitems : Prospect (w :: ws) stop (items (statement (expression maxLevels)) .semicolon .eof) (w :: ws)
        (Closes .eof) :=
      items_prospect (k := .statements) hstop (moves_statement maxLevels) (.inr (.inr rfl))
        (fun ws hne hws => statement_prospect hstop (expression_prospect hstop maxLevels) hne hws) List.suffix_rfl
    refine hitems.bind [] (List.nil_subset _) hstop (.inl rfl) (fun k h => .inl h) ?_
      (fun statements h => programEnd_closing (ne_nil_of_reaches h)) fun _ => declines_expect nofun
    intro statements rest hrest hok
    cases rest with
    -- There is a first word, so there is a statement, and the program is not empty.
    | nil => exact (programEnd_closing (ne_nil_of_reaches ⟨[], stop, _, hstop, hok [] stop hstop⟩)).prospect
    | cons x rest => exact prospect_expect hstop (hrest.mem (.head _)) fun h => absurd h x.2

/-- No more words make a program of these. -/
def Hopeless (ws : List Token.Proper) : Prop :=
  ∀ us stop, stop.kind = .eof → Fails program (fun _ => True) (.before (ws ++ us) stop [])

/-- Why the words are no program, and whether more words can mend that. -/
inductive Verdict (all : List Token.Proper) (stop : Token) (e : ParseError) : Prop where
  /-- One of the words is wrong. -/
  | final (he : Final all e) (h : Hopeless all)
  /-- There are no levels for the words that the error asks for. -/
  | exhausted (he : Late all stop e ∨ TooDeep e) (h : Hopeless all)
      (hdeep : ∀ us stop', stop'.kind = .eof → kinds us = way e.problem →
        Fails program TooDeep (.before (all ++ us) stop' []))
  /-- Some words complete the program. -/
  | incomplete {ks : List Kind} (he : Late all stop e) (hks : ks ⊆ fillers) (h : Mends program all ks (· = .eof))
      (hdeep : ∀ us stop', stop'.kind = .eof → kinds us = way e.problem →
        ¬Fails program TooDeep (.before (all ++ us) stop' []))

theorem hopeless_of_fails {E : ParseError → Prop}
    (h : ∀ us stop', stop'.kind = .eof → Fails program E (.before (ws ++ us) stop' [])) : Hopeless ws :=
  fun us stop' hstop' => (h us stop' hstop').mono fun _ _ => trivial

theorem not_fails_of_ok {α : Type} {p : Parser α} {E : ParseError → Prop} {c c' : Cursor} {a : α} (h : p c = .ok a c') :
    ¬Fails p E c := by
  intro hfails
  exact wp_ok hfails h

theorem Fails.unique {α : Type} {p : Parser α} {E E' : ParseError → Prop} {c : Cursor} (h : Fails p E c)
    (h' : Fails p E' c) : ∃ e, E e ∧ E' e := by
  unfold Fails wp at h h'
  split at h
  · exact h.elim
  · next hp =>
    rw [hp] at h'
    exact ⟨_, h, h'⟩

theorem Late.not_tooDeep {e : ParseError} (h : Late all stop e) : ¬TooDeep e := by
  cases h with
  | stop _ h => exact h
  | arrow => exact nofun

/-- Words that are nested too deeply cannot be mended. -/
theorem hopeless_of_tooDeep (hstop : stop.kind = .eof) (h : Fails program TooDeep (.before ws stop [])) :
    Hopeless ws := by
  have hlate {e : ParseError} (he : Late ws stop e) : ¬Fails program (· = e) (.before ws stop []) := by
    intro herror
    obtain ⟨_, rfl, hdeep⟩ := herror.unique h
    exact he.not_tooDeep hdeep
  have h' : Fails program TooDeep (.before (ws ++ []) stop []) := by rwa [List.append_nil]
  cases program_prospect hstop with
  | settled _ hok => exact absurd h' (not_fails_of_ok (hok [] stop hstop))
  | opened hok => exact absurd h' (not_fails_of_ok (hok [] stop hstop hstop))
  | final _ h => exact hopeless_of_fails h
  | tooDeep h => exact hopeless_of_fails h
  | pending _ he herror => exact absurd herror (hlate he)
  | stuck he herror => exact absurd herror (hlate he)

theorem exists_kinds {ks : List Kind} (h : ks ⊆ fillers) : ∃ us : List Token.Proper, kinds us = ks := by
  induction ks with
  | nil => exact ⟨[], rfl⟩
  | cons k ks ih =>
    obtain ⟨hk, hks⟩ := List.cons_subset.1 h
    obtain ⟨us, rfl⟩ := ih hks
    have hne : k ≠ .eof := by
      rintro rfl
      exact absurd hk (by simp [fillers])
    exact ⟨bare k hne :: us, rfl⟩

/-- Where words complete the program, those that the error asks for do not take it too deep. -/
theorem Hint.not_tooDeep {ks : List Kind} {problem : ParseProblem} {us : List Token.Proper}
    (h : Hint program ws ks problem) (hks : ks ⊆ fillers) (hmends : Mends program ws ks (· = .eof))
    (hstop : stop.kind = .eof) (hkinds : kinds us = way problem) :
    ¬Fails program TooDeep (.before (ws ++ us) stop []) := by
  intro hdeep
  rcases h with ⟨ks, rfl⟩ | ⟨rfl, -, hpasses⟩
  · -- More words would complete the program, and they cannot mend what is nested too deeply.
    obtain ⟨us', rfl⟩ := exists_kinds (List.append_subset.1 hks).2
    obtain ⟨a, ha⟩ := hmends (us ++ us') [] stop hstop (by simp [hkinds]) hstop
    rw [List.append_nil, ← List.append_assoc] at ha
    exact not_fails_of_ok ha (hopeless_of_tooDeep hstop hdeep us' stop hstop)
  · -- The program is read up to the arrow.
    obtain ⟨r, us, rfl, hr, hus⟩ := List.map_eq_cons_iff.1 hkinds
    obtain ⟨a, us, rfl, ha, -⟩ := List.map_eq_cons_iff.1 hus
    have hpass := hpasses r a us stop hr ha hstop
    unfold Fails wp at hdeep
    unfold wp at hpass
    split at hdeep
    · exact hdeep
    · next hp =>
      rw [hp] at hpass
      exact hpass hdeep

theorem verdict_of_error {e : ParseError} (hstop : stop.kind = .eof)
    (herror : Fails program (· = e) (.before all stop [])) : Verdict all stop e := by
  have herror' : Fails program (· = e) (.before (all ++ []) stop []) := by rwa [List.append_nil]
  cases program_prospect hstop with
  | settled _ h => exact absurd herror' (not_fails_of_ok (h [] stop hstop))
  | opened h => exact absurd herror' (not_fails_of_ok (h [] stop hstop hstop))
  | final he h =>
    obtain ⟨_, rfl, rfl⟩ := herror'.unique (h [] stop hstop)
    exact .final he (hopeless_of_fails h)
  | tooDeep h =>
    obtain ⟨_, rfl, hdeep⟩ := herror'.unique (h [] stop hstop)
    exact .exhausted (.inr hdeep) (hopeless_of_fails h) fun us stop' hstop' _ => h us stop' hstop'
  | stuck he hstuck h hdeep =>
    obtain ⟨_, rfl, rfl⟩ := herror.unique hstuck
    refine .exhausted (.inl he) h fun us stop' hstop' hkinds => ?_
    have hfails := hdeep us [] stop' hstop' hkinds
    rwa [List.append_nil] at hfails
  | pending hks he hpending hmends hhint =>
    obtain ⟨_, rfl, rfl⟩ := herror.unique hpending
    exact .incomplete he hks hmends fun us stop' hstop' hkinds => hhint.not_tooDeep hks hmends hstop' hkinds

end Programs

end Parser

end ClosureLang
