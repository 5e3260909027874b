import ClosureLang.Proofs.Soundness

/-!
# What is in the grammar is read

On the words of a phrase, a reader gives the tree of the phrase, if it does not give up because of nesting. The proof
follows the derivation. A phrase whose rule has a phrase of the same level on its left is read by the loop over
operators, so the statement about phrases speaks of what is left of the loop: see `Leads`.
-/

namespace ClosureLang

open Token (Kind kinds)

namespace Grammar

/-! ## First and last words -/

/-- A list goes on with the words: there is a first one, and it does not close a list. -/
def Opens : List Kind → Prop
  | [] => False
  | k :: _ => k ≠ .rightParen ∧ k ≠ .rightBrace

/-- The words can be the first ones of an expression. They assign to no name. -/
structure Starts (ks : List Kind) : Prop where
  opens : Opens ks
  not_assigns : ∀ x ks', ks ≠ .identifier x :: .equal :: ks'

theorem Opens.append {ks : List Kind} (h : Opens ks) (ks' : List Kind) : Opens (ks ++ ks') := by
  match ks, h with
  | _ :: _, h => exact h

theorem Starts.append {ks ks' : List Kind} {k : Kind} (h : Starts ks) (hk : k ≠ .equal) : Starts (ks ++ k :: ks') := by
  refine ⟨h.opens.append _, ?_⟩
  match ks, h with
  | [_], _ => simp [hk]
  | k₁ :: k₂ :: ks, ⟨_, hassigns⟩ =>
    intro x ks' heq
    cases heq
    exact hassigns x ks rfl

theorem operator_ne_equal {l : Level} {op : Kind} {function : String} (h : (op, function) ∈ operators l) :
    op ≠ .equal ∧ op ≠ .arrow := by
  have hop := extension?_of_mem_operators h
  constructor <;> rintro rfl <;> cases hop

theorem starts_cons {k : Kind} {ks : List Kind} (hparen : k ≠ .rightParen) (hbrace : k ≠ .rightBrace)
    (hassigns : ∀ x ks', k :: ks ≠ .identifier x :: .equal :: ks') : Starts (k :: ks) :=
  ⟨And.intro hparen hbrace, hassigns⟩

theorem starts_sign {op : Kind} {function : String} (h : (op, function) ∈ signs) (ks : List Kind) :
    Starts (op :: ks) := by
  simp only [signs, List.mem_cons, Prod.mk.injEq, List.not_mem_nil, or_false] at h
  rcases h with ⟨rfl, -⟩ | ⟨rfl, -⟩ <;> apply starts_cons <;> simp

theorem Phrase.starts {l : Level} {e : Ending} {ks : List Kind} {t : Expr} : Phrase l e ks t → Starts ks
  | .tighter h => h.starts
  | .choice h _ _ => h.starts.append (by rintro ⟨⟩)
  | .operator hop h _ => h.starts.append (operator_ne_equal hop).1
  | .call h _ => h.starts.append (by rintro ⟨⟩)
  | .sign hop _ => starts_sign hop _
  | .number | .name | .group _ | .block _ | .lambdaOfName _ | .lambda _ _ =>
    starts_cons (by rintro ⟨⟩) (by rintro ⟨⟩) (by rintro _ _ ⟨⟩)

theorem Item.opens {k : Listing} {ks : List Kind} {t : Expr} : Item k ks t → Opens ks
  | .expression h => h.starts.opens
  | .assignment _ => by simp [Opens]

/-- No phrase goes on with the word, whatever stands before it. -/
structure Ends (k : Kind) : Prop where
  extension? : k.extension? = none
  ne_arrow : k ≠ .arrow
  ne_equal : k ≠ .equal

theorem Ends.follows {k : Kind} (h : Ends k) (l : Level) (e : Ending) : Follows l e k :=
  follows_of_none h.extension?

theorem Ends.stops {k : Kind} (h : Ends k) (above : Precedence) : Stops above k :=
  stops_of_none h.extension?

theorem ends_colon : Ends .colon := ⟨rfl, by simp, by simp⟩

theorem ends_eof : Ends .eof := ⟨rfl, by simp, by simp⟩

theorem ends_separator (k : Listing) : Ends k.separator := by
  cases k <;> constructor <;> simp [Listing.separator, Token.Kind.extension?]

theorem Follows.tighter {l : Level} {e : Ending} {k : Kind} (h : Follows l e k) : Follows l.tighter e k := by
  intro p x hk
  obtain ⟨hp, he⟩ := h p x hk
  refine ⟨Nat.le_trans hp ?_, he⟩
  cases l <;> decide

theorem floor_tighter (l : Level) : l.floor ≤ l.tighter.floor := by
  cases l <;> decide

end Grammar

namespace Parser

open Grammar

/-! ## From place to place -/

section Finds

variable {α β : Type} {P : α → Prop} {P' : β → Prop} {c c' c'' : Cursor}

def TooDeep (e : ParseError) : Prop := e.problem = .nestedTooDeeply

/-- From `c` the reader comes to `c'` with a result that has the property, or it gives up because of nesting. -/
def Finds (p : Parser α) (P : α → Prop) (c c' : Cursor) : Prop :=
  wp p (fun a d => P a ∧ d = c') TooDeep c

theorem finds_pure {a : α} (h : P a) : Finds (pure a) P c c := ⟨h, rfl⟩

theorem Finds.bind {p : Parser α} {f : α → Parser β} (h : Finds p P c c')
    (hf : ∀ a, P a → Finds (f a) P' c' c'') : Finds (p >>= f) P' c c'' := by
  rw [Finds, wp_bind]
  refine wp_mono h ?_ fun _ h => h
  rintro a d ⟨ha, rfl⟩
  exact hf a ha

theorem finds_advance : Finds advance (· = c.current) c c.next := ⟨rfl, rfl⟩

theorem finds_check (kind : Kind) : Finds (check kind) (· = decide (c.current.kind = kind)) c c := ⟨rfl, rfl⟩

theorem finds_expect {kind : Kind} (h : c.current.kind = kind) : Finds (expect kind) (· = c.current) c c.next := by
  rw [Finds, wp_expect, if_pos h]
  exact ⟨rfl, rfl⟩

end Finds

/-! ## Readers of phrases -/

section Readers

variable {sub : Precedence → Parser Expr} {w w' : Token.Proper} {ws : List Token.Proper} {stop : Token}
  {later : List Token} {c' : Cursor}

theorem lambda_finds {c : Cursor} {params : List Expr} {span : Span} {body : Expr}
    (h : Finds (nested sub) (·.shape = body) c c') :
    Finds (lambda sub params span) (·.shape = .lambda .unknown (Expr.shapeAll params) body none none) c c' := by
  refine h.bind ?_
  rintro e rfl
  exact finds_pure rfl

theorem operand_finds_number {value : Float} (hw : w.val.kind = .number value) :
    Finds (operand sub) (·.shape = .number .unknown value) (.before (w :: ws) stop later) (.before ws stop later) := by
  refine finds_advance.bind ?_
  rintro _ rfl
  rw [Cursor.next_before_cons, Cursor.current_before_cons, hw]
  exact finds_pure rfl

theorem operand_finds_name {x : String} (hw : w.val.kind = .identifier x)
    (hnext : (Cursor.before ws stop later).current.kind ≠ .arrow) :
    Finds (operand sub) (·.shape = .name .unknown x none) (.before (w :: ws) stop later) (.before ws stop later) := by
  refine finds_advance.bind ?_
  rintro _ rfl
  rw [Cursor.next_before_cons, Cursor.current_before_cons, hw]
  refine (finds_check _).bind ?_
  rintro _ rfl
  simp only [hnext, decide_false, Bool.false_eq_true, if_false]
  exact finds_pure rfl

theorem operand_finds_lambdaOfName {x : String} {body : Expr} (hw : w.val.kind = .identifier x)
    (hw' : w'.val.kind = .arrow) (h : Finds (nested sub) (·.shape = body) (.before ws stop later) c') :
    Finds (operand sub) (·.shape = .lambda .unknown [.name .unknown x none] body none none)
      (.before (w :: w' :: ws) stop later) c' := by
  refine finds_advance.bind ?_
  rintro _ rfl
  rw [Cursor.next_before_cons, Cursor.current_before_cons, hw]
  refine (finds_check _).bind ?_
  rintro _ rfl
  simp only [Cursor.current_before_cons, hw', decide_true, if_true]
  refine finds_advance.bind ?_
  rintro _ rfl
  rw [Cursor.next_before_cons]
  exact lambda_finds h

theorem operand_finds_sign {function : String} {operand : Expr} (hw : (w.val.kind, function) ∈ signs)
    (h : Finds (sub .unary) (·.shape = operand) (.before ws stop later) c') :
    Finds (Parser.operand sub) (·.shape = operation function [operand]) (.before (w :: ws) stop later) c' := by
  have hunary (function : String) (span : Span) :
      Finds (unary sub function span) (·.shape = operation function [operand]) (.before ws stop later) c' := by
    refine h.bind ?_
    rintro e rfl
    exact finds_pure rfl
  refine finds_advance.bind ?_
  rintro _ rfl
  rw [Cursor.next_before_cons, Cursor.current_before_cons]
  simp only [signs, List.mem_cons, Prod.mk.injEq, List.not_mem_nil, or_false] at hw
  rcases hw with ⟨hw, rfl⟩ | ⟨hw, rfl⟩
  · rw [hw]
    exact hunary _ _
  · rw [hw]
    exact hunary _ _

/-- What stands between parentheses or braces, with what follows the closing one. -/
theorem enclosed_finds {α β : Type} {p : Parser α} {f : α → Token → Parser β} {P : α → Prop} {P' : β → Prop}
    {ws₁ ws₂ : List Token.Proper} {close : Kind} (hw : w.val.kind = close)
    (h : ∀ later, Finds p P (.before ws₁ w.val later) (.before [] w.val later))
    (hf : ∀ a, P a → Finds (f a w.val) P' (.before ws₂ stop later) c') :
    Finds (do let a ← p; let t ← expect close; f a t) P' (.before (ws₁ ++ w :: ws₂) stop later) c' := by
  rw [Cursor.before_append]
  refine (h _).bind ?_
  intro a ha
  refine (finds_expect hw).bind ?_
  rintro _ rfl
  rw [Cursor.next_before_word]
  exact hf a ha

theorem operand_finds_group {ws₁ : List Token.Proper} {e : Expr} (hw : w.val.kind = .leftParen)
    (hw' : w'.val.kind = .rightParen) (hnext : (Cursor.before ws stop later).current.kind ≠ .arrow)
    (h : ∀ later, Finds (arguments sub) (Expr.shapeAll · = [e]) (.before ws₁ w'.val later) (.before [] w'.val later)) :
    Finds (operand sub) (·.shape = e) (.before (w :: (ws₁ ++ w' :: ws)) stop later) (.before ws stop later) := by
  refine finds_advance.bind ?_
  rintro _ rfl
  rw [Cursor.next_before_cons, Cursor.current_before_cons, hw]
  refine enclosed_finds hw' h ?_
  intro inside hinside
  refine (finds_check _).bind ?_
  rintro _ rfl
  simp only [hnext, decide_false, Bool.false_eq_true, if_false]
  rcases inside with - | ⟨e', - | ⟨e'', inside⟩⟩
  · cases hinside
  · exact finds_pure (by simpa [Expr.shapeAll] using hinside)
  · cases hinside

theorem operand_finds_lambda {ws₁ : List Token.Proper} {w'' : Token.Proper} {params : List Expr} {body : Expr}
    (hw : w.val.kind = .leftParen) (hw' : w'.val.kind = .rightParen) (hw'' : w''.val.kind = .arrow)
    (hparams : ∀ later,
      Finds (arguments sub) (Expr.shapeAll · = params) (.before ws₁ w'.val later) (.before [] w'.val later))
    (h : Finds (nested sub) (·.shape = body) (.before ws stop later) c') :
    Finds (operand sub) (·.shape = .lambda .unknown params body none none)
      (.before (w :: (ws₁ ++ w' :: w'' :: ws)) stop later) c' := by
  refine finds_advance.bind ?_
  rintro _ rfl
  rw [Cursor.next_before_cons, Cursor.current_before_cons, hw]
  refine enclosed_finds hw' hparams ?_
  rintro inside rfl
  refine (finds_check _).bind ?_
  rintro _ rfl
  simp only [Cursor.current_before_cons, hw'', decide_true, if_true]
  refine finds_advance.bind ?_
  rintro _ rfl
  rw [Cursor.next_before_cons]
  exact lambda_finds h

theorem operand_finds_block {ws₁ : List Token.Proper} {es : List Expr} (hw : w.val.kind = .leftBrace)
    (hw' : w'.val.kind = .rightBrace)
    (h : ∀ later, Finds (items (statement sub) .semicolon .rightBrace) (Expr.shapeAll · = es)
      (.before ws₁ w'.val later) (.before [] w'.val later)) :
    Finds (operand sub) (·.shape = .block .unknown es) (.before (w :: (ws₁ ++ w' :: ws)) stop later)
      (.before ws stop later) := by
  refine finds_advance.bind ?_
  rintro _ rfl
  rw [Cursor.next_before_cons, Cursor.current_before_cons, hw]
  refine enclosed_finds hw' h ?_
  rintro statements rfl
  exact finds_pure rfl

theorem extend_finds_arguments {ws₁ : List Token.Proper} {left : Expr} {args : List Expr} {p : Precedence}
    (hw' : w'.val.kind = .rightParen)
    (h : ∀ later,
      Finds (arguments sub) (Expr.shapeAll · = args) (.before ws₁ w'.val later) (.before [] w'.val later)) :
    Finds (extend sub left p .arguments) (·.shape = .call .unknown left.shape args)
      (.before (w :: (ws₁ ++ w' :: ws)) stop later) (.before ws stop later) := by
  refine finds_advance.bind ?_
  rintro _ rfl
  rw [Cursor.next_before_cons]
  refine enclosed_finds hw' h ?_
  rintro args rfl
  exact finds_pure rfl

theorem extend_finds_branches {ws₁ : List Token.Proper} {left onTrue onFalse : Expr} {p : Precedence}
    (hw' : w'.val.kind = .colon)
    (hTrue : ∀ later, Finds (nested sub) (·.shape = onTrue) (.before ws₁ w'.val later) (.before [] w'.val later))
    (hFalse : Finds (nested sub) (·.shape = onFalse) (.before ws stop later) c') :
    Finds (extend sub left p .branches) (·.shape = .cond .unknown left.shape onTrue onFalse)
      (.before (w :: (ws₁ ++ w' :: ws)) stop later) c' := by
  refine finds_advance.bind ?_
  rintro _ rfl
  rw [Cursor.next_before_cons]
  refine enclosed_finds hw' hTrue ?_
  rintro onTrue rfl
  refine hFalse.bind ?_
  rintro onFalse rfl
  exact finds_pure rfl

theorem extend_finds_operand {left right : Expr} {p : Precedence} {function : String}
    (h : Finds (sub p) (·.shape = right) (.before ws stop later) c') :
    Finds (extend sub left p (.operand function)) (·.shape = operation function [left.shape, right])
      (.before (w :: ws) stop later) c' := by
  refine finds_advance.bind ?_
  rintro _ rfl
  rw [Cursor.next_before_cons]
  refine h.bind ?_
  rintro right rfl
  exact finds_pure rfl

end Readers

/-! ## The loop over operators -/

section Leads

variable {c c' : Cursor} {above p : Precedence} {t : Expr}

/-- Reading above a precedence comes to the loop over operators at `c'`, with the tree on the left, or gives up because
of nesting. How many levels are left then does not matter. -/
def Leads (above : Precedence) (t : Expr) (c c' : Cursor) : Prop :=
  ∀ n Q, (∀ m left, Expr.shape left = t → wp (extensions m above left) Q TooDeep c') →
    wp (expression n above) Q TooDeep c

theorem Leads.finds (h : Leads above t c c') (hstops : Stops above c'.current.kind) (n : Nat) :
    Finds (expression n above) (·.shape = t) c c' := by
  refine h n _ ?_
  intro m left hleft
  rw [wp_extensions_of_stops hstops]
  exact ⟨hleft, rfl⟩

theorem leads_of_operand (h : ∀ n, Finds (operand (expression n)) (·.shape = t) c c') : Leads above t c c' := by
  intro n Q hQ
  cases n with
  | zero => exact rfl
  | succ n =>
    rw [expression, wp_bind]
    refine wp_mono (h n) ?_ fun _ h => h
    rintro left _ ⟨hleft, rfl⟩
    exact hQ n left hleft

theorem Leads.extend {d : Cursor} {x : Extension} {t' : Expr} (h : Leads above t c d)
    (hnext : d.current.kind.extension? = some (p, x)) (hlt : above < p)
    (hextend : ∀ n left, Expr.shape left = t → Finds (extend (expression n) left p x) (·.shape = t') d c') :
    Leads above t' c c' := by
  intro n Q hQ
  refine h n Q ?_
  intro m left hleft
  rw [wp_extensions_of_operator hnext hlt]
  cases m with
  | zero => exact rfl
  | succ m =>
    refine wp_mono (hextend m left hleft) ?_ fun _ h => h
    rintro longer _ ⟨hlonger, rfl⟩
    exact hQ m longer hlonger

end Leads

/-! ## Lists -/

section Lists

variable {k : Listing} {ws : List Token.Proper} {stop : Token} {later : List Token}

/-- The reader of the items of a list. -/
def item (sub : Precedence → Parser Expr) : Listing → Parser Expr
  | .arguments => nested sub
  | .statements => statement sub

/-- A list goes on where an item starts. -/
theorem separated_finds_item {sub : Precedence → Parser Expr} {close : Kind} {rounds : Nat} {P : List Expr → Prop}
    {c' : Cursor} (hclose : close = .rightParen ∨ close = .rightBrace ∨ close = .eof) (hopens : Opens (kinds ws))
    (h : Finds (do
        let first ← item sub k
        if ← check k.separator then
          let _ ← advance
          let others ← separated (item sub k) k.separator close rounds
          return first :: others
        else return [first]) P (.before ws stop later) c') :
    Finds (separated (item sub k) k.separator close (rounds + 1)) P (.before ws stop later) c' := by
  rw [separated, Finds, wp_bind, wp_peek]
  cases ws with
  | nil => exact hopens.elim
  | cons w ws =>
    obtain ⟨hparen, hbrace⟩ := hopens
    have hne : ¬(w.val.kind = close ∨ w.val.kind = .eof) := by
      rintro (hw | hw)
      · rcases hclose with rfl | rfl | rfl
        · exact hparen hw
        · exact hbrace hw
        · exact w.2 hw
      · exact w.2 hw
    rw [Cursor.current_before_cons, if_neg hne]
    exact h

theorem target?_of_assignment {w w' : Token.Proper} {x : String} (hw : w.val.kind = .identifier x)
    (hw' : w'.val.kind = .equal) : (Cursor.before (w :: w' :: ws) stop later).target? = some x := by
  simp [Cursor.before, Cursor.target?, hw, hw']

theorem target?_of_starts (h : Starts (kinds ws)) (hstop : stop.kind ≠ .equal) :
    (Cursor.before ws stop later).target? = none := by
  match ws, h with
  | [w], _ =>
    simp only [Cursor.before, Cursor.target?, List.map_nil, List.nil_append]
    split
    · next heq =>
      cases heq
      rw [if_neg hstop]
    · rfl
  | w :: w' :: ws, ⟨_, hassigns⟩ =>
    simp only [Cursor.before, Cursor.target?, List.map_cons, List.cons_append]
    split
    · next x t _ hw heq =>
      cases heq
      rw [if_neg fun hw' => hassigns x (kinds ws) (by simp [hw, hw'])]
    · rfl

theorem item_finds_assignment {sub : Precedence → Parser Expr} {w w' : Token.Proper} {x : String} {value : Expr}
    {c' : Cursor} (hw : w.val.kind = .identifier x) (hw' : w'.val.kind = .equal)
    (h : Finds (nested sub) (·.shape = value) (.before ws stop later) c') :
    Finds (item sub .statements) (·.shape = .assign .unknown x (value.labelled x) none)
      (.before (w :: w' :: ws) stop later) c' := by
  rw [item, statement, Finds, wp_bind, wp_get, target?_of_assignment hw hw']
  refine finds_advance.bind ?_
  rintro _ rfl
  rw [Cursor.next_before_cons]
  refine (finds_expect hw').bind ?_
  rintro _ rfl
  rw [Cursor.next_before_cons]
  refine h.bind ?_
  rintro value rfl
  exact finds_pure (by rw [Expr.shape, Expr.shape_labelled])

theorem item_finds_expression {sub : Precedence → Parser Expr} {t : Expr} {c' : Cursor} (hstarts : Starts (kinds ws))
    (hstop : stop.kind ≠ .equal) (h : Finds (nested sub) (·.shape = t) (.before ws stop later) c') :
    Finds (item sub k) (·.shape = t) (.before ws stop later) c' := by
  cases k with
  | arguments => exact h
  | statements =>
    rw [item, statement, Finds, wp_bind, wp_get, target?_of_starts hstarts hstop]
    exact h

end Lists

/-! ## Derivations -/

theorem kinds_eq_append_cons {ws : List Token.Proper} {ks ks' : List Kind} {k : Kind} (h : kinds ws = ks ++ k :: ks') :
    ∃ ws₁ w ws₂, ws = ws₁ ++ w :: ws₂ ∧ kinds ws₁ = ks ∧ w.val.kind = k ∧ kinds ws₂ = ks' := by
  obtain ⟨ws₁, ws', rfl, h₁, h'⟩ := List.map_eq_append_iff.1 h
  obtain ⟨w, ws₂, rfl, hw, h₂⟩ := List.map_eq_cons_iff.1 h'
  exact ⟨ws₁, w, ws₂, rfl, h₁, hw, h₂⟩

theorem kinds_eq_cons {ws : List Token.Proper} {ks : List Kind} {k : Kind} (h : kinds ws = k :: ks) :
    ∃ w ws', ws = w :: ws' ∧ w.val.kind = k ∧ kinds ws' = ks :=
  List.map_eq_cons_iff.1 h

theorem items_finds {sub : Precedence → Parser Expr} {k : Listing} {close : Kind} {P : List Expr → Prop}
    {ws : List Token.Proper} {stop : Token} {later : List Token} {c' : Cursor}
    (h : ∀ rounds, ws.length < rounds →
      Finds (separated (item sub k) k.separator close rounds) P (.before ws stop later) c') :
    Finds (items (item sub k) k.separator close) P (.before ws stop later) c' := by
  refine h _ ?_
  cases ws with
  | nil => exact Nat.succ_pos _
  | cons w ws =>
    simp only [Cursor.before, List.length_cons, List.length_append, List.length_map]
    omega

theorem ends_of_closing {k : Kind} (h : k = .rightParen ∨ k = .rightBrace ∨ k = .eof) : Ends k := by
  rcases h with rfl | rfl | rfl <;> constructor <;> simp [Token.Kind.extension?]

mutual

/-- The words of a phrase lead to its tree. The induction is on the derivation; only the loop over operators, which
`Leads` leaves open, knows what comes after the words. -/
theorem phrase_leads {l : Level} {e : Ending} {ks : List Kind} {t : Expr} :
    Phrase l e ks t → ∀ (above : Precedence) (ws : List Token.Proper) (stop : Token) (later : List Token),
      kinds ws = ks → above ≤ l.floor → Follows l e stop.kind → stop.kind ≠ .arrow →
        Leads above t (.before ws stop later) (.before [] stop later)
  | .tighter h => by
    intro above ws stop later hws habove hfollows harrow
    exact phrase_leads h above ws stop later hws (Nat.le_trans habove (floor_tighter _)) hfollows.tighter harrow
  | .choice hTest hTrue hFalse => by
    intro above ws stop later hwords habove hfollows harrow
    obtain ⟨ws, w, ws', rfl, hws, hw, hws'⟩ := kinds_eq_append_cons hwords
    obtain ⟨ws₁, w', ws₂, rfl, hws₁, hw', hws₂⟩ := kinds_eq_append_cons hws'
    -- The question mark extends the test, which the loop has on its left.
    have hextension : w.val.kind.extension? = some (.choice, .branches) := by rw [hw, Kind.extension?]
    have hcolon : Ends w'.val.kind := hw' ▸ ends_colon
    rw [Cursor.before_append]
    refine (phrase_leads hTest above ws w.val _ hws ?_ ?_ ?_).extend hextension ?_ ?_
    · exact Nat.le_trans habove (by decide)
    · intro p x hp
      cases hextension.symm.trans hp
      decide
    · simp [hw]
    · exact Nat.lt_succ_of_le habove
    · rintro n left rfl
      refine extend_finds_branches hw' ?_ ?_
      · intro later
        exact (phrase_leads hTrue .lowest ws₁ w'.val later hws₁ (Nat.le_refl _) (hcolon.follows _ _)
          hcolon.ne_arrow).finds (hcolon.stops _) n
      · exact (phrase_leads hFalse .lowest ws₂ stop later hws₂ (Nat.le_refl _) hfollows harrow).finds
          (fun p x hp => (hfollows p x hp).1) n
  | .operator hop hLeft hRight => by
    intro above ws stop later hwords habove hfollows harrow
    obtain ⟨ws₁, w, ws₂, rfl, hws₁, hw, hws₂⟩ := kinds_eq_append_cons hwords
    have hextension := hw ▸ extension?_of_mem_operators hop
    rw [Cursor.before_append]
    refine (phrase_leads hLeft above ws₁ w.val _ hws₁ habove ?_ ?_).extend hextension ?_ ?_
    · intro p x hp
      cases hextension.symm.trans hp
      exact ⟨Nat.le_refl _, rfl⟩
    · rw [hw]
      exact (operator_ne_equal hop).2
    · exact Nat.lt_of_lt_of_eq (Nat.lt_succ_of_le habove) (floor_of_mem_operators hop).1.symm
    · -- The right operand is read above the operator and leaves the next one of the level to the loop.
      rintro n left rfl
      refine extend_finds_operand ?_
      exact (phrase_leads hRight _ ws₂ stop later hws₂ (floor_of_mem_operators hop).2.1 hfollows.tighter harrow).finds
        (fun p x hp => (hfollows p x hp).1) n
  | .sign hop h => by
    intro above ws stop later hwords habove hfollows harrow
    obtain ⟨w, ws, rfl, hw, hws⟩ := kinds_eq_cons hwords
    refine leads_of_operand fun n => operand_finds_sign (hw ▸ hop) ?_
    exact (phrase_leads h .unary ws stop later hws (Nat.le_refl _) hfollows harrow).finds
      (fun p x hp => (hfollows p x hp).1) n
  | .call hCallee hArgs => by
    intro above ws stop later hwords habove hfollows harrow
    obtain ⟨ws₁, w, ws', rfl, hws₁, hw, hws'⟩ := kinds_eq_append_cons hwords
    obtain ⟨ws₂, w', ws₃, rfl, hws₂, hw', hws₃⟩ := kinds_eq_append_cons hws'
    obtain rfl : ws₃ = [] := List.map_eq_nil_iff.1 hws₃
    have hextension : w.val.kind.extension? = some (.call, .arguments) := by rw [hw, Kind.extension?]
    rw [Cursor.before_append]
    refine (phrase_leads hCallee above ws₁ w.val _ hws₁ habove ?_ ?_).extend hextension ?_ ?_
    · exact follows_closed rfl _
    · simp [hw]
    · exact Nat.lt_succ_of_le habove
    · rintro n left rfl
      exact extend_finds_arguments hw' fun later => items_finds fun rounds hrounds =>
        separated_finds hArgs n rounds ws₂ w'.val later _ hws₂ hw' (.inl rfl) hrounds
  | .number => by
    intro above ws stop later hwords habove hfollows harrow
    obtain ⟨w, ws, rfl, hw, hws⟩ := kinds_eq_cons hwords
    obtain rfl : ws = [] := List.map_eq_nil_iff.1 hws
    exact leads_of_operand fun n => operand_finds_number hw
  | .name => by
    intro above ws stop later hwords habove hfollows harrow
    obtain ⟨w, ws, rfl, hw, hws⟩ := kinds_eq_cons hwords
    obtain rfl : ws = [] := List.map_eq_nil_iff.1 hws
    exact leads_of_operand fun n => operand_finds_name hw harrow
  | .group h => by
    intro above ws stop later hwords habove hfollows harrow
    obtain ⟨w, ws', rfl, hw, hws'⟩ := kinds_eq_cons hwords
    obtain ⟨ws, w', ws'', rfl, hws, hw', hws''⟩ := kinds_eq_append_cons hws'
    obtain rfl : ws'' = [] := List.map_eq_nil_iff.1 hws''
    exact leads_of_operand fun n => operand_finds_group hw hw' harrow fun later => items_finds fun rounds hrounds =>
      separated_finds h n rounds ws w'.val later _ hws hw' (.inl rfl) hrounds
  | .block h => by
    intro above ws stop later hwords habove hfollows harrow
    obtain ⟨w, ws', rfl, hw, hws'⟩ := kinds_eq_cons hwords
    obtain ⟨ws, w', ws'', rfl, hws, hw', hws''⟩ := kinds_eq_append_cons hws'
    obtain rfl : ws'' = [] := List.map_eq_nil_iff.1 hws''
    exact leads_of_operand fun n => operand_finds_block hw hw' fun later => items_finds fun rounds hrounds =>
      separated_finds h n rounds ws w'.val later _ hws hw' (.inr (.inl rfl)) hrounds
  | .lambdaOfName h => by
    intro above ws stop later hwords habove hfollows harrow
    obtain ⟨w, ws', rfl, hw, hws'⟩ := kinds_eq_cons hwords
    obtain ⟨w', ws, rfl, hw', hws⟩ := kinds_eq_cons hws'
    -- The body takes every operator, so that none can come after the lambda.
    have hends := extension?_of_follows_lambda hfollows
    refine leads_of_operand fun n => operand_finds_lambdaOfName hw hw' ?_
    exact (phrase_leads h .lowest ws stop later hws (Nat.le_refl _) (follows_of_none hends) harrow).finds
      (stops_of_none hends) n
  | .lambda hParams h => by
    intro above ws stop later hwords habove hfollows harrow
    obtain ⟨w, ws', rfl, hw, hws'⟩ := kinds_eq_cons hwords
    obtain ⟨ws₁, w', ws'', rfl, hws₁, hw', hws''⟩ := kinds_eq_append_cons hws'
    obtain ⟨w'', ws₂, rfl, hw'', hws₂⟩ := kinds_eq_cons hws''
    have hends := extension?_of_follows_lambda hfollows
    refine leads_of_operand fun n => operand_finds_lambda hw hw' hw'' ?_ ?_
    · exact fun later => items_finds fun rounds hrounds =>
        separated_finds hParams n rounds ws₁ w'.val later _ hws₁ hw' (.inl rfl) hrounds
    · exact (phrase_leads h .lowest ws₂ stop later hws₂ (Nat.le_refl _) (follows_of_none hends) harrow).finds
        (stops_of_none hends) n

theorem item_finds {k : Listing} {ks : List Kind} {t : Expr} :
    Item k ks t → ∀ (n : Nat) (ws : List Token.Proper) (stop : Token) (later : List Token),
      kinds ws = ks → Ends stop.kind →
        Finds (item (expression n) k) (·.shape = t) (.before ws stop later) (.before [] stop later)
  | .expression h => by
    intro n ws stop later hws hends
    refine item_finds_expression (hws ▸ h.starts) hends.ne_equal ?_
    exact (phrase_leads h .lowest ws stop later hws (Nat.le_refl _) (hends.follows _ _) hends.ne_arrow).finds
      (hends.stops _) n
  | .assignment h => by
    intro n ws stop later hws hends
    obtain ⟨w, ws', rfl, hw, hws'⟩ := kinds_eq_cons hws
    obtain ⟨w', ws, rfl, hw', hws⟩ := kinds_eq_cons hws'
    refine item_finds_assignment hw hw' ?_
    exact (phrase_leads h .lowest ws stop later hws (Nat.le_refl _) (hends.follows _ _) hends.ne_arrow).finds
      (hends.stops _) n

theorem separated_finds {k : Listing} {ks : List Kind} {ts : List Expr} :
    Items k ks ts → ∀ (n rounds : Nat) (ws : List Token.Proper) (stop : Token) (later : List Token) (close : Kind),
      kinds ws = ks → stop.kind = close → (close = .rightParen ∨ close = .rightBrace ∨ close = .eof) →
        ws.length < rounds →
          Finds (separated (item (expression n) k) k.separator close rounds) (Expr.shapeAll · = ts)
            (.before ws stop later) (.before [] stop later)
  | .nil => by
    intro n rounds ws stop later close hws hstop hclose hrounds
    obtain rfl : ws = [] := List.map_eq_nil_iff.1 hws
    cases rounds with
    | zero => exact finds_pure rfl
    | succ rounds =>
      rw [separated, Finds, wp_bind, wp_peek, if_pos (.inl hstop)]
      exact finds_pure rfl
  | .last h => by
    intro n rounds ws stop later close hws hstop hclose hrounds
    have hends := ends_of_closing hclose
    obtain ⟨rounds, rfl⟩ : ∃ m, rounds = m + 1 := ⟨rounds - 1, by omega⟩
    refine separated_finds_item hclose (hws ▸ h.opens) ?_
    refine (item_finds h n ws stop later hws (hstop ▸ hends)).bind ?_
    rintro e rfl
    refine (finds_check _).bind ?_
    rintro _ rfl
    -- What closes the list is no separator, so the list ends here.
    have hne : stop.kind ≠ k.separator := by
      rw [hstop]
      rcases hclose with rfl | rfl | rfl <;> cases k <;> decide
    simp only [Cursor.current_before_nil, hne, decide_false, Bool.false_eq_true, if_false]
    exact finds_pure rfl
  | .more h hs => by
    intro n rounds ws stop later close hwords hstop hclose hrounds
    obtain ⟨ws₁, w, ws₂, rfl, hws₁, hw, hws₂⟩ := kinds_eq_append_cons hwords
    obtain ⟨rounds, rfl⟩ : ∃ m, rounds = m + 1 := ⟨rounds - 1, by omega⟩
    refine separated_finds_item hclose (hwords ▸ h.opens.append _) ?_
    rw [Cursor.before_append]
    refine (item_finds h n ws₁ w.val _ hws₁ (hw ▸ ends_separator k)).bind ?_
    rintro e rfl
    refine (finds_check _).bind ?_
    rintro _ rfl
    simp only [Cursor.current_before_nil, hw, decide_true, if_true]
    refine finds_advance.bind ?_
    rintro _ rfl
    rw [Cursor.next_before_word]
    -- The separator is one of the words, so a round less is enough for the others.
    have hrounds : ws₂.length < rounds := by
      simp only [List.length_append, List.length_cons] at hrounds
      omega
    refine (separated_finds hs n rounds ws₂ stop later close hws₂ hstop hclose hrounds).bind ?_
    rintro es rfl
    exact finds_pure rfl

end

/-- A program of the grammar is read. -/
theorem program_finds {ws : List Token.Proper} {stop : Token} {t : Expr} (hstop : stop.kind = .eof)
    (h : Grammar.Program (kinds ws) t) : Finds program (·.shape = t) (.before ws stop []) (.before [] stop []) := by
  have hitems {ts : List Expr} (h : Items .statements (kinds ws) ts) :
      Finds (items (statement (expression maxLevels)) .semicolon .eof) (Expr.shapeAll · = ts) (.before ws stop [])
        (.before [] stop []) :=
    items_finds (k := .statements) fun rounds hrounds =>
      separated_finds h maxLevels rounds ws stop [] _ rfl hstop (.inr (.inr rfl)) hrounds
  cases h with
  | single h =>
    refine (hitems h).bind ?_
    intro statements hstatements
    refine (finds_expect hstop).bind ?_
    rintro _ rfl
    rw [Cursor.next_before_nil hstop]
    rcases statements with - | ⟨e, - | ⟨e', statements⟩⟩
    · cases hstatements
    · exact finds_pure (by simpa [Expr.shapeAll] using hstatements)
    · cases hstatements
  | several h =>
    refine (hitems h).bind ?_
    intro statements hstatements
    refine (finds_expect hstop).bind ?_
    rintro _ rfl
    rw [Cursor.next_before_nil hstop]
    rcases statements with - | ⟨first, - | ⟨second, others⟩⟩
    · cases hstatements
    · cases hstatements
    · exact finds_pure (by rw [Expr.shape, hstatements])

/-! ## Programs -/

/-- What the reader of programs comes to is what tokens spell. -/
theorem ofTokens_outcome {ws : List Token.Proper} {stop : Token} {Q : Expr → Cursor → Prop} {E : ParseError → Prop}
    (h : wp program Q E (.before ws stop [])) :
    (∃ e c, Expr.ofTokens (ws.map (·.val) ++ [stop]) = .ok e ∧ Q e c) ∨
      ∃ e, Expr.ofTokens (ws.map (·.val) ++ [stop]) = .error e ∧ E e := by
  rw [Expr.ofTokens, Cursor.ofTokens?_before]
  rw [wp] at h
  dsimp only
  split at h
  · next e c hprogram =>
    rw [hprogram]
    exact .inl ⟨e, c, rfl, h⟩
  · next e c hprogram =>
    rw [hprogram]
    exact .inr ⟨e, rfl, h⟩

end Parser

/-- Tokens with one end spell exactly the programs of the grammar, where nesting is no obstacle. -/
theorem Expr.ofTokens_iff_program (tokens : List Token) (stop : Token) (t : Expr)
    (hproper : ∀ token ∈ tokens, token.kind ≠ .eof) (hstop : stop.kind = .eof)
    (hdeep : ∀ e, Expr.ofTokens (tokens ++ [stop]) = .error e → e.problem ≠ .nestedTooDeeply) :
    (∃ e, Expr.ofTokens (tokens ++ [stop]) = .ok e ∧ e.shape = t) ↔ Grammar.Program (tokens.map (·.kind)) t := by
  obtain ⟨ws, rfl⟩ : ∃ ws : List Token.Proper, ws.map (·.val) = tokens :=
    ⟨tokens.attachWith _ hproper, List.attachWith_map_subtype_val hproper⟩
  have hkinds : (ws.map (·.val)).map (·.kind) = kinds ws := List.map_map
  rw [hkinds]
  constructor
  · rintro ⟨e, he, rfl⟩
    rcases Parser.ofTokens_outcome (Parser.program_reads hstop ws) with ⟨e', c, he', h⟩ | ⟨_, he', -⟩
    · cases he.symm.trans he'
      exact h
    · cases he.symm.trans he'
  · intro h
    rcases Parser.ofTokens_outcome (Parser.program_finds hstop h) with ⟨e, c, he, hshape, -⟩ | ⟨e, he, htooDeep⟩
    · exact ⟨e, he, hshape⟩
    · exact absurd htooDeep (hdeep e he)

/-- The words of `f = (x, y,) -> -x(y) * 2 + g -> g ? x : y; {f}`. Both lambdas reach up to the semicolon. -/
def greedyLambda : List Token :=
  [.identifier "f", .equal, .leftParen, .identifier "x", .comma, .identifier "y", .comma, .rightParen, .arrow,
    .minus, .identifier "x", .leftParen, .identifier "y", .rightParen, .star, .number 2, .plus,
    .identifier "g", .arrow, .identifier "g", .question, .identifier "x", .colon, .identifier "y", .semicolon,
    .leftBrace, .identifier "f", .rightBrace].map (⟨·, .unknown⟩)

theorem Expr.ofTokens_iff_program_greedyLambda :
    let x (name : String) : Expr := .name .unknown name none
    let product := Grammar.operation "mul"
      [Grammar.operation "neg" [.call .unknown (x "x") [x "y"]], .number .unknown 2]
    let choice := Expr.lambda .unknown [x "g"] (.cond .unknown (x "g") (x "x") (x "y")) none none
    let tree := Expr.block .unknown
      [.assign .unknown "f"
        (.lambda .unknown [x "x", x "y"] (Grammar.operation "add" [product, choice]) none (some "f")) none,
      .block .unknown [x "f"]]
    Expr.ofTokens (greedyLambda ++ [⟨.eof, .unknown⟩]) = .ok tree ∧
      Grammar.Program (greedyLambda.map (·.kind)) tree := by
  intro x product choice tree
  have hparsed : Expr.ofTokens (greedyLambda ++ [⟨.eof, .unknown⟩]) = .ok tree := by cbv
  refine ⟨hparsed, (Expr.ofTokens_iff_program greedyLambda ⟨.eof, .unknown⟩ _ (by decide) rfl ?_).1 ⟨_, hparsed, rfl⟩⟩
  intro e he
  cases hparsed.symm.trans he

end ClosureLang
