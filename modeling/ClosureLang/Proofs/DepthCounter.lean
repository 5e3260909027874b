import ClosureLang.Proofs.Reading

/-!
# Counting levels

The levels of nested expressions can also be counted: a reader keeps a count of the open levels, adds one for every
operand and every operator, and puts the count back when an expression ends, well or not. Its loops have no bound: each
round is a call of its own. The calls that are open at a time are bounded by some fuel. A reader ends if its result is
the same from some fuel on, and a loop or a recursion that did not end would have no result at all.

Every call of such a reader ends, whatever the tokens are. The limit on levels bounds the recursion and the loop over
operators. The loops over statements and arguments go on only after a separator. No item starts with one, so the reader
has moved on by then, also where the last token is seen again and again. The results are those of the readers that are
told how many levels are left.
-/

namespace ClosureLang

open Token (Kind)

/-- A place among tokens, and the number of levels that are open there. -/
structure Counted where
  cursor : Cursor
  depth : Nat

/-- A reader that counts levels. It has no result at all if it does not end, and an error keeps the place and the count
where it was found. -/
abbrev Counting (α : Type) := ExceptT ParseError (StateT Counted Option) α

namespace Counting

/-! ## Readers that count -/

/-- A result with a count. -/
def counted {α : Type} (depth : Nat) : EStateM.Result ParseError Cursor α → Except ParseError α × Counted
  | .ok a c => (.ok a, ⟨c, depth⟩)
  | .error e c => (.error e, ⟨c, depth⟩)

/-- A reader that leaves the count alone. -/
def lift {α : Type} (p : Parser α) : Counting α := fun s => some (counted s.depth (p s.cursor))

def peek : Counting Token := lift Parser.peek

def advance : Counting Token := lift Parser.advance

def check (kind : Kind) : Counting Bool := lift (Parser.check kind)

def expect (kind : Kind) : Counting Token := lift (Parser.expect kind)

def fail {α : Type} (problem : ParseProblem) (span : Span) : Counting α := lift (Parser.fail problem span)

/-- A reader that has run out of fuel. -/
def stuck {α : Type} : Counting α := fun _ => none

/-- Opens a level. -/
def nest : Counting Unit := do
  modify fun s => { s with depth := s.depth + 1 }
  if (← get).depth > Parser.maxLevels then fail .nestedTooDeeply (← peek).span

/-- What is read in rounds, with separators between. -/
inductive Item where
  | statement
  | argument

def Item.separator : Item → Kind
  | statement => .semicolon
  | argument => .comma

mutual

/-- An expression whose operators bind tighter than `above`. -/
def expression : (fuel : Nat) → (above : Precedence) → Counting Expr
  | 0, _ => stuck
  | fuel + 1, above => fun s => do
    let (result, s') ← level fuel above s
    return (result, { s' with depth := s.depth })

/-- The same, with the levels of the operand and the operators left open. -/
def level : (fuel : Nat) → (above : Precedence) → Counting Expr
  | 0, _ => stuck
  | fuel + 1, above => do
    nest
    let left ← operand fuel
    operators fuel above left

def operators : (fuel : Nat) → (above : Precedence) → (left : Expr) → Counting Expr
  | 0, _, _ => stuck
  | fuel + 1, above, left => do
    match (← peek).kind.extension? with
    | none => return left
    | some (precedence, extension) =>
      if precedence ≤ above then return left
      else
        nest
        let longer ← extend fuel left precedence extension
        operators fuel above longer

def item : (fuel : Nat) → (kind : Item) → Counting Expr
  | 0, _ => stuck
  | fuel + 1, .argument => expression fuel .lowest
  | fuel + 1, .statement => do
    match (← get).cursor.target? with
    | some x =>
      let target ← advance
      let _ ← expect .equal
      let value ← expression fuel .lowest
      return .assign (target.span.through value.span) x (value.labelled x) none
    | none => expression fuel .lowest

def items : (fuel : Nat) → (kind : Item) → (close : Kind) → Counting (List Expr)
  | 0, _, _ => stuck
  | fuel + 1, kind, close => do
    let next ← peek
    if next.kind = close ∨ next.kind = .eof then return []
    let first ← item fuel kind
    if ← check kind.separator then
      let _ ← advance
      let others ← items fuel kind close
      return first :: others
    else return [first]

def lambda : (fuel : Nat) → (params : List Expr) → (start : Span) → Counting Expr
  | 0, _, _ => stuck
  | fuel + 1, params, start => do
    let body ← expression fuel .lowest
    return .lambda (start.through body.span) params body none none

def group : (fuel : Nat) → (start : Span) → Counting Expr
  | 0, _ => stuck
  | fuel + 1, start => do
    let inside ← items fuel .argument .rightParen
    let close ← expect .rightParen
    if ← check .arrow then
      let _ ← advance
      lambda fuel inside start
    else
      match inside with
      | [e] => return e
      | _ => fail .missingArrow (start.through close.span)

def unary : (fuel : Nat) → (function : String) → (operator : Span) → Counting Expr
  | 0, _, _ => stuck
  | fuel + 1, function, operator => do
    let operand ← expression fuel .unary
    return .call (operator.through operand.span) (.name operator function none) [operand]

def block : (fuel : Nat) → (start : Span) → Counting Expr
  | 0, _ => stuck
  | fuel + 1, start => do
    let statements ← items fuel .statement .rightBrace
    let close ← expect .rightBrace
    return .block (start.through close.span) statements

def operand : (fuel : Nat) → Counting Expr
  | 0 => stuck
  | fuel + 1 => do
    let token ← advance
    match token.kind with
    | .number value => return .number token.span value
    | .identifier x =>
      if ← check .arrow then
        let _ ← advance
        lambda fuel [.name token.span x none] token.span
      else return .name token.span x none
    | .minus => unary fuel "neg" token.span
    | .bang => unary fuel "not" token.span
    | .leftParen => group fuel token.span
    | .leftBrace => block fuel token.span
    | .eof => fail .endOfInput token.span
    | found => fail (.noExpression found) token.span

def extend : (fuel : Nat) → (left : Expr) → (precedence : Precedence) → (extension : Extension) → Counting Expr
  | 0, _, _, _ => stuck
  | fuel + 1, left, _, .arguments => do
    let _ ← advance
    let args ← items fuel .argument .rightParen
    let close ← expect .rightParen
    return .call (left.span.through close.span) left args
  | fuel + 1, left, _, .branches => do
    let _ ← advance
    let onTrue ← expression fuel .lowest
    let _ ← expect .colon
    let onFalse ← expression fuel .lowest
    return .cond (left.span.through onFalse.span) left onTrue onFalse
  | fuel + 1, left, precedence, .operand function => do
    let operator ← advance
    let right ← expression fuel precedence
    return .call (left.span.through right.span) (.name operator.span function none) [left, right]

end

def program (fuel : Nat) : Counting Expr := do
  let statements ← items fuel .statement .eof
  let _ ← expect .eof
  match statements with
  | [] => fail .noProgram (← peek).span
  | [e] => return e
  | first :: others => return .block (first.span.through (others.getLastD first).span) statements

open Classical in
/-- The result that a reader has from some fuel on. There is none if it does not end. -/
noncomputable def eventually {α : Type} (q : Nat → Counting α) : Counting α := fun s =>
  if h : ∃ result bound, ∀ fuel ≥ bound, q fuel s = some result then some h.choose else none

theorem eventually_eq {α : Type} {q : Nat → Counting α} {s : Counted} {result : Except ParseError α × Counted}
    {bound : Nat} (h : ∀ fuel ≥ bound, q fuel s = some result) : eventually q s = some result := by
  have hexists : ∃ result bound, ∀ fuel ≥ bound, q fuel s = some result := ⟨result, bound, h⟩
  obtain ⟨bound', hchosen⟩ := hexists.choose_spec
  have hsame := (hchosen (max bound bound') (le_max_right ..)).symm.trans (h _ (le_max_left ..))
  rw [eventually, dif_pos hexists, hsame]

end Counting

/-! ## Moving on -/

/-- The second place is the first one or comes after it. -/
def Cursor.Reaches (c c' : Cursor) : Prop := c'.current :: c'.rest <:+ c.current :: c.rest

namespace Cursor

variable {c c' c'' : Cursor}

theorem reaches_refl (c : Cursor) : c.Reaches c := List.suffix_rfl

theorem Reaches.trans (h : c.Reaches c') (h' : c'.Reaches c'') : c.Reaches c'' := List.IsSuffix.trans h' h

theorem reaches_next (c : Cursor) : c.Reaches c.next := by
  unfold next
  split
  · exact reaches_refl c
  · split
    · exact reaches_refl c
    · next hrest =>
      rw [Reaches, hrest]
      exact List.suffix_cons _ _

theorem Reaches.length_le (h : c.Reaches c') : c'.rest.length ≤ c.rest.length :=
  Nat.le_of_succ_le_succ (List.IsSuffix.length_le h)

/-- With another token next, fewer tokens are left. -/
theorem Reaches.length_lt (h : c.Reaches c') (hne : c'.current ≠ c.current) : c'.rest.length < c.rest.length := by
  refine lt_of_le_of_ne h.length_le fun hlength => hne ?_
  have htokens : c'.current :: c'.rest = c.current :: c.rest :=
    List.IsSuffix.eq_of_length h (congrArg (· + 1) hlength)
  exact (List.cons.inj htokens).1

end Cursor

namespace Counting

/-! ## Agreement -/

section Agreement

variable {α β : Type} {depth : Nat} {F : Nat → Prop} {c : Cursor} {q : Nat → Counting α} {p : Parser α}

/-- From the place, with the count and enough fuel, the reader that counts ends with a count in `F` and otherwise like
the other reader, which does not go back. -/
structure EndsLike (depth : Nat) (F : Nat → Prop) (c : Cursor) (q : Nat → Counting α) (p : Parser α) : Prop where
  ends : ∃ depth' bound, F depth' ∧ ∀ fuel ≥ bound, q fuel ⟨c, depth⟩ = some (counted depth' (p c))
  reaches : ∀ {a c'}, p c = .ok a c' → c.Reaches c'

/-- The count is left as it was. -/
abbrev Agrees (depth : Nat) (c : Cursor) (q : Nat → Counting α) (p : Parser α) : Prop :=
  EndsLike depth (· = depth) c q p

/-- The count is left somewhere. -/
abbrev Ends (depth : Nat) (c : Cursor) (q : Nat → Counting α) (p : Parser α) : Prop :=
  EndsLike depth (fun _ => True) c q p

theorem Agrees.toEnds (h : Agrees depth c q p) : Ends depth c q p := by
  obtain ⟨⟨depth', bound, -, hq⟩, hreaches⟩ := h
  exact ⟨⟨depth', bound, trivial, hq⟩, hreaches⟩

theorem Agrees.eventually_eq (h : Agrees depth c q p) : eventually q ⟨c, depth⟩ = some (counted depth (p c)) := by
  obtain ⟨depth', bound, rfl, hq⟩ := h.ends
  exact Counting.eventually_eq hq

/-- A call takes one from the fuel. -/
theorem EndsLike.of_succ (h : EndsLike depth F c (fun fuel => q (fuel + 1)) p) : EndsLike depth F c q p := by
  obtain ⟨⟨depth', bound, hF, hq⟩, hreaches⟩ := h
  refine ⟨⟨depth', bound + 1, hF, fun fuel hfuel => ?_⟩, hreaches⟩
  obtain ⟨fuel, rfl⟩ := Nat.exists_eq_add_of_le' (Nat.one_le_of_lt hfuel)
  exact hq fuel (Nat.le_of_succ_le_succ hfuel)

theorem agrees_lift (h : Parser.wp p (fun _ c' => c.Reaches c') (fun _ => True) c) :
    Agrees depth c (fun _ => lift p) p :=
  ⟨⟨depth, 0, rfl, fun _ _ => rfl⟩, Parser.wp_ok h⟩

theorem agrees_pure (a : α) : Agrees depth c (fun _ => pure a) (pure a) :=
  ⟨⟨depth, 0, rfl, fun _ _ => rfl⟩, fun h => by cases h; exact c.reaches_refl⟩

theorem agrees_fail (problem : ParseProblem) (span : Span) :
    Agrees depth c (fun _ => (fail problem span : Counting α)) (Parser.fail problem span) :=
  agrees_lift trivial

theorem bind_of_ok {q : Counting α} {g : α → Counting β} {a : α} {s s' : Counted} (h : q s = some (.ok a, s')) :
    (q >>= g) s = g a s' := by
  change ((q s).bind fun r => ExceptT.bindCont g r.1 r.2) = _
  rw [h]
  rfl

theorem bind_of_error {q : Counting α} {g : α → Counting β} {e : ParseError} {s s' : Counted}
    (h : q s = some (.error e, s')) : (q >>= g) s = some (.error e, s') := by
  change ((q s).bind fun r => ExceptT.bindCont g r.1 r.2) = _
  rw [h]
  rfl

/-- The first of two readers leaves the count as it was, also when it fails. -/
theorem Agrees.bindTo (hF : F depth) (hq : Agrees depth c q p) {g : Nat → α → Counting β} {f : α → Parser β}
    (hg : ∀ a c', p c = .ok a c' → c.Reaches c' → EndsLike depth F c' (fun fuel => g fuel a) (f a)) :
    EndsLike depth F c (fun fuel => q fuel >>= g fuel) (p >>= f) := by
  obtain ⟨⟨depth', bound, hdepth, hq⟩, hreaches⟩ := hq
  subst depth'
  cases hp : p c with
  | ok a c' =>
    rw [hp] at hq
    have hc' := hreaches hp
    obtain ⟨⟨depth', bound', hF', hg⟩, hreaches'⟩ := hg a c' hp hc'
    have hpf : (p >>= f) c = f a c' := Parser.bind_of_ok hp
    refine ⟨⟨depth', max bound bound', hF', fun fuel hfuel => ?_⟩, fun h => hc'.trans (hreaches' (hpf ▸ h))⟩
    rw [bind_of_ok (hq fuel (le_of_max_le_left hfuel)), hpf, hg fuel (le_of_max_le_right hfuel)]
  | error e c' =>
    -- The second reader is not reached, and the count is still the one of the first.
    rw [hp] at hq
    have hpf : (p >>= f) c = .error e c' := Parser.bind_of_error hp
    refine ⟨⟨depth, bound, hF, fun fuel hfuel => ?_⟩, fun h => ?_⟩
    · rw [bind_of_error (hq fuel hfuel), hpf]
      rfl
    · rw [hpf] at h
      cases h

theorem Agrees.bind (hq : Agrees depth c q p) {g : Nat → α → Counting β} {f : α → Parser β}
    (hg : ∀ a c', p c = .ok a c' → c.Reaches c' → Agrees depth c' (fun fuel => g fuel a) (f a)) :
    Agrees depth c (fun fuel => q fuel >>= g fuel) (p >>= f) := hq.bindTo (F := (· = depth)) rfl hg

end Agreement

/-! ## Tokens -/

section Tokens

variable {α : Type} {depth : Nat} {F : Nat → Prop} {c : Cursor}

theorem agrees_advance : Agrees depth c (fun _ => advance) Parser.advance :=
  agrees_lift c.reaches_next

theorem agrees_expect (kind : Kind) : Agrees depth c (fun _ => expect kind) (Parser.expect kind) := by
  refine agrees_lift ?_
  rw [Parser.wp_expect]
  split
  · exact c.reaches_next
  · trivial

theorem agrees_get {g : Nat → Counted → Counting α} {f : Cursor → Parser α}
    (h : EndsLike depth F c (fun fuel => g fuel ⟨c, depth⟩) (f c)) :
    EndsLike depth F c (fun fuel => get >>= g fuel) (get >>= f) :=
  ⟨h.ends, h.reaches⟩

/-- Looking at the next token changes nothing. -/
theorem agrees_peek {g : Nat → Token → Counting α} {f : Token → Parser α}
    (h : EndsLike depth F c (fun fuel => g fuel c.current) (f c.current)) :
    EndsLike depth F c (fun fuel => peek >>= g fuel) (Parser.peek >>= f) :=
  ⟨h.ends, h.reaches⟩

theorem agrees_check {kind : Kind} {g : Nat → Bool → Counting α} {f : Bool → Parser α}
    (h : EndsLike depth F c (fun fuel => g fuel (c.current.kind = kind)) (f (c.current.kind = kind))) :
    EndsLike depth F c (fun fuel => check kind >>= g fuel) (Parser.check kind >>= f) :=
  ⟨h.ends, h.reaches⟩

theorem nest_eq (c : Cursor) (depth : Nat) :
    nest ⟨c, depth⟩ =
      if depth + 1 > Parser.maxLevels then
        some (.error ⟨.nestedTooDeeply, c.current.span⟩, ⟨c, depth + 1⟩)
      else some (.ok (), ⟨c, depth + 1⟩) := by
  have hnest : nest ⟨c, depth⟩ =
      (if depth + 1 > Parser.maxLevels then do fail .nestedTooDeeply (← peek).span else pure ()) ⟨c, depth + 1⟩ := rfl
  rw [hnest]
  split <;> rfl

/-- A new level is one of those that are left. -/
theorem Ends.nest {q : Nat → Counting α} {p : Parser α} (h : depth < Parser.maxLevels)
    (hq : Ends (depth + 1) c q p) : Ends depth c (fun fuel => nest >>= fun _ => q fuel) p := by
  obtain ⟨⟨depth', bound, -, hq⟩, hreaches⟩ := hq
  refine ⟨⟨depth', bound, trivial, fun fuel hfuel => ?_⟩, hreaches⟩
  rw [bind_of_ok (by rw [nest_eq, if_neg (Nat.not_lt.2 h)]), hq fuel hfuel]

theorem ends_tooDeep {q : Nat → Counting Expr} (h : Parser.maxLevels ≤ depth) :
    Ends depth c (fun fuel => nest >>= fun _ => q fuel) Parser.tooDeep := by
  refine ⟨⟨depth + 1, 0, trivial, fun fuel _ => ?_⟩, nofun⟩
  rw [bind_of_error (by rw [nest_eq, if_pos (Nat.lt_succ_of_le h)])]
  rfl

end Tokens

/-! ## Expressions -/

/-- The reader of an item, without a count. -/
def Item.reader (sub : Precedence → Parser Expr) : Item → Parser Expr
  | statement => Parser.statement sub
  | argument => Parser.nested sub

section Nested

variable {depth : Nat} {c : Cursor} {sub : Precedence → Parser Expr}
  (hsub : ∀ above c, Agrees depth c (expression · above) (sub above))
  (hitem : ∀ kind : Item, ∀ {c e c'}, kind.reader sub c = .ok e c' → c.current.kind ≠ kind.separator)

section

include hsub

theorem item_agrees (kind : Item) (c : Cursor) : Agrees depth c (item · kind) (kind.reader sub) := by
  apply EndsLike.of_succ
  cases kind with
  | argument =>
    simp only [item]
    exact hsub .lowest c
  | statement =>
    simp only [item]
    refine agrees_get ?_
    dsimp only
    cases c.target? with
    | none => exact hsub .lowest c
    | some x =>
      refine agrees_advance.bind fun target c₁ _ _ => ?_
      refine (agrees_expect .equal).bind fun _ c₂ _ _ => ?_
      refine (hsub .lowest c₂).bind fun value c₃ _ _ => ?_
      exact agrees_pure _

theorem lambda_agrees (params : List Expr) (start : Span) (c : Cursor) :
    Agrees depth c (lambda · params start) (Parser.lambda sub params start) := by
  apply EndsLike.of_succ
  simp only [lambda]
  exact (hsub .lowest c).bind fun body c₁ _ _ => agrees_pure _

theorem unary_agrees (function : String) (operator : Span) (c : Cursor) :
    Agrees depth c (unary · function operator) (Parser.unary sub function operator) := by
  apply EndsLike.of_succ
  simp only [unary]
  exact (hsub .unary c).bind fun operand c₁ _ _ => agrees_pure _

end

include hsub hitem

/-- A round that is not the last one uses up tokens, because no item starts with a separator. So there are enough rounds
for all that the loop without a bound reads. -/
theorem separated_agrees (kind : Item) (close : Kind) (rounds : Nat) (c : Cursor) (hrounds : c.rest.length < rounds) :
    Agrees depth c (items · kind close) (Parser.separated (kind.reader sub) kind.separator close rounds) := by
  induction rounds generalizing c with
  | zero => exact absurd hrounds (Nat.not_lt_zero _)
  | succ rounds ih =>
    apply EndsLike.of_succ
    simp only [items]
    rw [Parser.separated]
    refine agrees_peek ?_
    split
    · exact agrees_pure _
    · refine (item_agrees hsub kind c).bind fun first c₁ hfirst hc₁ => ?_
      refine agrees_check ?_
      split
      · next hseparator =>
        -- The item did not start with a separator, and one comes now.
        have hne : c₁.current ≠ c.current := by
          intro hsame
          exact hitem kind hfirst (hsame ▸ of_decide_eq_true hseparator)
        refine agrees_advance.bind fun _ c₂ _ hc₂ => ?_
        have hlt : c₂.rest.length < rounds :=
          calc c₂.rest.length ≤ c₁.rest.length := hc₂.length_le
            _ < c.rest.length := hc₁.length_lt hne
            _ ≤ rounds := Nat.le_of_lt_succ hrounds
        refine (ih c₂ hlt).bind fun others c₃ _ _ => ?_
        exact agrees_pure _
      · exact agrees_pure _

theorem items_agrees (kind : Item) (close : Kind) (c : Cursor) :
    Agrees depth c (items · kind close) (Parser.items (kind.reader sub) kind.separator close) := by
  have h := separated_agrees hsub hitem kind close (c.rest.length + 1) c (Nat.lt_succ_self _)
  exact ⟨h.ends, h.reaches⟩

theorem group_agrees (start : Span) (c : Cursor) :
    Agrees depth c (group · start) (Parser.group sub start) := by
  apply EndsLike.of_succ
  simp only [group]
  refine (items_agrees hsub hitem .argument .rightParen c).bind fun inside c₁ _ _ => ?_
  refine (agrees_expect .rightParen).bind fun close c₂ _ _ => ?_
  refine agrees_check ?_
  split
  · exact agrees_advance.bind fun _ c₃ _ _ => lambda_agrees hsub inside start c₃
  · match inside with
    | [] => exact agrees_fail _ _
    | [e] => exact agrees_pure e
    | _ :: _ :: _ => exact agrees_fail _ _

theorem block_agrees (start : Span) (c : Cursor) :
    Agrees depth c (block · start) (Parser.block sub start) := by
  apply EndsLike.of_succ
  simp only [block]
  refine (items_agrees hsub hitem .statement .rightBrace c).bind fun statements c₁ _ _ => ?_
  refine (agrees_expect .rightBrace).bind fun close c₂ _ _ => ?_
  exact agrees_pure _

theorem operand_agrees (c : Cursor) : Agrees depth c operand (Parser.operand sub) := by
  apply EndsLike.of_succ
  simp only [operand]
  refine agrees_advance.bind fun token c₁ _ _ => ?_
  cases token.kind with
  | number value => exact agrees_pure _
  | identifier x =>
    refine agrees_check ?_
    split
    · exact agrees_advance.bind fun _ c₂ _ _ => lambda_agrees hsub _ _ c₂
    · exact agrees_pure _
  | minus => exact unary_agrees hsub _ _ c₁
  | bang => exact unary_agrees hsub _ _ c₁
  | leftParen => exact group_agrees hsub hitem _ c₁
  | leftBrace => exact block_agrees hsub hitem _ c₁
  | _ => exact agrees_fail _ _

theorem extend_agrees (left : Expr) (p : Precedence) (x : Extension) (c : Cursor) :
    Agrees depth c (extend · left p x) (Parser.extend sub left p x) := by
  apply EndsLike.of_succ
  cases x with
  | arguments =>
    simp only [extend]
    refine agrees_advance.bind fun _ c₁ _ _ => ?_
    refine (items_agrees hsub hitem .argument .rightParen c₁).bind fun args c₂ _ _ => ?_
    refine (agrees_expect .rightParen).bind fun close c₃ _ _ => ?_
    exact agrees_pure _
  | branches =>
    simp only [extend]
    refine agrees_advance.bind fun _ c₁ _ _ => ?_
    refine (hsub .lowest c₁).bind fun onTrue c₂ _ _ => ?_
    refine (agrees_expect .colon).bind fun _ c₃ _ _ => ?_
    refine (hsub .lowest c₃).bind fun onFalse c₄ _ _ => ?_
    exact agrees_pure _
  | operand function =>
    simp only [extend]
    refine agrees_advance.bind fun operator c₁ _ _ => ?_
    refine (hsub p c₁).bind fun right c₂ _ _ => ?_
    exact agrees_pure _

end Nested

/-! ## Separators start nothing -/

theorem expression_of_separator {c : Cursor} (kind : Item) (h : c.current.kind = kind.separator) (n : Nat)
    (above : Precedence) : ∃ error c', Parser.expression n above c = .error error c' := by
  cases n with
  | zero =>
    rw [Parser.expression]
    exact ⟨_, _, rfl⟩
  | succ n =>
    have hoperand : ∃ error c', Parser.operand (Parser.expression n) c = .error error c' := by
      have hadvance : Parser.advance c = .ok c.current c.next := rfl
      rw [Parser.operand, Parser.bind_of_ok hadvance, h]
      cases kind <;> exact ⟨_, _, rfl⟩
    obtain ⟨error, c', herror⟩ := hoperand
    rw [Parser.expression]
    exact ⟨error, c', Parser.bind_of_error herror⟩

theorem separator_of_item {n : Nat} (kind : Item) {c : Cursor} {e : Expr} {c' : Cursor}
    (h : kind.reader (Parser.expression n) c = .ok e c') : c.current.kind ≠ kind.separator := by
  intro hkind
  obtain ⟨error, c'', herror⟩ := expression_of_separator kind hkind n .lowest
  have hreader : kind.reader (Parser.expression n) c = Parser.expression n .lowest c := by
    cases kind with
    | argument => rfl
    | statement =>
      have htarget : c.target? = none := by simp [Cursor.target?, hkind, Item.separator]
      exact Parser.statement_of_none htarget
  rw [hreader, herror] at h
  cases h

/-! ## Levels -/

/-- With `n` levels left, expressions are read alike. -/
def AllAgree (n : Nat) : Prop :=
  ∀ depth, Parser.maxLevels - depth = n → ∀ above c, Agrees depth c (expression · above) (Parser.expression n above)

/-- One round of the loop over operators. -/
theorem operators_round {n depth : Nat} {above : Precedence} {left : Expr} {c : Cursor}
    (hround : ∀ p x, Ends depth c (fun fuel => do nest; let longer ← extend fuel left p x; operators fuel above longer)
      (match n with
        | 0 => Parser.tooDeep
        | n + 1 => do
          let longer ← Parser.extend (Parser.expression n) left p x
          Parser.extensions n above longer)) :
    Ends depth c (operators · above left) (Parser.extensions n above left) := by
  apply EndsLike.of_succ
  simp only [operators]
  rw [Parser.extensions]
  refine agrees_peek ?_
  cases c.current.kind.extension? with
  | none => exact (agrees_pure left).toEnds
  | some px =>
    dsimp only
    split
    · exact (agrees_pure left).toEnds
    · exact hround px.1 px.2

theorem operators_ends {n depth : Nat} (hn : Parser.maxLevels - depth = n) (hsub : ∀ m < n, AllAgree m)
    (above : Precedence) (left : Expr) (c : Cursor) :
    Ends depth c (operators · above left) (Parser.extensions n above left) := by
  -- Each operator takes a level, so the levels that are left bound the rounds.
  induction n generalizing depth left c with
  | zero => exact operators_round fun p x => ends_tooDeep (Nat.sub_eq_zero_iff_le.1 hn)
  | succ n ih =>
    have hn' : Parser.maxLevels - (depth + 1) = n := by omega
    refine operators_round fun p x => Ends.nest (by omega) ?_
    have hextend := extend_agrees (hsub n (Nat.lt_succ_self n) (depth + 1) hn') separator_of_item left p x c
    refine hextend.bindTo (F := fun _ => True) trivial fun longer c' _ _ => ?_
    exact ih hn' (fun m hm => hsub m (Nat.lt_succ_of_lt hm)) longer c'

theorem level_ends {n depth : Nat} (hn : Parser.maxLevels - depth = n) (hsub : ∀ m < n, AllAgree m)
    (above : Precedence) (c : Cursor) : Ends depth c (level · above) (Parser.expression n above) := by
  apply EndsLike.of_succ
  simp only [level]
  cases n with
  | zero =>
    rw [Parser.expression]
    exact ends_tooDeep (Nat.sub_eq_zero_iff_le.1 hn)
  | succ n =>
    have hn' : Parser.maxLevels - (depth + 1) = n := by omega
    rw [Parser.expression]
    refine Ends.nest (by omega) ?_
    have hoperand := operand_agrees (hsub n (Nat.lt_succ_self n) (depth + 1) hn') separator_of_item c
    refine hoperand.bindTo (F := fun _ => True) trivial fun left c' _ _ => ?_
    exact operators_ends hn' (fun m hm => hsub m (Nat.lt_succ_of_lt hm)) above left c'

/-- The count is put back, wherever the levels have left it. -/
theorem Ends.restore {depth : Nat} {above : Precedence} {c : Cursor} {p : Parser Expr}
    (h : Ends depth c (level · above) p) : Agrees depth c (expression · above) p := by
  obtain ⟨⟨depth', bound, -, hlevel⟩, hreaches⟩ := h
  refine .of_succ ⟨⟨depth, bound, rfl, fun fuel hfuel => ?_⟩, hreaches⟩
  rw [expression]
  beta_reduce
  rw [hlevel fuel hfuel]
  cases p c <;> rfl

theorem allAgree (n : Nat) : AllAgree n := by
  -- What follows the k-th operator has k levels fewer, so all smaller numbers of levels are needed.
  induction n using Nat.strongRecOn with
  | ind n ih => exact fun depth hn above c => (level_ends hn ih above c).restore

end Counting

/-! ## Calls -/

/-- A program, with so many levels for each statement. -/
def Parser.programWithin (levels : Nat) : Parser Expr := do
  let statements ← items (statement (expression levels)) .semicolon .eof
  let _ ← expect .eof
  match statements with
  | [] => fail .noProgram (← peek).span
  | [e] => return e
  | first :: others => return .block (first.span.through (others.getLastD first).span) statements

namespace Counting

theorem program_agrees (depth : Nat) (c : Cursor) :
    Agrees depth c program (Parser.programWithin (Parser.maxLevels - depth)) := by
  have hitems := items_agrees (allAgree _ depth rfl) separator_of_item .statement .eof c
  refine hitems.bind fun statements c₁ _ _ => ?_
  refine (agrees_expect .eof).bind fun _ c₂ _ _ => ?_
  match statements with
  | [] => exact agrees_peek (agrees_fail _ _)
  | [e] => exact agrees_pure e
  | _ :: _ :: _ => exact agrees_pure _

/-- What a reader is asked for. -/
inductive Call where
  | program
  | expression

namespace Call

/-- Reading with a count. -/
noncomputable def run : Call → Counting Expr
  | program => eventually Counting.program
  | expression => eventually (Counting.expression · .lowest)

/-- Reading without a count. -/
def reader : Call → Parser Expr
  | program => Parser.program
  | expression => Parser.anExpression

/-- Reading without a count, with so many levels. -/
def readerWithin (levels : Nat) : Call → Parser Expr
  | program => Parser.programWithin levels
  | expression => Parser.expression levels .lowest

theorem readerWithin_maxLevels : readerWithin Parser.maxLevels = reader := by
  funext call
  cases call <;> rfl

/-- Calls one after the other. Each goes on from where the one before it ended, well or not. -/
noncomputable def runAll : List Call → Counted → Option (List (Except ParseError Expr × Counted))
  | [], _ => some []
  | call :: calls, s => do
    let answer ← call.run s
    let answers ← runAll calls answer.2
    return answer :: answers

/-- The same without a count. -/
def readAll (reader : Call → Parser Expr) : List Call → Cursor → List (Except ParseError Expr × Cursor)
  | [], _ => []
  | call :: calls, c =>
    match reader call c with
    | .ok e c' => (.ok e, c') :: readAll reader calls c'
    | .error error c' => (.error error, c') :: readAll reader calls c'

theorem length_readAll (reader : Call → Parser Expr) (calls : List Call) (c : Cursor) :
    (readAll reader calls c).length = calls.length := by
  induction calls generalizing c with
  | nil => rfl
  | cons call calls ih =>
    rw [readAll]
    split
    · exact congrArg (· + 1) (ih _)
    · exact congrArg (· + 1) (ih _)

/-- A call ends with the count it began with. -/
theorem run_eq (call : Call) (depth : Nat) (c : Cursor) :
    call.run ⟨c, depth⟩ = some (counted depth (call.readerWithin (Parser.maxLevels - depth) c)) := by
  cases call with
  | program => exact (program_agrees depth c).eventually_eq
  | expression => exact (allAgree _ depth rfl .lowest c).eventually_eq

theorem runAll_eq (calls : List Call) (depth : Nat) (c : Cursor) :
    runAll calls ⟨c, depth⟩ =
      some ((readAll (readerWithin (Parser.maxLevels - depth)) calls c).map fun a => (a.1, ⟨a.2, depth⟩)) := by
  induction calls generalizing c with
  | nil => rfl
  | cons call calls ih =>
    have hcall := call.run_eq depth c
    simp only [runAll, readAll, Bind.bind, Option.bind, hcall]
    cases call.readerWithin (Parser.maxLevels - depth) c with
    | ok e c' =>
      simp only [counted, ih, List.map_cons]
      rfl
    | error error c' =>
      simp only [counted, ih, List.map_cons]
      rfl

/-- Every call of a reader that counts levels ends, on whatever tokens and after whatever calls, with a tree or an
error, and leaves the count as it was. From the count zero on, the results and places are those of the readers without a
count. -/
theorem runAll_ends (calls : List Call) (s : Counted) :
    ∃ answers, runAll calls s = some answers ∧ answers.length = calls.length ∧ (∀ a ∈ answers, a.2.depth = s.depth) ∧
      (s.depth = 0 → answers.map (fun a => (a.1, a.2.cursor)) = readAll reader calls s.cursor) := by
  obtain ⟨c, depth⟩ := s
  refine ⟨_, runAll_eq calls depth c, ?_, ?_, ?_⟩
  · rw [List.length_map, length_readAll]
  · intro a ha
    obtain ⟨_, -, rfl⟩ := List.mem_map.1 ha
    rfl
  · rintro rfl
    rw [List.map_map, Nat.sub_zero, readerWithin_maxLevels]
    exact List.map_id _

end Call

end Counting

end ClosureLang
