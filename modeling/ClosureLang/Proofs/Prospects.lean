import ClosureLang.Proofs.Nesting

/-!
# What more words can do

A reader that stands at the end of its words would go on if more words came. `Prospect` says what can become of it: the
result is certain, or an error is, or the next word decides, or the reader waits for words that the lemmas name. The
rules of this module follow the way readers are put together, down to lists of items.
-/

namespace ClosureLang

open Token (Kind kinds)

namespace Parser

open Grammar

/-! ## Errors -/

/-- A word begins at the offset. -/
def Begins (all : List Token.Proper) (offset : Nat) : Prop := ∃ w ∈ all, w.val.span.start = offset

/-- An error about one of the words, which more words cannot mend. A list of parameters without an arrow is such an
error if a word follows the list. -/
inductive Final (all : List Token.Proper) : ParseError → Prop where
  | word {problem : ParseProblem} {w : Token.Proper} (hw : w ∈ all) (h : problem ≠ .missingArrow) :
      Final all ⟨problem, w.val.span⟩
  | arrow {span : Span} {xs ys : List Token.Proper} {w y : Token.Proper} (hstart : Begins all span.start)
      (hall : all = xs ++ w :: y :: ys) (hstop : w.val.span.stop = span.stop) : Final all ⟨.missingArrow, span⟩

/-- An error about the end of the words. A list of parameters without an arrow is such an error if it is the end. -/
inductive Late (all : List Token.Proper) (stop : Token) : ParseError → Prop where
  | stop {problem : ParseProblem} (harrow : problem ≠ .missingArrow) (hdeep : problem ≠ .nestedTooDeeply) :
      Late all stop ⟨problem, stop.span⟩
  | arrow {span : Span} {xs : List Token.Proper} {w : Token.Proper} (hstart : Begins all span.start)
      (hall : all = xs ++ [w]) (hstop : w.val.span.stop = span.stop) : Late all stop ⟨.missingArrow, span⟩

/-- The parenthesis and the arrow that an error about the end asks for. -/
def way : ParseProblem → List Kind
  | .missingArrow => [.arrow]
  | .expected .rightParen .eof => [.rightParen, .arrow]
  | _ => []

/-- The words that complete what is unfinished. An empty block stands for every expression. -/
def fillers : List Kind := [.leftBrace, .rightBrace, .rightParen, .arrow, .colon]

theorem braces_subset : [.leftBrace, .rightBrace] ⊆ fillers := by
  simp [fillers]

/-! ## Prospects -/

section Prospects

variable {α β : Type}

/-- The reader comes to no result, and its error is in `E`. -/
def Fails (p : Parser α) (E : ParseError → Prop) (c : Cursor) : Prop := wp p (fun _ _ => False) E c

theorem Fails.bind {p : Parser β} {f : β → Parser α} {E : ParseError → Prop} {c : Cursor} (h : Fails p E c) :
    Fails (p >>= f) E c := by
  rw [Fails, wp_bind]
  exact wp_mono h (fun _ _ h => h.elim) fun _ h => h

theorem Fails.mono {p : Parser α} {E E' : ParseError → Prop} {c : Cursor} (h : Fails p E c) (hE : ∀ e, E e → E' e) :
    Fails p E' c :=
  wp_mono h (fun _ _ h => h) hE

theorem ok_of_wp {p : Parser α} {c c' : Cursor} {a : α} (h : wp p (fun b d => b = a ∧ d = c') (fun _ => False) c) :
    p c = .ok a c' := by
  obtain ⟨_, _, hp, rfl, rfl⟩ := exists_ok_of_wp h
  exact hp

/-- The kind of the token that comes next. -/
abbrev upcoming (us : List Token.Proper) (stop : Token) : Kind := (Cursor.before us stop []).current.kind

/-- After these words, words of the kinds `ks` complete what the reader reads, if one of `N` comes then. -/
def Mends (p : Parser α) (ws : List Token.Proper) (ks : List Kind) (N : Kind → Prop) : Prop :=
  ∀ us more stop, stop.kind = .eof → kinds us = ks → N (upcoming more stop) →
    ∃ a, p (.before (ws ++ (us ++ more)) stop []) = .ok a (.before more stop [])

/-- After these words, a closing parenthesis and an arrow do not take the reader too deep: it stops before the arrow,
if it does not fail for another reason. -/
def Passes (p : Parser α) (ws : List Token.Proper) : Prop :=
  ∀ r a us stop, r.val.kind = .rightParen → a.val.kind = .arrow → stop.kind = .eof →
    wp p (fun _ c => c = .before (a :: us) stop []) (fun e => ¬TooDeep e) (.before (ws ++ r :: a :: us) stop [])

/-- An arrow does not take the reader too deep. -/
def Declines (p : Parser α) : Prop :=
  ∀ a us stop, a.val.kind = .arrow → stop.kind = .eof →
    wp p (fun _ c => c = .before (a :: us) stop []) (fun e => ¬TooDeep e) (.before (a :: us) stop [])

/-- The words that complete what the reader reads begin with those that the error asks for, or these words do not take
the reader too deep. -/
def Hint (p : Parser α) (ws : List Token.Proper) (ks : List Kind) (problem : ParseProblem) : Prop :=
  (∃ ks', ks = way problem ++ ks') ∨
    problem = .expected .rightParen .eof ∧ (∃ ks', ks = .rightParen :: ks') ∧ Passes p ws

/-- What can become of a reader that has the words `ws`, the last ones of `all`, before it. -/
inductive Prospect (all : List Token.Proper) (stop : Token) (p : Parser α) (ws : List Token.Proper)
    (N : Kind → Prop) : Prop where
  /-- The result is certain, whatever comes. -/
  | settled {a : α} {rest : List Token.Proper} (hrest : rest <:+ ws)
      (h : ∀ us stop', stop'.kind = .eof → p (.before (ws ++ us) stop' []) = .ok a (.before (rest ++ us) stop' []))
  /-- The error is certain, whatever comes. -/
  | final {e : ParseError} (he : Final all e)
      (h : ∀ us stop', stop'.kind = .eof → Fails p (· = e) (.before (ws ++ us) stop' []))
  /-- The words are nested too deeply, whatever comes. -/
  | tooDeep (h : ∀ us stop', stop'.kind = .eof → Fails p TooDeep (.before (ws ++ us) stop' []))
  /-- The result is certain if one of `N` comes. -/
  | opened {a : α} (h : ∀ us stop', stop'.kind = .eof → N (upcoming us stop') →
      p (.before (ws ++ us) stop' []) = .ok a (.before us stop' []))
  /-- The words do not suffice, and some words complete them. -/
  | pending {e : ParseError} {ks : List Kind} (hks : ks ⊆ fillers) (he : Late all stop e)
      (herror : Fails p (· = e) (.before ws stop [])) (hmends : Mends p ws ks N) (hhint : Hint p ws ks e.problem)
  /-- The words do not suffice, and no words complete them. -/
  | stuck {e : ParseError} (he : Late all stop e) (herror : Fails p (· = e) (.before ws stop []))
      (h : ∀ us stop', stop'.kind = .eof → Fails p (fun _ => True) (.before (ws ++ us) stop' []))
      (hdeep : ∀ us more stop', stop'.kind = .eof → kinds us = way e.problem →
        Fails p TooDeep (.before (ws ++ (us ++ more)) stop' []))

/-- How a reader without words closes what others have read. It gives its result at once, or it waits for `ks`. -/
inductive Closing (all : List Token.Proper) (stop : Token) (q : Parser α) (N : Kind → Prop) : List Kind → Prop where
  | silent {a : α} (h : ∀ us stop', stop'.kind = .eof → N (upcoming us stop') →
      q (.before us stop' []) = .ok a (.before us stop' [])) : Closing all stop q N []
  | late {e : ParseError} {ks : List Kind} (hks : ks ⊆ fillers) (he : Late all stop e)
      (herror : Fails q (· = e) (.before [] stop [])) (hmends : Mends q [] ks N) (hhint : Hint q [] ks e.problem) :
      Closing all stop q N ks

/-- Words of the kinds `ks`, or a word of `N` if there are none, begin with a word of `M`. -/
def Heads (M N : Kind → Prop) : List Kind → Prop
  | [] => ∀ k, N k → M k
  | k :: _ => M k

variable {all ws rest : List Token.Proper} {stop : Token} {N N' : Kind → Prop}

theorem Heads.upcoming {ks : List Kind} {us more : List Token.Proper} (h : Heads N N' ks) (hkinds : kinds us = ks)
    (hnext : N' (upcoming more stop)) : N (upcoming (us ++ more) stop) := by
  subst hkinds
  cases us with
  | nil => exact h _ hnext
  | cons u us => exact h

theorem Closing.prospect {q : Parser α} {ks : List Kind} (h : Closing all stop q N ks) : Prospect all stop q [] N := by
  cases h with
  | silent h => exact .opened h
  | late hks he herror hmends hhint => exact .pending hks he herror hmends hhint

/-- A reader that has read some words certainly has the prospects of what it does then. -/
theorem Prospect.of_eq {p q : Parser α} (h : Prospect all stop q rest N) (hstop : stop.kind = .eof)
    (hrest : rest <:+ ws)
    (heq : ∀ us stop', stop'.kind = .eof → p (.before (ws ++ us) stop' []) = q (.before (rest ++ us) stop' [])) :
    Prospect all stop p ws N := by
  have hwp {Q : α → Cursor → Prop} {E : ParseError → Prop} (us : List Token.Proper) {stop' : Token}
      (hstop' : stop'.kind = .eof) (h : wp q Q E (.before (rest ++ us) stop' [])) :
      wp p Q E (.before (ws ++ us) stop' []) := by
    unfold wp
    rw [heq us stop' hstop']
    exact h
  -- The case of no more words, where the end is that of `all`.
  have hnil {E : ParseError → Prop} (h : Fails q E (.before rest stop [])) : Fails p E (.before ws stop []) := by
    have hfails := hwp [] hstop (by rwa [List.append_nil])
    rwa [List.append_nil] at hfails
  cases h with
  | @settled a rest' hrest' h =>
    exact .settled (hrest'.trans hrest) fun us stop' hstop' => (heq us stop' hstop').trans (h us stop' hstop')
  | final he h => exact .final he fun us stop' hstop' => hwp us hstop' (h us stop' hstop')
  | tooDeep h => exact .tooDeep fun us stop' hstop' => hwp us hstop' (h us stop' hstop')
  | opened h =>
    exact .opened fun us stop' hstop' hnext => (heq us stop' hstop').trans (h us stop' hstop' hnext)
  | pending hks he herror hmends hhint =>
    refine .pending hks he (hnil herror) ?_ (hhint.imp_right fun ⟨hproblem, hparen, hpasses⟩ => ⟨hproblem, hparen, ?_⟩)
    · intro us more stop' hstop' hkinds hnext
      rw [heq _ stop' hstop']
      exact hmends us more stop' hstop' hkinds hnext
    · intro r a us stop' hr ha hstop'
      exact hwp _ hstop' (hpasses r a us stop' hr ha hstop')
  | stuck he herror h hdeep =>
    exact .stuck he (hnil herror) (fun us stop' hstop' => hwp us hstop' (h us stop' hstop'))
      fun us more stop' hstop' hkinds => hwp _ hstop' (hdeep us more stop' hstop' hkinds)

/-- The reader can come to this result on these words and more. -/
def Reaches (p : Parser α) (ws : List Token.Proper) (a : α) : Prop :=
  ∃ us stop c, stop.kind = .eof ∧ p (.before (ws ++ us) stop []) = .ok a c

/-- The words that the first reader waits for come first, then those of the second one. -/
theorem Mends.bind {p : Parser β} {f : β → Parser α} {ks ks' : List Kind} (h : Mends p ws ks N)
    (hheads : Heads N N' ks') (hclosing : ∀ b, Reaches p ws b → Closing all stop (f b) N' ks') :
    Mends (p >>= f) ws (ks ++ ks') N' := by
  intro us more stop' hstop' hkinds hnext
  obtain ⟨us₁, us₂, rfl, hkinds₁, hkinds₂⟩ := List.map_eq_append_iff.1 hkinds
  obtain ⟨b, hb⟩ := h us₁ (us₂ ++ more) stop' hstop' hkinds₁ (hheads.upcoming hkinds₂ hnext)
  have hclose := hclosing b ⟨us₁ ++ (us₂ ++ more), stop', _, hstop', hb⟩
  rw [List.append_assoc, bind_of_ok hb]
  cases hclose with
  | @silent a hsilent =>
    obtain rfl : us₂ = [] := List.map_eq_nil_iff.1 hkinds₂
    exact ⟨a, hsilent more stop' hstop' hnext⟩
  | late _ _ _ hmends _ => exact hmends us₂ more stop' hstop' hkinds₂ hnext

theorem Hint.bind {p : Parser β} {f : β → Parser α} {ks : List Kind} {problem : ParseProblem} (h : Hint p ws ks problem)
    (ks' : List Kind) (hdeclines : ∀ b, Declines (f b)) : Hint (p >>= f) ws (ks ++ ks') problem := by
  rcases h with ⟨ks'', rfl⟩ | ⟨hproblem, ⟨ks'', rfl⟩, hpasses⟩
  · exact .inl ⟨ks'' ++ ks', List.append_assoc _ _ _⟩
  · refine .inr ⟨hproblem, ⟨ks'' ++ ks', rfl⟩, fun r a us stop' hr ha hstop' => ?_⟩
    rw [wp_bind]
    refine wp_mono (hpasses r a us stop' hr ha hstop') ?_ fun _ h => h
    rintro b _ rfl
    exact hdeclines b a us stop' ha hstop'

/-- A reader at the end of its words hands over to one that closes. -/
theorem Closing.bind {p : Parser β} {f : β → Parser α} {ks : List Kind} {b : β} (h : Closing all stop (f b) N' ks)
    (hstop : stop.kind = .eof) (hN : N .eof) (hheads : Heads N N' ks)
    (hp : ∀ us stop', stop'.kind = .eof → N (upcoming us stop') →
      p (.before (ws ++ us) stop' []) = .ok b (.before us stop' [])) : Prospect all stop (p >>= f) ws N' := by
  cases h with
  | @silent a hsilent =>
    refine .opened (a := a) fun us stop' hstop' hnext => ?_
    have hnext' : N (upcoming us stop') := hheads _ hnext
    rw [bind_of_ok (hp us stop' hstop' hnext'), hsilent us stop' hstop' hnext]
  | late hks he herror hmends hhint =>
    refine .pending hks he ?_ ?_ (hhint.imp_right fun ⟨hproblem, hparen, hpasses⟩ => ⟨hproblem, hparen, ?_⟩)
    · have hok := hp [] stop hstop (by rwa [upcoming, Cursor.current_before_nil, hstop])
      rw [List.append_nil] at hok
      rw [Fails, wp_bind, wp_of_ok hok]
      exact herror
    · intro us more stop' hstop' hkinds hnext
      rw [bind_of_ok (hp _ stop' hstop' (hheads.upcoming hkinds hnext))]
      exact hmends us more stop' hstop' hkinds hnext
    · -- The first reader stops before the parenthesis, since that is what the second one waits for.
      intro r a us stop' hr ha hstop'
      obtain ⟨ks', rfl⟩ := hparen
      have hnext : N (upcoming (r :: a :: us) stop') := by
        rw [upcoming, Cursor.current_before_cons, hr]
        exact hheads
      rw [wp_bind, wp_of_ok (hp _ stop' hstop' hnext)]
      exact hpasses r a us stop' hr ha hstop'

/-- One reader after the other. Where the first one is still open, the second one has no words and closes. -/
theorem Prospect.bind {p : Parser β} {f : β → Parser α} (hp : Prospect all stop p ws N) (ks : List Kind)
    (hks : ks ⊆ fillers) (hstop : stop.kind = .eof) (hN : N .eof) (hheads : Heads N N' ks)
    (hsettled : ∀ b rest, rest <:+ ws →
      (∀ us stop', stop'.kind = .eof → p (.before (ws ++ us) stop' []) = .ok b (.before (rest ++ us) stop' [])) →
      Prospect all stop (f b) rest N')
    (hclosing : ∀ b, Reaches p ws b → Closing all stop (f b) N' ks) (hdeclines : ∀ b, Declines (f b)) :
    Prospect all stop (p >>= f) ws N' := by
  cases hp with
  | settled hrest h =>
    exact (hsettled _ _ hrest h).of_eq hstop hrest fun us stop' hstop' => bind_of_ok (h us stop' hstop')
  | final he h => exact .final he fun us stop' hstop' => (h us stop' hstop').bind
  | tooDeep h => exact .tooDeep fun us stop' hstop' => (h us stop' hstop').bind
  | opened h =>
    have hok := h [] stop hstop (by rwa [upcoming, Cursor.current_before_nil, hstop])
    exact (hclosing _ ⟨[], stop, _, hstop, hok⟩).bind hstop hN hheads h
  | pending hks' he herror hmends hhint =>
    exact .pending (List.append_subset.2 ⟨hks', hks⟩) he herror.bind (hmends.bind hheads hclosing)
      (hhint.bind ks hdeclines)
  | stuck he herror h hdeep =>
    exact .stuck he herror.bind (fun us stop' hstop' => (h us stop' hstop').bind)
      fun us more stop' hstop' hkinds => (hdeep us more stop' hstop' hkinds).bind

end Prospects

/-! ## Primitives -/

section Primitives

variable {α β : Type} {all ws : List Token.Proper} {stop : Token} {N : Kind → Prop} {w : Token.Proper} {kind : Kind}

theorem prospect_pure (a : α) : Prospect all stop (pure a) ws N :=
  .settled List.suffix_rfl fun _ _ _ => rfl

theorem prospect_peek {f : Token → Parser α} (hstop : stop.kind = .eof) (h : Prospect all stop (f w.val) (w :: ws) N) :
    Prospect all stop (peek >>= f) (w :: ws) N :=
  h.of_eq hstop List.suffix_rfl fun _ _ _ => rfl

theorem prospect_check {f : Bool → Parser α} (hstop : stop.kind = .eof)
    (h : Prospect all stop (f (w.val.kind = kind)) (w :: ws) N) : Prospect all stop (check kind >>= f) (w :: ws) N :=
  h.of_eq hstop List.suffix_rfl fun _ _ _ => rfl

theorem advance_before : advance (.before (w :: ws) stop []) = .ok w.val (.before ws stop []) := by
  rw [advance, Cursor.next_before_cons, Cursor.current_before_cons]

theorem prospect_advance {f : Token → Parser α} (hstop : stop.kind = .eof) (h : Prospect all stop (f w.val) ws N) :
    Prospect all stop (advance >>= f) (w :: ws) N := by
  exact h.of_eq hstop (List.suffix_cons w ws) fun us stop' _ => bind_of_ok advance_before

theorem expect_of_kind (h : w.val.kind = kind) :
    expect kind (.before (w :: ws) stop []) = .ok w.val (.before ws stop []) := by
  refine ok_of_wp ?_
  rw [wp_expect, Cursor.current_before_cons, if_pos h]
  exact ⟨rfl, Cursor.next_before_cons⟩

theorem prospect_expect {f : Token → Parser α} (hstop : stop.kind = .eof) (hw : w ∈ all)
    (h : w.val.kind = kind → Prospect all stop (f w.val) ws N) : Prospect all stop (expect kind >>= f) (w :: ws) N := by
  by_cases hkind : w.val.kind = kind
  · exact (h hkind).of_eq hstop (List.suffix_cons w ws) fun us stop' _ => bind_of_ok (expect_of_kind hkind)
  · have hfinal : Final all ⟨.expected kind w.val.kind, w.val.span⟩ := .word hw nofun
    refine .final hfinal fun us stop' _ => ?_
    rw [Fails, wp_bind, List.cons_append, wp_expect, Cursor.current_before_cons, if_neg hkind]

theorem mends_pure (a : α) : Mends (pure a) [] [] N := by
  intro us more stop' _ hkinds _
  obtain rfl : us = [] := List.map_eq_nil_iff.1 hkinds
  exact ⟨a, rfl⟩

theorem Mends.bind_pure {p : Parser β} {ks : List Kind} (h : Mends p ws ks N) (g : β → α) :
    Mends (p >>= fun b => pure (g b)) ws ks N := by
  intro us more stop' hstop' hkinds hnext
  obtain ⟨b, hb⟩ := h us more stop' hstop' hkinds hnext
  exact ⟨g b, bind_of_ok hb⟩

theorem declines_pure (a : α) : Declines (pure a) := fun _ _ _ _ _ => rfl

theorem declines_expect {f : Token → Parser α} (h : kind ≠ .arrow) : Declines (expect kind >>= f) := by
  intro a us stop' ha _
  rw [wp_bind, wp_expect, Cursor.current_before_cons, ha, if_neg h.symm]
  exact nofun

theorem closing_pure (a : α) : Closing all stop (pure a) N [] := .silent fun _ _ _ _ => rfl

theorem Prospect.bind_pure {p : Parser β} (h : Prospect all stop p ws N) (hstop : stop.kind = .eof) (hN : N .eof)
    (g : β → α) : Prospect all stop (p >>= fun b => pure (g b)) ws N :=
  h.bind [] (List.nil_subset _) hstop hN (fun _ h => h) (fun _ _ _ _ => prospect_pure _) (fun _ _ => closing_pure _)
    fun _ => declines_pure _

/-- A reader that expects a word waits for it. Behind a closing parenthesis, an arrow may come. -/
theorem closing_expect {f : Token → Parser α} {ks : List Kind} (hks : kind :: ks ⊆ fillers) (hstop : stop.kind = .eof)
    (hmends : ∀ t, Mends (f t) [] ks N)
    (hhint : kind = .rightParen → (∃ ks', ks = .arrow :: ks') ∨ ∀ t, Declines (f t)) :
    Closing all stop (expect kind >>= f) N (kind :: ks) := by
  have hlate : Late all stop ⟨.expected kind .eof, stop.span⟩ := .stop nofun nofun
  have hkind : kind ≠ .eof := by
    rintro rfl
    exact absurd (hks List.mem_cons_self) (by simp [fillers])
  refine .late hks hlate ?_ ?_ ?_
  · rw [Fails, wp_bind, wp_expect, Cursor.current_before_nil, hstop, if_neg hkind.symm]
  · intro us more stop' hstop' hkinds hnext
    obtain ⟨w, us, rfl, hw, hus⟩ := List.map_eq_cons_iff.1 hkinds
    obtain ⟨a, ha⟩ := hmends w.val us more stop' hstop' hus hnext
    exact ⟨a, (bind_of_ok (expect_of_kind hw)).trans ha⟩
  · by_cases hparen : kind = .rightParen
    · subst hparen
      rcases hhint rfl with ⟨ks', rfl⟩ | hdeclines
      · exact .inl ⟨ks', rfl⟩
      · refine .inr ⟨rfl, ⟨ks, rfl⟩, fun r a us stop' hr ha hstop' => ?_⟩
        rw [wp_bind, List.nil_append, wp_of_ok (expect_of_kind hr)]
        exact hdeclines r.val a us stop' ha hstop'
    · refine .inl ⟨kind :: ks, ?_⟩
      cases kind <;> first | rfl | exact absurd rfl hparen

end Primitives

/-! ## Lists -/

section Lists

variable {all ws : List Token.Proper} {stop : Token} {item : Parser Expr} {separator close : Kind}

theorem bind_congr_of_wp {α β : Type} {p : Parser β} {f g : β → Parser α} {c : Cursor}
    (h : wp p (fun b c' => f b c' = g b c') (fun _ => True) c) : (p >>= f) c = (p >>= g) c := by
  simp only [bind, EStateM.bind]
  unfold wp at h
  split at h
  · next hp => rw [hp]; exact h
  · next hp => rw [hp]

/-- Every result takes a word. -/
def Moves (p : Parser Expr) : Prop :=
  ∀ ws stop, stop.kind = .eof →
    wp p (fun _ c => ∃ rest, c = .before rest stop [] ∧ rest.length < ws.length) (fun _ => True) (.before ws stop [])

/-- The items after the first one, if a separator comes. -/
def further (separator : Kind) (tail : Parser (List Expr)) (first : Expr) : Parser (List Expr) := do
  if ← check separator then
    let _ ← advance
    let others ← tail
    return first :: others
  else return [first]

/-- A list, given the reader of all but its first item. -/
def round (item : Parser Expr) (separator close : Kind) (tail : Parser (List Expr)) : Parser (List Expr) := do
  let next ← peek
  if next.kind = close ∨ next.kind = .eof then return []
  let first ← item
  further separator tail first

theorem separated_succ (rounds : Nat) : separated item separator close (rounds + 1) =
    round item separator close (separated item separator close rounds) := by
  rw [separated, round]
  rfl

theorem items_before : items item separator close (.before ws stop []) =
    separated item separator close (ws.length + 1) (.before ws stop []) := by
  cases ws with
  | nil => rfl
  | cons w ws =>
    have hlength : (Cursor.before (w :: ws) stop []).rest.length = (w :: ws).length := by simp [Cursor.before]
    rw [← hlength]
    rfl

/-- The rest of a list has fewer words than the list. -/
theorem round_congr {p q : Parser (List Expr)} (hmoves : Moves item) (hsep : separator ≠ .eof)
    (hstop : stop.kind = .eof)
    (h : ∀ rest, rest.length < ws.length → p (.before rest stop []) = q (.before rest stop [])) :
    round item separator close p (.before ws stop []) = round item separator close q (.before ws stop []) := by
  refine bind_congr_of_wp ?_
  rw [wp_peek]
  split
  · rfl
  · refine bind_congr_of_wp (wp_mono (hmoves ws stop hstop) ?_ fun _ _ => trivial)
    rintro first _ ⟨rest, rfl, hlt⟩
    refine bind_congr_of_wp ?_
    rw [wp_check]
    split
    · next hcheck =>
      refine bind_congr_of_wp ?_
      rw [wp_advance]
      -- A separator was seen, so there is a word.
      cases rest with
      | nil => exact absurd ((of_decide_eq_true hcheck).symm.trans hstop) hsep
      | cons x rest =>
        rw [Cursor.next_before_cons]
        simp only [bind, EStateM.bind]
        rw [h rest (Nat.lt_of_succ_lt hlt)]
    · rfl

/-- Every item takes a word, so a round more or less does not matter. -/
theorem separated_of_lt (hmoves : Moves item) (hsep : separator ≠ .eof) (hstop : stop.kind = .eof) {r r' : Nat}
    (hr : ws.length < r) (hr' : ws.length < r') :
    separated item separator close r (.before ws stop []) = separated item separator close r' (.before ws stop []) := by
  induction r generalizing r' ws with
  | zero => exact absurd hr (Nat.not_lt_zero _)
  | succ r ih =>
    cases r' with
    | zero => exact absurd hr' (Nat.not_lt_zero _)
    | succ r' =>
      rw [separated_succ, separated_succ]
      refine round_congr hmoves hsep hstop fun rest hlt => ?_
      exact ih (Nat.lt_of_lt_of_le hlt (Nat.le_of_lt_succ hr)) (Nat.lt_of_lt_of_le hlt (Nat.le_of_lt_succ hr'))

theorem items_eq_round (hmoves : Moves item) (hsep : separator ≠ .eof) (hstop : stop.kind = .eof) :
    items item separator close (.before ws stop []) =
      round item separator close (items item separator close) (.before ws stop []) := by
  rw [items_before, separated_succ]
  refine round_congr hmoves hsep hstop fun rest hlt => ?_
  rw [items_before]
  exact separated_of_lt hmoves hsep hstop hlt (Nat.lt_succ_self _)

/-- What ends a list. -/
def Closes (close k : Kind) : Prop := k = close ∨ k = .eof

theorem items_of_closes (h : Closes close (upcoming ws stop)) :
    items item separator close (.before ws stop []) = .ok [] (.before ws stop []) := by
  refine ok_of_wp ?_
  unfold Closes at h
  rw [wp_items, separated_succ, round, wp_bind, wp_peek, if_pos h]
  exact ⟨rfl, rfl⟩

theorem further_of_ne {tail : Parser (List Expr)} (first : Expr) (h : upcoming ws stop ≠ separator) :
    further separator tail first (.before ws stop []) = .ok [first] (.before ws stop []) := by
  refine ok_of_wp ?_
  rw [further, wp_bind, wp_check]
  simp only [h, decide_false, Bool.false_eq_true, if_false]
  exact ⟨rfl, rfl⟩

theorem not_closes_separator {k : Listing} (hclose : close = .rightParen ∨ close = .rightBrace ∨ close = .eof) :
    ¬Closes close k.separator := by
  rcases hclose with rfl | rfl | rfl <;> cases k <;> simp [Closes, Listing.separator]

theorem further_closing {tail : Parser (List Expr)} (first : Expr) (h : ¬Closes close separator) :
    Closing all stop (further separator tail first) (Closes close) [] :=
  .silent fun _ _ _ hnext => further_of_ne first fun heq => h (heq ▸ hnext)

theorem further_declines {tail : Parser (List Expr)} (first : Expr) (h : separator ≠ .arrow) :
    Declines (further separator tail first) := by
  intro a us stop' ha _
  have hne : upcoming (a :: us) stop' ≠ separator := fun heq => h (heq ▸ ha)
  exact (wp_of_ok (further_of_ne first hne)).2 rfl

/-- A list goes on after its first item as the items after it do, which have fewer words. -/
theorem round_prospect {k : Listing} {tail : Parser (List Expr)} {w : Token.Proper} (hstop : stop.kind = .eof)
    (hclose : close = .rightParen ∨ close = .rightBrace ∨ close = .eof) (hw : w.val.kind ≠ close)
    (hitem : Prospect all stop item (w :: ws) Ends)
    (htail : ∀ rest, rest.length ≤ ws.length → rest <:+ w :: ws → Prospect all stop tail rest (Closes close)) :
    Prospect all stop (round item k.separator close tail) (w :: ws) (Closes close) := by
  have hheads : Heads Ends (Closes close) [] := by
    rintro next (rfl | rfl)
    · exact ends_of_closing hclose
    · exact ends_eof
  have hclosing (first : Expr) : Closing all stop (further k.separator tail first) (Closes close) [] :=
    further_closing first (not_closes_separator hclose)
  refine prospect_peek hstop ?_
  rw [if_neg (not_or.2 ⟨hw, w.2⟩)]
  refine hitem.bind [] (List.nil_subset _) hstop ends_eof hheads ?_ (fun first _ => hclosing first)
    fun first => further_declines first (ends_separator k).ne_arrow
  intro first rest hrest _
  cases rest with
  | nil => exact (hclosing first).prospect
  | cons x rest =>
    refine prospect_check hstop ?_
    split
    · refine prospect_advance hstop ?_
      have hlength : rest.length ≤ ws.length := Nat.le_of_succ_le_succ hrest.length_le
      exact (htail rest hlength ((List.suffix_cons x rest).trans hrest)).bind_pure hstop (.inr rfl) _
    · exact prospect_pure _

theorem items_prospect {k : Listing} (hstop : stop.kind = .eof) (hmoves : Moves item)
    (hclose : close = .rightParen ∨ close = .rightBrace ∨ close = .eof)
    (hitem : ∀ ws, ws ≠ [] → ws <:+ all → Prospect all stop item ws Ends) (hws : ws <:+ all) :
    Prospect all stop (items item k.separator close) ws (Closes close) := by
  induction hn : ws.length using Nat.strongRecOn generalizing ws with
  | ind n ih =>
    match ws with
    | [] => exact .opened fun us stop' _ hnext => items_of_closes hnext
    | w :: ws =>
      by_cases hw : w.val.kind = close
      · exact .settled List.suffix_rfl fun us stop' _ => items_of_closes (.inl hw)
      · have hsep : k.separator ≠ .eof := fun h => not_closes_separator hclose (.inr h)
        refine (round_prospect hstop hclose hw (hitem (w :: ws) (List.cons_ne_nil _ _) hws) ?_).of_eq hstop
          List.suffix_rfl fun us stop' hstop' => items_eq_round hmoves hsep hstop'
        intro rest hlength hrest
        exact ih rest.length (hn ▸ Nat.lt_succ_of_le hlength) (hrest.trans hws) rfl

end Lists

end Parser

end ClosureLang
