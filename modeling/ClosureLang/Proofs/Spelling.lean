import ClosureLang.Proofs.Reading

/-!
# What a text spells

`Spells l ws stop` says which words the reader `l` finds and where the text ends. Names and number literals end before
a character that cannot be part of one, and a line feed ends every word, so that the words of a text are those of its
parts.
-/

namespace ClosureLang

open Token (Kind kinds)

namespace Token

/-! ## Where words end -/

/-- No name and no number literal goes on with the first of these characters. -/
def Breaks (rest : List Char) : Prop :=
  ∀ c ∈ rest.head?, isNamePart c = false ∧ c ≠ '.' ∧ c ≠ '+' ∧ c ≠ '-'

theorem breaks_nil : Breaks [] := nofun

theorem breaks_newline (r : List Char) : Breaks ('\n' :: r) := by
  rintro c hc
  obtain rfl : '\n' = c := by simpa using hc
  decide

theorem isNamePart_of_isDigit {c : Char} (h : c.isDigit) : isNamePart c := by
  simp [isNamePart, Char.isAlphanum, h]

theorem takeWhile_append_of_head {p : Char → Bool} {s rest : List Char} (h : ∀ c ∈ rest.head?, p c = false) :
    (s ++ rest).takeWhile p = s.takeWhile p := by
  induction s with
  | nil =>
    cases rest with
    | nil => rfl
    | cons c rest => simp [h c rfl]
  | cons c s ih => simp only [List.cons_append, List.takeWhile_cons, ih]

theorem Breaks.not_isDigitOrMark {rest : List Char} (h : Breaks rest) : ∀ c ∈ rest.head?, isDigitOrMark c = false := by
  intro c hc
  have hpart := (h c hc).1
  simp only [isNamePart, Char.isAlphanum, Bool.or_eq_false_iff] at hpart
  simp [isDigitOrMark, hpart]

theorem runLength_append {s rest : List Char} (h : Breaks rest) : runLength (s ++ rest) = runLength s := by
  rw [runLength, takeWhile_append_of_head h.not_isDigitOrMark, runLength]

theorem Breaks.not_isDigit {rest : List Char} (h : Breaks rest) : ∀ c ∈ rest.head?, c.isDigit = false := by
  intro c hc
  have hmark := h.not_isDigitOrMark c hc
  simp only [isDigitOrMark, Bool.or_eq_false_iff] at hmark
  exact hmark.1

theorem fractionLength_append {s rest : List Char} (h : Breaks rest) :
    fractionLength (s ++ rest) = fractionLength s := by
  match s with
  | [] =>
    match rest with
    | [] => rfl
    | c :: rest =>
      have hpoint : c ≠ '.' := (h c rfl).2.1
      simp [fractionLength, hpoint]
  | [c] =>
    match rest with
    | [] => rfl
    | d :: rest =>
      have hdigit : d.isDigit = false := h.not_isDigit d rfl
      by_cases hc : c = '.' <;> simp [fractionLength, hc, hdigit]
  | c :: d :: s =>
    by_cases hc : c = '.'
    · subst hc
      have hrun := runLength_append (s := d :: s) h
      rw [List.cons_append] at hrun
      simp [fractionLength, hrun]
    · simp [fractionLength, hc]

theorem exponentLength_append {s rest : List Char} (h : Breaks rest) :
    exponentLength (s ++ rest) = exponentLength s := by
  match s with
  | [] =>
    match rest with
    | [] => rfl
    | [_] => rfl
    | c :: d :: rest =>
      have hmark : (c == 'e' || c == 'E') = false := by
        have hpart := (h c rfl).1
        rw [Bool.or_eq_false_iff, beq_eq_false_iff_ne, beq_eq_false_iff_ne]
        constructor <;> rintro rfl <;> cases hpart
      simp [exponentLength, hmark]
  | [c] =>
    match rest with
    | [] => rfl
    | d :: rest =>
      have hdigit : d.isDigit = false := h.not_isDigit d rfl
      obtain ⟨-, -, hplus, hminus⟩ := h d rfl
      simp [exponentLength, hdigit, hplus, hminus]
  | [c, d] =>
    have hhead : rest.head?.any Char.isDigit = false := by
      cases rest with
      | nil => rfl
      | cons c rest => exact h.not_isDigit c rfl
    have hrun := runLength_append (s := [d]) h
    rw [List.cons_append, List.nil_append] at hrun
    simp [exponentLength, hhead, hrun]
  | c :: d :: d' :: s =>
    have hrun := runLength_append (s := d :: d' :: s) h
    have hrun' := runLength_append (s := d' :: s) h
    simp only [List.cons_append] at hrun hrun'
    simp [exponentLength, hrun, hrun']

theorem runLength_le (s : List Char) : runLength s ≤ s.length :=
  (List.takeWhile_sublist _).length_le

theorem fractionLength_le (s : List Char) : fractionLength s ≤ s.length := by
  unfold fractionLength
  split
  · next c cs =>
    have hrun := runLength_le (c :: cs)
    simp only [List.length_cons] at hrun ⊢
    split <;> omega
  · exact Nat.zero_le _

theorem exponentLength_le (s : List Char) : exponentLength s ≤ s.length := by
  unfold exponentLength
  split
  · next mark c cs =>
    have hrun := runLength_le (c :: cs)
    have hrun' := runLength_le cs
    simp only [List.length_cons] at hrun ⊢
    repeat' split
    all_goals omega
  · exact Nat.zero_le _

theorem numberLength_append {s rest : List Char} (h : Breaks rest) : numberLength (s ++ rest) = numberLength s := by
  have hwhole := runLength_le s
  have hfraction := fractionLength_le (s.drop (runLength s))
  rw [List.length_drop] at hfraction
  simp only [numberLength]
  rw [runLength_append h, List.drop_append_of_le_length hwhole, fractionLength_append h,
    List.drop_append_of_le_length (by omega), exponentLength_append h]

theorem numberLength_le (s : List Char) : numberLength s ≤ s.length := by
  have hwhole := runLength_le s
  have hfraction := fractionLength_le (s.drop (runLength s))
  have hexponent := exponentLength_le (s.drop (runLength s + fractionLength (s.drop (runLength s))))
  rw [List.length_drop] at hfraction hexponent
  simp only [numberLength]
  omega

/-! ## Words -/

theorem find?_symbols_of_isNamePart {c : Char} (h : isNamePart c) (cs : List Char) :
    symbols.find? (fun s => s.1.isPrefixOf (c :: cs)) = none := by
  rw [List.find?_eq_none]
  intro s hs hprefix
  have hfirst : ∀ s ∈ symbols, s.1.head?.any (fun a => !isNamePart a) := by decide
  have hhead := hfirst s hs
  match hspelling : s.1 with
  | [] => simp [hspelling] at hhead
  | a :: l =>
    simp only [hspelling, List.head?_cons, Option.any_some, Bool.not_eq_true'] at hhead
    rw [hspelling, List.isPrefixOf_iff_prefix] at hprefix
    obtain ⟨rfl, -⟩ := List.cons_prefix_cons.1 hprefix
    rw [h] at hhead
    cases hhead

theorem lexeme?_of_isDigit {c : Char} (h : c.isDigit) (cs : List Char) :
    lexeme? (c :: cs) = some (.number ((Decimal.ofLiteral ((c :: cs).take (numberLength (c :: cs)))).toFloat false),
      numberLength (c :: cs)) := by
  simp only [lexeme?, find?_symbols_of_isNamePart (isNamePart_of_isDigit h), h, if_true]

theorem not_isDigit_of_isNameStart {c : Char} (h : isNameStart c) : c.isDigit = false := by
  rw [← Bool.not_eq_true]
  intro hdigit
  simp only [isNameStart, Char.isAlpha, Char.isUpper, Char.isLower, Char.isDigit, Bool.or_eq_true, Bool.and_eq_true,
    decide_eq_true_eq, beq_iff_eq, ge_iff_le, UInt32.le_iff_toNat_le] at h hdigit
  rcases h with (h | h) | rfl
  · exact absurd (Nat.le_trans h.1 hdigit.2) (by decide)
  · exact absurd (Nat.le_trans h.1 hdigit.2) (by decide)
  · exact absurd hdigit.2 (by decide)

theorem lexeme?_of_isNameStart {c : Char} (h : isNameStart c) (cs : List Char) :
    lexeme? (c :: cs) = some (.identifier (String.ofList ((c :: cs).takeWhile isNamePart)),
      ((c :: cs).takeWhile isNamePart).length) := by
  simp only [lexeme?, find?_symbols_of_isNamePart (isNamePart_of_isNameStart h), not_isDigit_of_isNameStart h, h,
    if_true, Bool.false_eq_true, if_false]

/-- A name or a number literal stays the same before a character that breaks it off. -/
theorem lexeme?_append {c : Char} (hc : c.isDigit ∨ isNameStart c) (s : List Char) {rest : List Char}
    (h : Breaks rest) : lexeme? (c :: s ++ rest) = lexeme? (c :: s) := by
  rcases hc with hc | hc
  · rw [List.cons_append, lexeme?_of_isDigit hc, lexeme?_of_isDigit hc, ← List.cons_append, numberLength_append h,
      List.take_append_of_le_length (numberLength_le _)]
  · rw [List.cons_append, lexeme?_of_isNameStart hc, lexeme?_of_isNameStart hc, ← List.cons_append,
      takeWhile_append_of_head fun d hd => (h d hd).1]

theorem prefix_newline_iff {l s r : List Char} (hl : '\n' ∉ l) : l <+: s ++ '\n' :: r ↔ l <+: s := by
  refine ⟨fun h => ?_, fun h => h.trans (List.prefix_append _ _)⟩
  induction l generalizing s with
  | nil => exact List.nil_prefix
  | cons a l ih =>
    rw [List.mem_cons, not_or] at hl
    cases s with
    | nil => exact absurd (List.cons_prefix_cons.1 h).1.symm hl.1
    | cons b s =>
      obtain ⟨rfl, htail⟩ := List.cons_prefix_cons.1 h
      exact List.cons_prefix_cons.2 ⟨rfl, ih hl.2 htail⟩

theorem find?_congr_of_mem {α : Type} {p q : α → Bool} {l : List α} (h : ∀ a ∈ l, p a = q a) :
    l.find? p = l.find? q := by
  induction l with
  | nil => rfl
  | cons a l ih =>
    rw [List.find?_cons, List.find?_cons, h a List.mem_cons_self, ih fun b hb => h b (List.mem_cons_of_mem a hb)]

/-- No word goes on over a line feed. -/
theorem lexeme?_newline (s r : List Char) : lexeme? (s ++ '\n' :: r) = lexeme? s := by
  -- No symbol has a line feed in it, and names and literals break off at one.
  have hsymbols : symbols.find? (fun w => w.1.isPrefixOf (s ++ '\n' :: r)) =
      symbols.find? (fun w => w.1.isPrefixOf s) := by
    refine find?_congr_of_mem fun w hw => ?_
    have hall : ∀ w ∈ symbols, '\n' ∉ w.1 := by decide
    rw [Bool.eq_iff_iff, List.isPrefixOf_iff_prefix, List.isPrefixOf_iff_prefix, prefix_newline_iff (hall w hw)]
  cases s with
  | nil =>
    unfold lexeme?
    rw [hsymbols]
    rfl
  | cons c s =>
    by_cases hc : c.isDigit ∨ isNameStart c
    · exact lexeme?_append hc s (breaks_newline r)
    · obtain ⟨hdigit, hstart⟩ := not_or.1 hc
      unfold lexeme?
      rw [hsymbols]
      simp only [List.cons_append, hdigit, hstart, Bool.false_eq_true, if_false]

theorem ne_eof_of_lexeme? {cs : List Char} {kind : Kind} {n : Nat} (h : lexeme? cs = some (kind, n)) :
    kind ≠ .eof := by
  unfold lexeme? at h
  split at h
  · next spelling kind' hfound =>
    have hall : ∀ w ∈ symbols, w.2 ≠ .eof := by decide
    cases h
    exact hall _ (List.mem_of_find?_eq_some hfound)
  · repeat' split at h
    all_goals cases h
    all_goals simp

theorem lexeme?_le {cs : List Char} {kind : Kind} {n : Nat} (h : lexeme? cs = some (kind, n)) : n ≤ cs.length := by
  unfold lexeme? at h
  split at h
  · next spelling kind' hfound =>
    cases h
    have hprefix := List.find?_some hfound
    rw [List.isPrefixOf_iff_prefix] at hprefix
    exact hprefix.length_le
  · repeat' split at h
    all_goals cases h
    · exact numberLength_le _
    · exact (List.takeWhile_sublist _).length_le

/-! ## Gaps -/

theorem gapLength_le (b : Bool) (s : List Char) : gapLength b s ≤ s.length := by
  induction s generalizing b with
  | nil => exact Nat.le_refl _
  | cons c s ih =>
    simp only [gapLength, List.length_cons]
    repeat' split
    · exact Nat.succ_le_succ (ih _)
    · exact Nat.succ_le_succ (ih _)
    · exact Nat.succ_le_succ (ih _)
    · exact Nat.zero_le _

/-- A gap up to the end of a line goes on in the next line, every other gap stays as it is. -/
theorem gapLength_newline (b : Bool) (s r : List Char) :
    gapLength b (s ++ '\n' :: r) =
      if gapLength b s = s.length then s.length + 1 + gapLength false r else gapLength b s := by
  have hblank : Text.isBlank '\n' = true := by decide
  -- At the end of `s` the line feed ends a comment, if there is one, and is part of the gap in any case.
  induction s generalizing b with
  | nil => cases b <;> simp [gapLength, hblank, Nat.add_comm]
  | cons c s ih =>
    have hhead : ((s ++ '\n' :: r).head? == some '/') = (s.head? == some '/') := by
      cases s <;> rfl
    simp only [gapLength, List.cons_append, List.length_cons, hhead, ih]
    grind

end Token

namespace Lexer

/-! ## Texts -/

/-- The words that a reader finds up to the end of its text, and the token of the end. -/
inductive Spells : Lexer → List Token.Proper → Token → Prop where
  | stop {l : Lexer} (h : l.skipGap.rest = []) :
      Spells l [] ⟨.eof, .between l.skipGap.position l.skipGap.position⟩
  | word {l : Lexer} {kind : Kind} {n : Nat} {ws : List Token.Proper} {stop : Token}
      (h : Token.lexeme? l.skipGap.rest = some (kind, n)) (hs : Spells (l.skipGap.skip n) ws stop) :
      Spells l (⟨⟨kind, .between l.skipGap.position (l.skipGap.skip n).position⟩, Token.ne_eof_of_lexeme? h⟩ :: ws) stop

/-- What a reader says where no word comes next. -/
def ending (l : Lexer) : Except LexError (List Token) :=
  match l.rest with
  | [] => .ok [⟨.eof, .between l.position l.position⟩]
  | c :: _ => .error ⟨c, l.position.line, l.position.column⟩

/-- One step of the reader. -/
theorem tokenize_step {l : Lexer} {kind : Kind} {n : Nat} (h : Token.lexeme? l.skipGap.rest = some (kind, n)) :
    l.tokenize = ((l.skipGap.skip n).tokenize.1.map
      (⟨kind, .between l.skipGap.position (l.skipGap.skip n).position⟩ :: ·), (l.skipGap.skip n).tokenize.2) := by
  rw [tokenize]
  split
  · next kind' n' hlexeme =>
    cases h.symm.trans hlexeme
    rfl
  · next hlexeme =>
    cases h.symm.trans hlexeme

/-- The reader stays where it finds no word. -/
theorem tokenize_end {l : Lexer} (h : Token.lexeme? l.skipGap.rest = none) :
    l.tokenize = (l.skipGap.ending, l.skipGap) := by
  rw [tokenize, ending]
  split
  · next hlexeme => cases h.symm.trans hlexeme
  · cases l.skipGap.rest <;> rfl

theorem tokenize_of_stop {l : Lexer} (h : l.skipGap.rest = []) :
    l.tokenize.1 = .ok [⟨.eof, .between l.skipGap.position l.skipGap.position⟩] := by
  rw [tokenize_end (by rw [h]; rfl), ending, h]

theorem tokenize_of_lexeme {l : Lexer} {kind : Kind} {n : Nat} (h : Token.lexeme? l.skipGap.rest = some (kind, n)) :
    l.tokenize.1 = (l.skipGap.skip n).tokenize.1.map
      (⟨kind, .between l.skipGap.position (l.skipGap.skip n).position⟩ :: ·) := by
  rw [tokenize_step h]

theorem tokenize_of_none {l : Lexer} {c : Char} {cs : List Char} (hrest : l.skipGap.rest = c :: cs)
    (h : Token.lexeme? l.skipGap.rest = none) :
    l.tokenize.1 = .error ⟨c, l.skipGap.position.line, l.skipGap.position.column⟩ := by
  rw [tokenize_end h, ending, hrest]

theorem tokenize_of_spells {l : Lexer} {ws : List Token.Proper} {stop : Token} (h : Spells l ws stop) :
    l.tokenize.1 = .ok (ws.map (·.val) ++ [stop]) := by
  induction h with
  | stop h => exact tokenize_of_stop h
  | word h _ ih =>
    rw [tokenize_of_lexeme h, ih]
    rfl

theorem spells_of_tokenize {l : Lexer} {tokens : List Token} (h : l.tokenize.1 = .ok tokens) :
    ∃ ws stop, Spells l ws stop ∧ tokens = ws.map (·.val) ++ [stop] := by
  induction l using tokenize.induct generalizing tokens with
  | case1 l _ kind n hlexeme _ _ _ _ _ =>
    rename_i ih
    rw [tokenize_of_lexeme hlexeme] at h
    cases hrest : (l.skipGap.skip n).tokenize.1 with
    | error e =>
      rw [hrest] at h
      cases h
    | ok rest =>
      rw [hrest] at h
      cases h
      obtain ⟨ws, stop, hspells, rfl⟩ := ih hrest
      exact ⟨_, stop, .word hlexeme hspells, rfl⟩
  | case2 l _ hlexeme =>
    rename_i hrest
    rw [tokenize_of_stop hrest] at h
    cases h
    exact ⟨[], _, .stop hrest, rfl⟩
  | case3 l _ hlexeme c cs =>
    rename_i hrest
    rw [tokenize_of_none hrest hlexeme] at h
    cases h

theorem ofSource_eq_ok_iff {source : String} {tokens : List Token} :
    Token.ofSource source = .ok tokens ↔
      ∃ ws stop, Spells (ofString source) ws stop ∧ tokens = ws.map (·.val) ++ [stop] := by
  refine ⟨spells_of_tokenize, ?_⟩
  rintro ⟨ws, stop, hspells, rfl⟩
  exact tokenize_of_spells hspells

theorem Spells.stop_kind {l : Lexer} {ws : List Token.Proper} {stop : Token} (h : Spells l ws stop) :
    stop.kind = .eof := by
  induction h with
  | stop _ => rfl
  | word _ _ ih => exact ih

/-! ## Kinds of words -/

/-- The text spells words of these kinds, wherever it stands. -/
def Lexes (cs : List Char) (ks : List Kind) : Prop :=
  ∀ p, ∃ ws stop, Spells ⟨cs, p⟩ ws stop ∧ kinds ws = ks

/-- Only the text after the gap matters. -/
theorem Spells.of_skipGap_eq {l l' : Lexer} {ws : List Token.Proper} {stop : Token} (h : Spells l ws stop)
    (heq : l.skipGap = l'.skipGap) : Spells l' ws stop := by
  cases h with
  | stop h =>
    rw [heq] at h ⊢
    exact .stop h
  | word h hs =>
    simp only [heq] at h hs ⊢
    exact .word h hs

theorem lexes_nil : Lexes [] [] := fun _ => ⟨[], _, .stop rfl, rfl⟩

theorem Lexes.blank {c : Char} {cs : List Char} {ks : List Kind} (h : Lexes cs ks) (hc : Text.isBlank c) :
    Lexes (c :: cs) ks := by
  intro p
  obtain ⟨ws, stop, hspells, hkinds⟩ := h (p.next c)
  refine ⟨ws, stop, hspells.of_skipGap_eq ?_, hkinds⟩
  simp [skipGap, skip, Token.gapLength, hc, Position.advance]

theorem Lexes.word {cs : List Char} {k : Kind} {n : Nat} {ks : List Kind} (h : Token.lexeme? cs = some (k, n))
    (hgap : Token.gapLength false cs = 0) (hs : Lexes (cs.drop n) ks) : Lexes cs (k :: ks) := by
  intro p
  have hskip : skipGap ⟨cs, p⟩ = ⟨cs, p⟩ := by
    rw [skipGap, hgap]
    rfl
  obtain ⟨ws, stop, hspells, rfl⟩ := hs (p.advance (cs.take n))
  have hword : Token.lexeme? (skipGap ⟨cs, p⟩).rest = some (k, n) := by rw [hskip, h]
  refine ⟨_, stop, .word hword ?_, rfl⟩
  rw [hskip]
  exact hspells

theorem gapLength_of_not_isBlank {c : Char} (hblank : Text.isBlank c = false) (hslash : c ≠ '/') (cs : List Char) :
    Token.gapLength false (c :: cs) = 0 := by
  simp [Token.gapLength, hblank, hslash]

theorem Lexes.delimiter {c : Char} {cs : List Char} {k : Kind} {ks : List Kind} (h : Lexes cs ks)
    (hc : (c, k) ∈ [('(', .leftParen), (')', .rightParen), ('\x7b', .leftBrace), ('\x7d', .rightBrace),
      (',', .comma), (';', .semicolon), ('?', .question), (':', .colon)]) : Lexes (c :: cs) (k :: ks) := by
  simp only [List.mem_cons, Prod.mk.injEq, List.not_mem_nil, or_false] at hc
  rcases hc with ⟨rfl, rfl⟩ | ⟨rfl, rfl⟩ | ⟨rfl, rfl⟩ | ⟨rfl, rfl⟩ | ⟨rfl, rfl⟩ | ⟨rfl, rfl⟩ | ⟨rfl, rfl⟩ | ⟨rfl, rfl⟩
  all_goals exact Lexes.word rfl (gapLength_of_not_isBlank (by decide) (by decide) _) h

theorem Lexes.arrow {cs : List Char} {ks : List Kind} (h : Lexes cs ks) : Lexes ('-' :: '>' :: cs) (.arrow :: ks) := by
  exact Lexes.word rfl (gapLength_of_not_isBlank (by decide) (by decide) _) h

theorem bounds_of_isNamePart {c : Char} (h : Token.isNamePart c) : 48 ≤ c.toNat ∧ c.toNat ≤ 122 := by
  simp only [Token.isNamePart, Char.isAlphanum, Char.isAlpha, Char.isUpper, Char.isLower, Char.isDigit,
    Bool.or_eq_true, Bool.and_eq_true, decide_eq_true_eq, beq_iff_eq, ge_iff_le, UInt32.le_iff_toNat_le] at h
  rcases h with ((h | h) | h) | rfl
  · exact ⟨Nat.le_trans (by decide) h.1, Nat.le_trans h.2 (by decide)⟩
  · exact ⟨Nat.le_trans (by decide) h.1, Nat.le_trans h.2 (by decide)⟩
  · exact ⟨Nat.le_trans (by decide) h.1, Nat.le_trans h.2 (by decide)⟩
  · decide

theorem gapLength_of_isNamePart {c : Char} (h : Token.isNamePart c) (cs : List Char) :
    Token.gapLength false (c :: cs) = 0 := by
  obtain ⟨hlow, hhigh⟩ := bounds_of_isNamePart h
  refine gapLength_of_not_isBlank ?_ ?_ cs
  · simp [Text.isBlank, Text.inRanges, Text.blankRanges]
    omega
  · rintro rfl
    exact absurd hlow (by decide)

end Lexer

end ClosureLang
