import Mathlib
import ClosureLang.Proofs.Rounding

/-!
# The words of the language

A word is an operator or delimiter, a name, or a number literal. The token that comes first in a text is read from the
longest word that the text starts with, and where no word comes first no token does. A number literal without its
underscores is plain decimal text, and its token is the double nearest to that decimal.
-/

namespace ClosureLang

/-! ## Numerals -/

/-- A digit, then characters that may follow one. -/
def IsRun (more : Char → Bool) : List Char → Prop
  | [] => False
  | c :: cs => c.isDigit ∧ ∀ d ∈ cs, more d

/-- An exponent mark, a sign that may be missing, and a run. -/
structure Exponent (more : Char → Bool) where
  mark : Char
  sign : Option Char
  digits : List Char
  mark_eq : mark = 'e' ∨ mark = 'E'
  sign_eq : ∀ c ∈ sign, c = '+' ∨ c = '-'
  isRun : IsRun more digits

/-- A run, perhaps a point and another run, perhaps an exponent. -/
structure Numeral (more : Char → Bool) where
  whole : List Char
  fraction : Option (List Char)
  exponent : Option (Exponent more)
  isRun_whole : IsRun more whole
  isRun_fraction : ∀ ds ∈ fraction, IsRun more ds

section Text

variable {more : Char → Bool}

def Exponent.text (e : Exponent more) : List Char := e.mark :: (e.sign.toList ++ e.digits)

/-- The text of an exponent that may be missing. -/
def Exponent.textOf (e : Option (Exponent more)) : List Char := e.elim [] text

/-- The text of a fraction that may be missing. -/
def Numeral.pointed (fraction : Option (List Char)) : List Char := fraction.elim [] ('.' :: ·)

def Numeral.text (n : Numeral more) : List Char := n.whole ++ (pointed n.fraction ++ Exponent.textOf n.exponent)

end Text

/-- The power of ten that an exponent stands for. -/
def Exponent.value (e : Exponent Char.isDigit) : Int :=
  if e.sign = some '-' then -(Nat.ofDigitChars 10 e.digits 0 : Int) else Nat.ofDigitChars 10 e.digits 0

/-- The decimal that plain decimal text writes. -/
def Numeral.decimal (n : Numeral Char.isDigit) : Decimal :=
  ⟨Nat.ofDigitChars 10 (n.whole ++ n.fraction.getD []) 0,
    n.exponent.elim 0 Exponent.value - (n.fraction.getD []).length⟩

/-- Plain decimal text stands for the nearest double. -/
def Number.Reads (text : List Char) (x : Float) : Prop :=
  ∃ n : Numeral Char.isDigit, n.text = text ∧ ∃ w, Binary64.IsNearest n.decimal.value w ∧ x = Binary64.ofWord false w

namespace Token

/-! ## Words -/

/-- A letter or an underscore, then letters, digits and underscores. -/
def IsName : List Char → Prop
  | [] => False
  | c :: cs => isNameStart c ∧ ∀ d ∈ cs, isNamePart d

/-- A numeral with underscores anywhere behind the first digit of a run. -/
def IsLiteral (s : List Char) : Prop := ∃ n : Numeral isDigitOrMark, n.text = s

/-- An operator or a delimiter. -/
def Kind.IsSymbol : Kind → Prop
  | number _ | identifier _ | eof => False
  | _ => True

/-- The text is a word. -/
inductive IsWord : List Char → Prop where
  | symbol {kind : Kind} (h : kind.IsSymbol) : IsWord kind.text.toList
  | name {s : List Char} (h : IsName s) : IsWord s
  | literal {s : List Char} (h : IsLiteral s) : IsWord s

/-- The kind of token that a word makes. A number literal counts without its underscores. -/
inductive Spelling : List Char → Kind → Prop where
  | symbol {kind : Kind} (h : kind.IsSymbol) : Spelling kind.text.toList kind
  | name {s : List Char} (h : IsName s) : Spelling s (.identifier (String.ofList s))
  | literal {s : List Char} {x : Float} (h : IsLiteral s) (hx : Number.Reads (s.filter (· != '_')) x) :
      Spelling s (.number x)

/-- The token comes from `text`, the longest word that the text `text ++ rest` starts with. -/
structure Longest (text rest : List Char) (kind : Kind) : Prop where
  spelling : Spelling text kind
  longest : ∀ s, s <+: text ++ rest → IsWord s → s.length ≤ text.length

end Token

/-! ## Runs -/

section Runs

variable {more : Char → Bool} {s rest : List Char}

theorem digit_ne {c d : Char} (hc : c.isDigit) (hd : d.isDigit = false) : c ≠ d := by
  rintro rfl
  rw [hc] at hd
  cases hd

theorem IsRun.forall_mem (h : IsRun more s) (hmore : ∀ c, c.isDigit → more c) : ∀ c ∈ s, more c := by
  match s, h with
  | c :: cs, ⟨hc, hcs⟩ => exact List.forall_mem_cons.2 ⟨hmore c hc, hcs⟩

theorem IsRun.digits (h : IsRun Char.isDigit s) : ∀ c ∈ s, c.isDigit := h.forall_mem fun _ => id

theorem IsRun.digitsOrMarks (h : IsRun Token.isDigitOrMark s) : ∀ c ∈ s, Token.isDigitOrMark c :=
  h.forall_mem fun c hc => by simp [Token.isDigitOrMark, hc]

/-- What remains of a run without its underscores. -/
theorem IsRun.clean (h : IsRun Token.isDigitOrMark s) : IsRun Char.isDigit (s.filter (· != '_')) := by
  match s, h with
  | c :: cs, ⟨hc, hcs⟩ =>
    have hkept : (c != '_') = true := bne_iff_ne.2 (digit_ne hc rfl)
    rw [List.filter_cons, if_pos hkept]
    refine ⟨hc, fun d hd => ?_⟩
    obtain ⟨hd, hmark⟩ := List.mem_filter.1 hd
    have hdigit := hcs d hd
    simp only [Token.isDigitOrMark, Bool.or_eq_true, beq_iff_eq] at hdigit
    exact hdigit.resolve_right (bne_iff_ne.1 hmark)

/-- Characters of a class end where one comes that is not in it. -/
theorem takeWhile_append_of_all {p : Char → Bool} (hs : ∀ c ∈ s, p c) (hrest : ∀ c ∈ rest.head?, p c = false) :
    (s ++ rest).takeWhile p = s := by
  rw [Token.takeWhile_append_of_head hrest, List.takeWhile_eq_self_iff.2 hs]

theorem dropWhile_append_of_all {p : Char → Bool} (hs : ∀ c ∈ s, p c) (hrest : ∀ c ∈ rest.head?, p c = false) :
    (s ++ rest).dropWhile p = rest := by
  rw [List.dropWhile_append_of_pos hs]
  match rest with
  | [] => rfl
  | c :: cs => rw [List.dropWhile_cons, hrest c rfl, if_neg Bool.false_ne_true]

end Runs

/-! ## Plain decimals -/

section Ends

variable {more : Char → Bool}

/-- An exponent starts with a letter. -/
theorem Exponent.mark_of_mem_head? {e : Option (Exponent more)} {c : Char} (h : c ∈ (textOf e).head?) :
    c = 'e' ∨ c = 'E' := by
  match e with
  | none => cases h
  | some e =>
    cases h
    exact e.mark_eq

/-- After a run comes a point, an exponent or nothing. -/
theorem Numeral.head?_end {f : Option (List Char)} {e : Option (Exponent more)} {c : Char}
    (h : c ∈ (pointed f ++ Exponent.textOf e).head?) : c = '.' ∨ c = 'e' ∨ c = 'E' := by
  match f with
  | none => exact .inr (Exponent.mark_of_mem_head? h)
  | some ds =>
    cases h
    exact .inl rfl

end Ends

def Exponent.clean (e : Exponent Token.isDigitOrMark) : Exponent Char.isDigit where
  mark := e.mark
  sign := e.sign
  digits := e.digits.filter (· != '_')
  mark_eq := e.mark_eq
  sign_eq := e.sign_eq
  isRun := e.isRun.clean

/-- The numeral without its underscores. -/
def Numeral.clean (n : Numeral Token.isDigitOrMark) : Numeral Char.isDigit where
  whole := n.whole.filter (· != '_')
  fraction := n.fraction.map (·.filter (· != '_'))
  exponent := n.exponent.map Exponent.clean
  isRun_whole := n.isRun_whole.clean
  isRun_fraction := by
    intro ds hds
    obtain ⟨marked, hmarked, rfl⟩ := Option.mem_map.1 hds
    exact (n.isRun_fraction marked hmarked).clean

theorem Exponent.text_clean (e : Exponent Token.isDigitOrMark) : e.clean.text = e.text.filter (· != '_') := by
  have hmark : (e.mark != '_') = true := by
    rcases e.mark_eq with h | h <;> rw [h] <;> rfl
  have hsign : e.sign.toList.filter (· != '_') = e.sign.toList := by
    refine List.filter_eq_self.2 fun c hc => ?_
    rcases e.sign_eq c (Option.mem_toList.1 hc) with rfl | rfl <;> rfl
  rw [text, text, List.filter_cons, if_pos hmark, List.filter_append, hsign]
  rfl

theorem Exponent.textOf_clean (e : Option (Exponent Token.isDigitOrMark)) :
    textOf (e.map clean) = (textOf e).filter (· != '_') := by
  match e with
  | none => rfl
  | some e => exact e.text_clean

theorem Numeral.pointed_filter (f : Option (List Char)) :
    pointed (f.map (·.filter (· != '_'))) = (pointed f).filter (· != '_') := by
  cases f <;> rfl

theorem Numeral.text_clean (n : Numeral Token.isDigitOrMark) : n.clean.text = n.text.filter (· != '_') := by
  rw [text, text, List.filter_append, List.filter_append, ← pointed_filter, ← Exponent.textOf_clean]
  rfl

theorem natOfDigits_eq (ds : List Char) : Decimal.natOfDigits ds = Nat.ofDigitChars 10 ds 0 := by
  rw [Decimal.natOfDigits, Nat.ofDigitChars_eq_foldl]

theorem Exponent.exponentOfChars_eq (e : Exponent Char.isDigit) :
    Decimal.exponentOfChars (e.sign.toList ++ e.digits) = e.value := by
  unfold value
  match hsign : e.sign with
  | none =>
    match hdigits : e.digits, e.isRun with
    | c :: cs, ⟨hc, _⟩ =>
      have hminus : c ≠ '-' := digit_ne hc rfl
      have hplus : c ≠ '+' := digit_ne hc rfl
      simp [Decimal.exponentOfChars, hminus, hplus, natOfDigits_eq]
  | some c =>
    rcases e.sign_eq c hsign with rfl | rfl
    · simp [Decimal.exponentOfChars, natOfDigits_eq]
    · simp [Decimal.exponentOfChars, natOfDigits_eq]

/-- Only the decimal that is written without underscores counts. -/
theorem Numeral.ofLiteral_text (n : Numeral Token.isDigitOrMark) : Decimal.ofLiteral n.text = n.clean.decimal := by
  have hend : ∀ c ∈ (pointed n.clean.fraction ++ Exponent.textOf n.clean.exponent).head?, c.isDigit = false := by
    intro c hc
    rcases head?_end hc with rfl | rfl | rfl <;> rfl
  have hexponent : ∀ c ∈ (Exponent.textOf n.clean.exponent).head?, c.isDigit = false := by
    intro c hc
    rcases Exponent.mark_of_mem_head? hc with rfl | rfl <;> rfl
  unfold Decimal.ofLiteral
  dsimp only
  rw [← text_clean, text, takeWhile_append_of_all n.clean.isRun_whole.digits hend,
    dropWhile_append_of_all n.clean.isRun_whole.digits hend, decimal]
  match hfraction : n.clean.fraction with
  | none =>
    match n.clean.exponent with
    | none => simp [pointed, Exponent.textOf, natOfDigits_eq]
    | some e =>
      have hmark : e.mark ≠ '.' := by rcases e.mark_eq with h | h <;> rw [h] <;> decide
      simp [pointed, Exponent.textOf, Exponent.text, hmark, natOfDigits_eq, e.exponentOfChars_eq]
  | some ds =>
    have hds := (n.clean.isRun_fraction ds hfraction).digits
    have htake := takeWhile_append_of_all hds hexponent
    have hdrop := dropWhile_append_of_all hds hexponent
    simp only [pointed, Option.elim_some, List.cons_append, htake, hdrop, Option.getD_some, natOfDigits_eq]
    match n.clean.exponent with
    | none => rfl
    | some e => simp [Exponent.textOf, Exponent.text, e.exponentOfChars_eq]

/-! ## The literal that comes first -/

namespace Token

variable {s rest : List Char}

theorem take_runLength (cs : List Char) : cs.take (runLength cs) = cs.takeWhile isDigitOrMark :=
  (List.prefix_iff_eq_take.1 (List.takeWhile_prefix _)).symm

theorem isRun_take {c : Char} (hc : c.isDigit) (cs : List Char) :
    IsRun isDigitOrMark ((c :: cs).take (runLength (c :: cs))) := by
  have hmark : isDigitOrMark c = true := by simp [isDigitOrMark, hc]
  rw [take_runLength, List.takeWhile_cons, if_pos hmark]
  exact ⟨hc, fun d hd => List.mem_takeWhile_imp hd⟩

theorem exists_fraction (cs : List Char) :
    ∃ f, (∀ ds ∈ f, IsRun isDigitOrMark ds) ∧ cs.take (fractionLength cs) = Numeral.pointed f := by
  unfold fractionLength
  split
  · next c cs =>
    split
    · next hc => exact ⟨some _, fun ds hds => Option.mem_some.1 hds ▸ isRun_take hc cs, List.take_succ_cons⟩
    · exact ⟨none, nofun, rfl⟩
  · exact ⟨none, nofun, rfl⟩

theorem exists_exponent (cs : List Char) :
    ∃ e : Option (Exponent isDigitOrMark), cs.take (exponentLength cs) = Exponent.textOf e := by
  unfold exponentLength
  split
  · next mark c cs =>
    split
    · next hmark =>
      have hmark : mark = 'e' ∨ mark = 'E' := by simpa using hmark
      split
      · next hc => exact ⟨some ⟨mark, none, _, hmark, nofun, isRun_take hc cs⟩, List.take_succ_cons⟩
      · split
        · next hsign =>
          obtain ⟨hchar, hdigit⟩ := Bool.and_eq_true_iff.1 hsign
          have hchar : ∀ c' ∈ some c, c' = '+' ∨ c' = '-' := by simpa using hchar
          match cs, hdigit with
          | d :: ds, hd => exact ⟨some ⟨mark, some c, _, hmark, hchar, isRun_take hd ds⟩, rfl⟩
        · exact ⟨none, rfl⟩
    · exact ⟨none, rfl⟩
  · exact ⟨none, rfl⟩

/-- What is taken for a literal is one. -/
theorem isLiteral_take {c : Char} (hc : c.isDigit) (cs : List Char) :
    IsLiteral ((c :: cs).take (numberLength (c :: cs))) := by
  unfold numberLength
  generalize hwhole : runLength (c :: cs) = whole
  obtain ⟨f, hf, hfraction⟩ := exists_fraction ((c :: cs).drop whole)
  obtain ⟨e, hexponent⟩ := exists_exponent ((c :: cs).drop (whole + fractionLength ((c :: cs).drop whole)))
  refine ⟨⟨(c :: cs).take whole, f, e, hwhole ▸ isRun_take hc cs, hf⟩, ?_⟩
  dsimp only [Numeral.text]
  rw [List.take_add, List.take_add, hfraction, hexponent, List.append_assoc]

/-! ## No longer literal -/

theorem runLength_of_isRun (h : IsRun isDigitOrMark s) (hrest : ∀ c ∈ rest.head?, isDigitOrMark c = false) :
    runLength (s ++ rest) = s.length := by
  rw [runLength, takeWhile_append_of_all h.digitsOrMarks hrest]

theorem length_le_runLength (h : IsRun isDigitOrMark s) (rest : List Char) : s.length ≤ runLength (s ++ rest) := by
  rw [runLength, List.takeWhile_append_of_pos h.digitsOrMarks, List.length_append]
  exact Nat.le_add_right _ _

theorem fractionLength_of_isRun (h : IsRun isDigitOrMark s) (rest : List Char) :
    fractionLength ('.' :: (s ++ rest)) = runLength (s ++ rest) + 1 := by
  match s, h with
  | c :: cs, ⟨hc, _⟩ => simp [fractionLength, hc]

theorem length_le_exponentLength (e : Exponent isDigitOrMark) (rest : List Char) :
    e.text.length ≤ exponentLength (e.text ++ rest) := by
  have hmark : (e.mark == 'e' || e.mark == 'E') = true := by simpa using e.mark_eq
  have hrun := length_le_runLength e.isRun rest
  unfold Exponent.text
  match hdigits : e.digits, e.isRun with
  | c :: cs, ⟨hc, _⟩ =>
    rw [hdigits] at hrun
    match hsign : e.sign with
    | none => simpa [exponentLength, hmark, hc] using hrun
    | some d =>
      have hd : d.isDigit = false := by rcases e.sign_eq d hsign with rfl | rfl <;> rfl
      have hd' : (d == '+' || d == '-') = true := by simpa using e.sign_eq d hsign
      simpa [exponentLength, hmark, hd, hd', hc] using hrun

/-- The length of a literal whose whole part ends here. -/
theorem numberLength_of_isRun (h : IsRun isDigitOrMark s) (hrest : ∀ c ∈ rest.head?, isDigitOrMark c = false) :
    numberLength (s ++ rest) = s.length + (fractionLength rest + exponentLength (rest.drop (fractionLength rest))) := by
  simp only [numberLength]
  rw [runLength_of_isRun h hrest, List.drop_left, List.drop_length_add_append, Nat.add_assoc]

/-- Each part of a literal ends where the next one starts, so only its last part can go on in the text. -/
theorem length_le_numberLength (n : Numeral isDigitOrMark) (rest : List Char) :
    n.text.length ≤ numberLength (n.text ++ rest) := by
  have hmark (e : Exponent isDigitOrMark) : ∀ c ∈ (e.text ++ rest).head?, isDigitOrMark c = false := by
    intro c hc
    obtain rfl : e.mark = c := by simpa [Exponent.text] using hc
    rcases e.mark_eq with h | h <;> rw [h] <;> rfl
  have hpoint (cs : List Char) : ∀ c ∈ ('.' :: cs).head?, isDigitOrMark c = false := by simp [isDigitOrMark]
  have htext : n.text ++ rest = n.whole ++ (Numeral.pointed n.fraction ++ (Exponent.textOf n.exponent ++ rest)) := by
    rw [Numeral.text, List.append_assoc, List.append_assoc]
  have hlength : n.text.length =
      n.whole.length + ((Numeral.pointed n.fraction).length + (Exponent.textOf n.exponent).length) := by
    rw [Numeral.text, List.length_append, List.length_append]
  rw [htext, hlength]
  cases hfraction : n.fraction with
  | none =>
    cases n.exponent with
    | none =>
      have hrun := length_le_runLength n.isRun_whole rest
      simp only [Numeral.pointed, Exponent.textOf, Option.elim_none, List.nil_append, List.length_nil, numberLength]
      omega
    | some e =>
      have hexponent := length_le_exponentLength e rest
      have hnone : fractionLength (e.text ++ rest) = 0 := by
        have hne : e.mark ≠ '.' := by rcases e.mark_eq with h | h <;> rw [h] <;> decide
        simp [Exponent.text, fractionLength, hne]
      simp only [Numeral.pointed, Exponent.textOf, Option.elim_none, Option.elim_some, List.nil_append, List.length_nil]
      rw [numberLength_of_isRun n.isRun_whole (hmark e), hnone, List.drop_zero]
      omega
  | some ds =>
    have hds := n.isRun_fraction ds hfraction
    cases n.exponent with
    | none =>
      have hrun := length_le_runLength hds rest
      simp only [Numeral.pointed, Exponent.textOf, Option.elim_none, Option.elim_some, List.nil_append, List.length_nil,
        List.cons_append, List.length_cons]
      rw [numberLength_of_isRun n.isRun_whole (hpoint _), fractionLength_of_isRun hds]
      omega
    | some e =>
      have hexponent := length_le_exponentLength e rest
      simp only [Numeral.pointed, Exponent.textOf, Option.elim_some, List.cons_append, List.length_cons]
      rw [numberLength_of_isRun n.isRun_whole (hpoint _), fractionLength_of_isRun hds, runLength_of_isRun hds (hmark e),
        List.drop_succ_cons, List.drop_left]
      omega

/-! ## The token that comes first -/

theorem text_of_mem_symbols {w : List Char × Kind} (h : w ∈ symbols) : w.2.IsSymbol ∧ w.2.text.toList = w.1 := by
  have hall : ∀ w ∈ symbols, w.2.IsSymbol ∧ w.2.text.toList = w.1 := by simp [symbols, Kind.text, Kind.IsSymbol]
  exact hall w h

theorem Kind.IsSymbol.mem_symbols {kind : Kind} (h : kind.IsSymbol) : (kind.text.toList, kind) ∈ symbols := by
  cases kind <;> first | exact h.elim | simp [symbols, Kind.text]

/-- No symbol starts with a letter, a digit or an underscore. -/
theorem Kind.IsSymbol.exists_cons {kind : Kind} (h : kind.IsSymbol) :
    ∃ c cs, kind.text.toList = c :: cs ∧ isNamePart c = false := by
  have hall : ∀ w ∈ symbols, w.1.head?.any (!isNamePart ·) := by decide
  have hfirst := hall _ h.mem_symbols
  match htext : kind.text.toList with
  | [] => simp [htext] at hfirst
  | c :: cs => exact ⟨c, cs, rfl, by simpa [htext] using hfirst⟩

/-- The first symbol of the table that fits is the longest. -/
theorem longest_of_find? {cs : List Char} {w w' : List Char × Kind}
    (h : symbols.find? (fun w => w.1.isPrefixOf cs) = some w) (hmem : w' ∈ symbols) (hpre : w'.1 <+: cs) :
    w'.1.length ≤ w.1.length := by
  have horder : symbols.Pairwise fun w w' => ¬ w.1 <+: w'.1 := by decide
  obtain ⟨hw, before, after, heq, hbefore⟩ := List.find?_eq_some_iff_append.1 h
  rw [List.isPrefixOf_iff_prefix] at hw
  by_contra hlonger
  -- A longer one has this one for a beginning, so it stands before it in the table, where nothing fits.
  have hbegin : w.1 <+: w'.1 := List.prefix_of_prefix_length_le hw hpre (Nat.le_of_not_le hlonger)
  rw [heq, List.mem_append, List.mem_cons] at hmem
  rw [heq, List.pairwise_append, List.pairwise_cons] at horder
  rcases hmem with hmem | rfl | hmem
  · have hnot := hbefore w' hmem
    simp [List.isPrefixOf_iff_prefix.2 hpre] at hnot
  · exact hlonger le_rfl
  · exact horder.2.1.1 w' hmem hbegin

theorem IsName.exists_cons (h : IsName s) : ∃ c cs, s = c :: cs ∧ isNameStart c := by
  match s, h with
  | c :: cs, h => exact ⟨c, cs, rfl, h.1⟩

theorem IsLiteral.exists_cons (h : IsLiteral s) : ∃ c cs, s = c :: cs ∧ c.isDigit := by
  obtain ⟨n, rfl⟩ := h
  unfold Numeral.text
  match n.whole, n.isRun_whole with
  | c :: cs, h => exact ⟨c, _, rfl, h.1⟩

theorem IsWord.ne_nil (h : IsWord s) : s ≠ [] := by
  cases h with
  | symbol h =>
    obtain ⟨c, cs, htext, -⟩ := h.exists_cons
    rw [htext]
    exact List.cons_ne_nil c cs
  | name h =>
    obtain ⟨c, cs, rfl, -⟩ := h.exists_cons
    exact List.cons_ne_nil c cs
  | literal h =>
    obtain ⟨c, cs, rfl, -⟩ := h.exists_cons
    exact List.cons_ne_nil c cs

/-- A literal stands for the double nearest to the decimal that it writes. -/
theorem IsLiteral.spelling (h : IsLiteral s) : Spelling s (.number ((Decimal.ofLiteral s).toFloat false)) := by
  obtain ⟨n, rfl⟩ := h
  refine .literal ⟨n, rfl⟩ ⟨n.clean, n.text_clean, n.clean.decimal.toWord, n.clean.decimal.toWord_isNearest, ?_⟩
  rw [n.ofLiteral_text, Decimal.toFloat]

theorem isName_takeWhile {c : Char} (hc : isNameStart c) (cs : List Char) :
    IsName ((c :: cs).takeWhile isNamePart) := by
  rw [List.takeWhile_cons, if_pos (isNamePart_of_isNameStart hc)]
  exact ⟨hc, fun d hd => List.mem_takeWhile_imp hd⟩

theorem IsName.length_le (h : IsName s) (rest : List Char) : s.length ≤ ((s ++ rest).takeWhile isNamePart).length := by
  have hall : ∀ c ∈ s, isNamePart c := by
    match s, h with
    | c :: cs, h => exact List.forall_mem_cons.2 ⟨isNamePart_of_isNameStart h.1, h.2⟩
  rw [List.takeWhile_append_of_pos hall, List.length_append]
  exact Nat.le_add_right _ _

section First

variable {c : Char} {cs : List Char}

/-- The first character of a word tells which kind of word it is. -/
theorem isWord_cases (h : IsWord s) (hs : s <+: c :: cs) :
    (∃ kind : Kind, kind.IsSymbol ∧ s = kind.text.toList ∧ isNamePart c = false) ∨ (IsName s ∧ isNameStart c) ∨
      (IsLiteral s ∧ c.isDigit) := by
  cases h with
  | @symbol kind h =>
    obtain ⟨d, ds, htext, hd⟩ := h.exists_cons
    obtain ⟨rfl, -⟩ := List.cons_prefix_cons.1 (htext ▸ hs)
    exact .inl ⟨kind, h, rfl, hd⟩
  | name h =>
    obtain ⟨d, ds, rfl, hd⟩ := h.exists_cons
    obtain ⟨rfl, -⟩ := List.cons_prefix_cons.1 hs
    exact .inr (.inl ⟨h, hd⟩)
  | literal h =>
    obtain ⟨d, ds, rfl, hd⟩ := h.exists_cons
    obtain ⟨rfl, -⟩ := List.cons_prefix_cons.1 hs
    exact .inr (.inr ⟨h, hd⟩)

theorem longest_number (hc : c.isDigit) :
    Longest ((c :: cs).take (numberLength (c :: cs))) ((c :: cs).drop (numberLength (c :: cs)))
      (.number ((Decimal.ofLiteral ((c :: cs).take (numberLength (c :: cs)))).toFloat false)) where
  spelling := (isLiteral_take hc cs).spelling
  longest := by
    intro s hs hword
    rw [List.take_append_drop] at hs
    rw [List.length_take, Nat.min_eq_left (numberLength_le _)]
    rcases isWord_cases hword hs with ⟨_, -, -, hpart⟩ | ⟨-, hstart⟩ | ⟨⟨n, rfl⟩, -⟩
    · cases (isNamePart_of_isDigit hc).symm.trans hpart
    · cases hc.symm.trans (not_isDigit_of_isNameStart hstart)
    · obtain ⟨rest, heq⟩ := hs
      rw [← heq]
      exact length_le_numberLength n rest

theorem longest_name (hc : isNameStart c) :
    Longest ((c :: cs).takeWhile isNamePart) ((c :: cs).drop ((c :: cs).takeWhile isNamePart).length)
      (.identifier (String.ofList ((c :: cs).takeWhile isNamePart))) where
  spelling := .name (isName_takeWhile hc cs)
  longest := by
    intro s hs hword
    rw [List.prefix_iff_eq_append.1 (List.takeWhile_prefix _)] at hs
    rcases isWord_cases hword hs with ⟨_, -, -, hpart⟩ | ⟨hname, -⟩ | ⟨-, hdigit⟩
    · cases (isNamePart_of_isNameStart hc).symm.trans hpart
    · obtain ⟨rest, heq⟩ := hs
      rw [← heq]
      exact hname.length_le rest
    · cases hdigit.symm.trans (not_isDigit_of_isNameStart hc)

/-- Where neither a digit nor the start of a name comes first, the table of symbols decides. -/
theorem lexeme?_of_symbols (hdigit : c.isDigit = false) (hstart : isNameStart c = false) :
    lexeme? (c :: cs) =
      (symbols.find? fun w => w.1.isPrefixOf (c :: cs)).map fun w => (w.2, w.1.length) := by
  unfold lexeme?
  cases symbols.find? fun w => w.1.isPrefixOf (c :: cs) with
  | some w => rfl
  | none => simp [hdigit, hstart]

theorem longest_symbol (hdigit : c.isDigit = false) (hstart : isNameStart c = false) {w : List Char × Kind}
    (h : symbols.find? (fun w => w.1.isPrefixOf (c :: cs)) = some w) :
    Longest ((c :: cs).take w.1.length) ((c :: cs).drop w.1.length) w.2 := by
  have hw := List.find?_some h
  rw [List.isPrefixOf_iff_prefix] at hw
  obtain ⟨hsymbol, htext⟩ := text_of_mem_symbols (List.mem_of_find?_eq_some h)
  have htake : (c :: cs).take w.1.length = w.1 := (List.prefix_iff_eq_take.1 hw).symm
  refine ⟨?_, fun s hs hword => ?_⟩
  · rw [htake, ← htext]
    exact .symbol hsymbol
  · rw [List.take_append_drop] at hs
    rw [htake]
    rcases isWord_cases hword hs with ⟨kind, hkind, rfl, -⟩ | ⟨-, hname⟩ | ⟨-, hnumber⟩
    · exact longest_of_find? h hkind.mem_symbols hs
    · cases hname.symm.trans hstart
    · cases hnumber.symm.trans hdigit

end First

/-- The token that comes first comes from the longest word. -/
theorem lexeme?_longest {cs : List Char} {kind : Kind} {n : Nat} (h : lexeme? cs = some (kind, n)) :
    Longest (cs.take n) (cs.drop n) kind := by
  match cs, h with
  | c :: cs, h =>
    match hdigit : c.isDigit, hstart : isNameStart c with
    | true, _ =>
      rw [lexeme?_of_isDigit hdigit] at h
      cases h
      exact longest_number hdigit
    | false, true =>
      rw [lexeme?_of_isNameStart hstart] at h
      cases h
      rw [← List.prefix_iff_eq_take.1 (List.takeWhile_prefix _)]
      exact longest_name hstart
    | false, false =>
      rw [lexeme?_of_symbols hdigit hstart] at h
      obtain ⟨w, hw, heq⟩ := Option.map_eq_some_iff.1 h
      cases heq
      exact longest_symbol hdigit hstart hw

/-- Where there is no token no word comes first. -/
theorem not_isWord_of_lexeme? {cs : List Char} (h : lexeme? cs = none) : ∀ s, s <+: cs → ¬ IsWord s := by
  intro s hs hword
  have hsymbols : symbols.find? (fun w => w.1.isPrefixOf cs) = none := by
    unfold lexeme? at h
    split at h
    · cases h
    · assumption
  cases cs with
  | nil => exact hword.ne_nil (List.prefix_nil.1 hs)
  | cons c cs =>
    rcases isWord_cases hword hs with ⟨kind, hkind, rfl, -⟩ | ⟨-, hname⟩ | ⟨-, hnumber⟩
    · exact List.find?_eq_none.1 hsymbols _ hkind.mem_symbols (List.isPrefixOf_iff_prefix.2 hs)
    · rw [lexeme?_of_isNameStart hname] at h
      cases h
    · rw [lexeme?_of_isDigit hnumber] at h
      cases h

theorem Spelling.isWord {kind : Kind} (h : Spelling s kind) : IsWord s := by
  cases h with
  | symbol h => exact .symbol h
  | name h => exact .name h
  | literal h => exact .literal h

theorem Spelling.ne_eof {kind : Kind} (h : Spelling s kind) : kind ≠ .eof := by
  cases h with
  | symbol h =>
    rintro rfl
    exact h
  | name | literal => exact nofun

end Token

end ClosureLang
