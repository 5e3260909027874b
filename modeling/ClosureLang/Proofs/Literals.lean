import Mathlib
import ClosureLang.Proofs.Spelling

/-!
# Number literals

A finite number is written so that it reads back as itself. Its digits are tested when they are chosen, and where no
short ones are found all digits are written, which are exact. How the digits are laid out does not matter to the
reader: zeros and the point move the exponent.
-/

namespace ClosureLang

/-! ## Rounding -/

namespace Binary64

theorem roundHalfEven_mul_right (q : Nat) {d : Nat} (hd : 0 < d) : roundHalfEven (q * d) d = q := by
  have hmod : q * d % d = 0 := Nat.mul_mod_left q d
  have hne : ((0 : Nat) == d) = false := beq_false_of_ne (Nat.ne_of_lt hd)
  simp [roundHalfEven, hmod, Nat.mul_div_cancel q hd, hne]

theorem scale_eq (w : Nat) : scale w = w / 2 ^ 52 - 1 := by
  unfold scale
  exact congrArg (· - 1) (Nat.shiftRight_eq_div_pow w 52)

/-- A word is its scale and its significand, one above the other. -/
theorem scale_add_significand (w : Nat) : (scale w <<< 52) + significand w = w := by
  have hscale := scale_eq w
  unfold significand
  simp only [Nat.shiftLeft_eq]
  omega

theorem significand_lt (w : Nat) : significand w < 2 ^ 53 := by
  have hscale := scale_eq w
  have hsum := scale_add_significand w
  simp only [Nat.shiftLeft_eq] at hsum
  omega

/-- The significand of a word with a scale has its leading bit. -/
theorem le_significand {w : Nat} (h : 0 < scale w) : 2 ^ 52 ≤ significand w := by
  have hscale := scale_eq w
  have hsum := scale_add_significand w
  simp only [Nat.shiftLeft_eq] at hsum
  omega

theorem log2_units (w : Nat) : (units w).log2 - 52 = scale w := by
  unfold units
  rcases Nat.eq_zero_or_pos (scale w) with hzero | hpos
  · -- Without a scale the units are the significand, and the subtraction is cut off at zero.
    rw [hzero, Nat.shiftLeft_zero]
    have hlog : (significand w).log2 < 53 := by
      rcases Nat.eq_zero_or_pos (significand w) with h | h
      · rw [h]
        decide
      · exact (Nat.log2_lt h.ne').2 (significand_lt w)
    omega
  · have hlow := le_significand hpos
    have hhigh := significand_lt w
    have hlog : (significand w <<< scale w).log2 = 52 + scale w := by
      generalize significand w = m at hlow hhigh
      generalize scale w = n
      rw [Nat.shiftLeft_eq, Nat.log2_eq_iff (by positivity)]
      have hlow' := Nat.mul_le_mul_right (2 ^ n) hlow
      have hhigh' := Nat.mul_lt_mul_of_pos_right hhigh (Nat.two_pow_pos n)
      rw [← Nat.pow_add] at hlow' hhigh'
      exact ⟨hlow', by rwa [Nat.add_right_comm]⟩
    omega

/-- A number of units that is a finite magnitude is rounded to it. -/
theorem nearest_units {w d : Nat} (hw : w < infinity) (hd : 0 < d) : nearest (units w * d) d = w := by
  have hdigits : roundHalfEven (units w * d) (d <<< scale w) = significand w := by
    have heq : units w * d = significand w * (d <<< scale w) := by
      rw [units, Nat.shiftLeft_eq, Nat.shiftLeft_eq, Nat.mul_assoc, Nat.mul_comm (2 ^ scale w) d]
    rw [heq, roundHalfEven_mul_right]
    rw [Nat.shiftLeft_eq]
    positivity
  simp only [nearest]
  rw [Nat.mul_div_cancel _ hd, log2_units, hdigits, scale_add_significand]
  exact Nat.min_eq_right (Nat.le_of_lt hw)

theorem units_pos {w : Nat} (h : w ≠ 0) : 0 < units w := by
  have hsum := scale_add_significand w
  rw [units, Nat.shiftLeft_eq]
  refine Nat.mul_pos ?_ (Nat.two_pow_pos _)
  rcases Nat.eq_zero_or_pos (scale w) with hzero | hpos
  · rw [hzero, Nat.zero_shiftLeft] at hsum
    omega
  · exact Nat.lt_of_lt_of_le (Nat.two_pow_pos 52) (le_significand hpos)

theorem nearest_le (n d : Nat) : nearest n d ≤ infinity := Nat.min_le_left _ _

/-! ## Words of numbers -/

section Words

open Float.Model

variable {w : Nat}

theorem infinity_eq : infinity = 2047 * 2 ^ 52 := by
  unfold infinity
  rw [Nat.shiftLeft_eq]

theorem toNat_unpackExponent (h : w ≤ infinity) :
    (@UnpackedFloat.unpackExponent Format.binary64 (UInt64.ofNat w).toBitVec).toNat = w / 2 ^ 52 := by
  have hinfinity := infinity_eq
  unfold UnpackedFloat.unpackExponent
  simp [Nat.shiftRight_eq_div_pow]
  omega

theorem toNat_unpackMantissa :
    (@UnpackedFloat.unpackMantissa Format.binary64 (UInt64.ofNat w).toBitVec).toNat = w % 2 ^ 52 := by
  unfold UnpackedFloat.unpackMantissa
  simp

theorem unpackExponent_eq_iff (h : w ≤ infinity) :
    @UnpackedFloat.unpackExponent Format.binary64 (UInt64.ofNat w).toBitVec = -1#11 ↔ w = infinity := by
  have hinfinity := infinity_eq
  rw [← BitVec.toNat_inj, toNat_unpackExponent h, show (-1#11).toNat = 2047 from rfl]
  omega

theorem unpackMantissa_infinity :
    @UnpackedFloat.unpackMantissa Format.binary64 (UInt64.ofNat infinity).toBitVec = 0#52 := by
  rw [← BitVec.toNat_inj, toNat_unpackMantissa, infinity_eq]
  exact Nat.mul_mod_left _ _

/-- The words up to infinity are no NaN, so that they are kept as they are. -/
theorem toBits_ofWord (h : w ≤ infinity) : (ofWord false w).toBits = UInt64.ofNat w := by
  have hnan : @UnpackedFloat.isNaNBits Format.binary64 (UInt64.ofNat w).toBitVec = false := by
    unfold UnpackedFloat.isNaNBits
    rw [decide_eq_false_iff_not]
    -- A NaN has the exponent of infinity, but not its mantissa.
    rintro ⟨hexponent, hmantissa⟩
    rw [(unpackExponent_eq_iff h).1 hexponent] at hmantissa
    exact hmantissa unpackMantissa_infinity
  have hpack := @UnpackedFloat.pack_unpack Format.binary64 (UInt64.ofNat w).toBitVec
  rw [hnan, if_neg Bool.false_ne_true] at hpack
  exact congrArg UInt64.ofBitVec hpack

theorem word_ofWord (h : w ≤ infinity) : word (ofWord false w) = w := by
  have hinfinity := infinity_eq
  rw [word, toBits_ofWord h, UInt64.toNat_ofNat', signWord, Nat.shiftLeft_eq]
  omega

theorem negative_ofWord (h : w ≤ infinity) : negative (ofWord false w) = false := by
  have hinfinity := infinity_eq
  rw [negative, toBits_ofWord h, UInt64.toNat_ofNat', signWord, Nat.shiftLeft_eq, decide_eq_false_iff_not]
  omega

theorem isFinite_ofWord_iff (h : w ≤ infinity) : (ofWord false w).isFinite ↔ w < infinity := by
  have hunpack : (ofWord false w).isFinite =
      (UnpackedFloat.unpack Format.binary64 (UInt64.ofNat w).toBitVec).isFinite := by
    rw [← toBits_ofWord h]
    rfl
  rw [hunpack, UnpackedFloat.unpack]
  by_cases hw : w = infinity
  · subst hw
    have hexponent := (unpackExponent_eq_iff (Nat.le_refl _)).2 rfl
    simp only [hexponent, unpackMantissa_infinity, if_true]
    simp [UnpackedFloat.isFinite]
  · have hexponent := mt (unpackExponent_eq_iff h).1 hw
    simp only [hexponent, if_false]
    have hlt : w < infinity := Nat.lt_of_le_of_ne h hw
    simp only [hlt, iff_true]
    repeat' split
    all_goals rfl

end Words

end Binary64

namespace Decimal

theorem toWord_le (d : Decimal) : d.toWord ≤ Binary64.infinity := by
  unfold toWord
  repeat' split
  · exact Nat.zero_le _
  · exact Nat.le_refl _
  · exact Nat.zero_le _
  · exact Binary64.nearest_le _ _

theorem pow_five_shiftLeft (u k : Nat) : (u * Nat.pow 5 k * Nat.pow 10 0) <<< k = u * Nat.pow 10 k := by
  calc (u * 5 ^ k * 10 ^ 0) <<< k = u * 5 ^ k * 2 ^ k := by rw [pow_zero, mul_one, Nat.shiftLeft_eq]
    _ = u * (5 * 2) ^ k := by rw [mul_assoc, mul_pow]

theorem mul_pow_five_ne_zero {u : Nat} (hu : 0 < u) (k : Nat) : u * Nat.pow 5 k ≠ 0 :=
  (Nat.mul_pos hu (Nat.pow_pos (by decide))).ne'

theorem le_log2_pow_five {u : Nat} (hu : 0 < u) (k : Nat) : k ≤ (u * Nat.pow 5 k).log2 := by
  have hle : 2 ^ k ≤ u * 5 ^ k := calc
    2 ^ k ≤ 5 ^ k := Nat.pow_le_pow_left (by decide) k
    _ ≤ u * 5 ^ k := Nat.le_mul_of_pos_left _ hu
  exact (Nat.le_log2 (mul_pow_five_ne_zero hu k)).2 hle

/-- All digits of a number read back as the number. -/
theorem toWord_exact {w : Nat} (hw : w < Binary64.infinity) (h : w ≠ 0) : (exact w).toWord = w := by
  have hunits := Binary64.units_pos h
  -- The digits are those of the units, each `2 ^ (-1074)`, written over `10 ^ 1074`.
  have hdigits := mul_pow_five_ne_zero hunits 1074
  have hlog := le_log2_pow_five hunits 1074
  unfold toWord exact
  dsimp only
  rw [if_neg hdigits, if_neg (by decide), if_neg (by omega)]
  rw [show (-1074 : Int).toNat = 0 from rfl, show (-(-1074) : Int).toNat = 1074 from rfl, pow_five_shiftLeft]
  exact Binary64.nearest_units hw (Nat.pow_pos (by decide))

theorem toWord_of_onGrid? {w : Nat} {exponent : Int} {d : Decimal} (h : onGrid? w exponent = some d) :
    d.toWord = w := by
  unfold onGrid? at h
  generalize neighbours w exponent = around at h
  obtain ⟨lower, upper, up⟩ := around
  dsimp only at h
  split at h
  · next hlower hupper =>
    cases h
    split
    · exact beq_iff_eq.1 hupper
    · exact beq_iff_eq.1 hlower
  · next hlower _ =>
    cases h
    exact beq_iff_eq.1 hlower
  · next _ hupper =>
    cases h
    exact beq_iff_eq.1 hupper
  · cases h

theorem toWord_search {w : Nat} (hw : w < Binary64.infinity) (h : w ≠ 0) (exponent : Int) (tries : Nat) :
    (search w exponent tries).toWord = w := by
  induction tries generalizing exponent with
  | zero => exact toWord_exact hw h
  | succ tries ih =>
    rw [search]
    split
    · next d hd => exact toWord_of_onGrid? hd
    · exact ih _

/-- The digits that are written for a finite number read back as the number. -/
theorem toWord_shortest {w : Nat} (hw : w < Binary64.infinity) : (shortest w).toWord = w := by
  unfold shortest
  split
  · next h => rw [h, toWord, if_pos rfl]
  · next h => exact toWord_search hw h _ _

/-- Zeros after the digits are part of the exponent, as long as it is that of a finite number. -/
theorem toWord_mul_pow {n : Nat} {e : Int} (he : 0 ≤ e) (hw : (⟨n, e⟩ : Decimal).toWord < Binary64.infinity) :
    (⟨n * 10 ^ e.toNat, 0⟩ : Decimal).toWord = (⟨n, e⟩ : Decimal).toWord := by
  unfold toWord at hw ⊢
  dsimp only at hw ⊢
  by_cases hn : n = 0
  · simp [hn]
  · have hne : n * 10 ^ e.toNat ≠ 0 := by positivity
    rw [if_neg hn] at hw ⊢
    rw [if_neg hne, if_neg (by decide), if_neg (by omega)]
    split at hw
    · exact absurd hw (Nat.lt_irrefl _)
    · next hsmall =>
      rw [if_neg hsmall, if_neg (by omega), show (-e).toNat = 0 by omega]
      simp

end Decimal

/-! ## Layout -/

namespace Token

/-- Digits, and after a point more of them if there are any. -/
def plainLiteral (whole fraction : List Char) : List Char :=
  whole ++ if fraction = [] then [] else '.' :: fraction

variable {whole fraction : List Char}

theorem runLength_of_all {s : List Char} (h : ∀ c ∈ s, c.isDigit) : runLength s = s.length := by
  rw [runLength, List.takeWhile_eq_self_iff.2 fun c hc => by simp [isDigitOrMark, h c hc]]

theorem numberLength_plainLiteral (hwhole : ∀ c ∈ whole, c.isDigit) (hfraction : ∀ c ∈ fraction, c.isDigit) :
    numberLength (plainLiteral whole fraction) = (plainLiteral whole fraction).length := by
  have hrun (rest : List Char) (hrest : ∀ c ∈ rest.head?, isDigitOrMark c = false) :
      runLength (whole ++ rest) = whole.length := by
    rw [runLength, takeWhile_append_of_head hrest, ← runLength, runLength_of_all hwhole]
  unfold plainLiteral
  cases fraction with
  | nil => simp [numberLength, runLength_of_all hwhole, fractionLength, exponentLength]
  | cons f fs =>
    have hf : f.isDigit = true := hfraction f List.mem_cons_self
    have hpoint : runLength (whole ++ '.' :: f :: fs) = whole.length := by
      refine hrun _ fun c hc => ?_
      cases hc
      decide
    have hlength : fractionLength ('.' :: f :: fs) = fs.length + 2 := by
      simp [fractionLength, hf, runLength_of_all hfraction]
    have hend : (whole ++ '.' :: f :: fs).drop (whole.length + (fs.length + 2)) = [] :=
      List.drop_eq_nil_of_le (by simp)
    simp only [if_neg (List.cons_ne_nil f fs), numberLength, hpoint, List.drop_left, hlength, hend, exponentLength]
    simp

theorem ofLiteral_plainLiteral (hwhole : ∀ c ∈ whole, c.isDigit) (hfraction : ∀ c ∈ fraction, c.isDigit) :
    Decimal.ofLiteral (plainLiteral whole fraction) =
      ⟨Nat.ofDigitChars 10 (whole ++ fraction) 0, -(fraction.length : Int)⟩ := by
  have hmark (c : Char) (hc : c.isDigit) : (c != '_') = true := by
    rw [bne_iff_ne]
    rintro rfl
    cases hc
  have hkept (s : List Char) (hs : ∀ c ∈ s, c.isDigit) : s.filter (· != '_') = s :=
    List.filter_eq_self.2 fun c hc => hmark c (hs c hc)
  have hdigits (s : List Char) (hs : ∀ c ∈ s, c.isDigit) : s.takeWhile Char.isDigit = s :=
    List.takeWhile_eq_self_iff.2 hs
  have hnone (s : List Char) (hs : ∀ c ∈ s, c.isDigit) : s.dropWhile Char.isDigit = [] :=
    List.dropWhile_eq_nil_iff.2 hs
  unfold plainLiteral Decimal.ofLiteral
  cases fraction with
  | nil =>
    simp [hkept _ hwhole, hdigits _ hwhole, hnone _ hwhole, Decimal.natOfDigits, Nat.ofDigitChars_eq_foldl]
  | cons f fs =>
    have hfilter : (whole ++ '.' :: f :: fs).filter (· != '_') = whole ++ '.' :: f :: fs := by
      rw [List.filter_append, hkept _ hwhole, List.filter_cons_of_pos (by decide), hkept _ hfraction]
    have htake : (whole ++ '.' :: f :: fs).takeWhile Char.isDigit = whole := by
      rw [takeWhile_append_of_head, hdigits _ hwhole]
      intro c hc
      cases hc
      decide
    have hdrop : (whole ++ '.' :: f :: fs).dropWhile Char.isDigit = '.' :: f :: fs := by
      rw [List.dropWhile_append_of_pos hwhole]
      rfl
    simp only [if_neg (List.cons_ne_nil f fs), hfilter, htake, hdrop, hdigits _ hfraction, hnone _ hfraction,
      Decimal.natOfDigits, Nat.ofDigitChars_eq_foldl]
    simp

end Token

namespace Number

theorem toList_decimalText_plain (d : Decimal) :
    (decimalText plain d).toList =
      let ds := Nat.toDigits 10 d.digits
      if 0 ≤ d.exponent then ds ++ List.replicate d.exponent.toNat '0'
      else
        let places := (-d.exponent).toNat
        if places < ds.length then ds.take (ds.length - places) ++ '.' :: ds.drop (ds.length - places)
        else '0' :: '.' :: (List.replicate (places - ds.length) '0' ++ ds) := by
  unfold decimalText positionalText plain
  simp only [Bool.or_true, if_true, Nat.toString_eq_ofList_toDigits, Bool.false_eq_true, if_false]
  split
  · simp
  · split
    · next h =>
      rw [String.length_ofList] at h
      simp [h]
    · next h =>
      rw [String.length_ofList] at h
      simp [h]

/-- A decimal is laid out as a literal that writes it. -/
theorem decimalText_plain (d : Decimal) (hd : d.toWord < Binary64.infinity) :
    ∃ whole fraction, (decimalText plain d).toList = Token.plainLiteral whole fraction ∧ whole ≠ [] ∧
      (∀ c ∈ whole, c.isDigit) ∧ (∀ c ∈ fraction, c.isDigit) ∧
      (⟨Nat.ofDigitChars 10 (whole ++ fraction) 0, -(fraction.length : Int)⟩ : Decimal).toWord = d.toWord := by
  obtain ⟨n, e⟩ := d
  rw [toList_decimalText_plain]
  dsimp only
  have hne : Nat.toDigits 10 n ≠ [] := Nat.toDigits_ne_nil
  have hdigits : ∀ c ∈ Nat.toDigits 10 n, c.isDigit :=
    fun c hc => Nat.isDigit_of_mem_toDigits (by decide) (by decide) hc
  have hvalue : Nat.ofDigitChars 10 (Nat.toDigits 10 n) 0 = n := Nat.ofDigitChars_ten_toDigits
  generalize Nat.toDigits 10 n = ds at hne hdigits hvalue
  have hzeros (k : Nat) : ∀ c ∈ List.replicate k '0', c.isDigit := by
    intro c hc
    rw [List.eq_of_mem_replicate hc]
    decide
  have hboth {s t : List Char} (hs : ∀ c ∈ s, c.isDigit) (ht : ∀ c ∈ t, c.isDigit) : ∀ c ∈ s ++ t, c.isDigit :=
    fun c hc => (List.mem_append.1 hc).elim (hs c) (ht c)
  split
  · next he =>
    refine ⟨ds ++ List.replicate e.toNat '0', [], by simp [Token.plainLiteral], by simp [hne],
      hboth hdigits (hzeros _), by simp, ?_⟩
    rw [List.append_nil, Nat.ofDigitChars_append, hvalue, Nat.ofDigitChars_replicate_zero, Nat.mul_comm]
    exact Decimal.toWord_mul_pow he hd
  · next he =>
    obtain ⟨places, rfl⟩ : ∃ k : Nat, e = -(k : Int) := ⟨(-e).toNat, by omega⟩
    rw [show (- -(places : Int)).toNat = places by omega]
    split
    · next hlt =>
      have hfraction : ds.drop (ds.length - places) ≠ [] := by
        rw [← List.length_pos_iff, List.length_drop]
        omega
      have hwhole : ds.take (ds.length - places) ≠ [] := by
        rw [← List.length_pos_iff, List.length_take]
        omega
      refine ⟨ds.take (ds.length - places), ds.drop (ds.length - places), by simp [Token.plainLiteral, hfraction],
        hwhole, fun c hc => hdigits c (List.mem_of_mem_take hc), fun c hc => hdigits c (List.mem_of_mem_drop hc), ?_⟩
      rw [List.take_append_drop, hvalue, List.length_drop, Nat.sub_sub_self (Nat.le_of_lt hlt)]
    · next hle =>
      -- All digits stand after the point, with zeros before them that do not count.
      refine ⟨['0'], List.replicate (places - ds.length) '0' ++ ds, by simp [Token.plainLiteral, hne], by simp,
        hzeros 1, hboth (hzeros _) hdigits, ?_⟩
      rw [List.length_append, List.length_replicate, Nat.sub_add_cancel (Nat.le_of_not_lt hle), List.singleton_append,
        Nat.ofDigitChars_cons, Nat.ofDigitChars_append, Nat.ofDigitChars_replicate_zero]
      simp [hvalue]

theorem text_of_finite {w : Nat} (hw : w < Binary64.infinity) :
    text (Binary64.ofWord false w) = decimalText plain (Decimal.shortest w) := by
  have hle := Nat.le_of_lt hw
  rw [text, render, Binary64.word_ofWord hle, Binary64.negative_ofWord hle]
  simp [Nat.not_lt.2 hle, hw.ne]

theorem text_infinity : text (Binary64.ofWord false Binary64.infinity) = "inf" := by
  rw [text, render, Binary64.word_ofWord (Nat.le_refl _), Binary64.negative_ofWord (Nat.le_refl _)]
  simp

/-- A finite number reads back from its text, whatever breaks the text off. -/
theorem lexeme?_text {w : Nat} (hw : w < Binary64.infinity) :
    ∃ c cs, (text (Binary64.ofWord false w)).toList = c :: cs ∧ c.isDigit ∧
      ∀ rest, Token.Breaks rest →
        Token.lexeme? (c :: cs ++ rest) = some (.number (Binary64.ofWord false w), (c :: cs).length) := by
  have hshortest := Decimal.toWord_shortest hw
  obtain ⟨whole, fraction, htext, hne, hwhole, hfraction, hword⟩ :=
    decimalText_plain (Decimal.shortest w) (by rwa [hshortest])
  rw [text_of_finite hw, htext]
  obtain ⟨c, whole, rfl⟩ := List.exists_cons_of_ne_nil hne
  have hc : c.isDigit := hwhole c List.mem_cons_self
  have hlength := Token.numberLength_plainLiteral hwhole hfraction
  have hvalue := Token.ofLiteral_plainLiteral hwhole hfraction
  generalize hliteral : Token.plainLiteral (c :: whole) fraction = literal at hlength hvalue
  obtain ⟨cs, rfl⟩ : ∃ cs, literal = c :: cs := ⟨_, hliteral.symm⟩
  refine ⟨c, cs, rfl, hc, fun rest hrest => ?_⟩
  rw [Token.lexeme?_append (.inl hc) cs hrest, Token.lexeme?_of_isDigit hc, hlength, List.take_length, hvalue,
    Decimal.toFloat, hword, hshortest]

end Number

end ClosureLang
