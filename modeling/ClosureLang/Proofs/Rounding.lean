import Mathlib
import ClosureLang.Proofs.Literals

/-!
# Rounding to the nearest double

A decimal is read as the double that is nearest to it, and as the one with the even word where two are equally near.
Infinity counts as the power of two above the largest finite number, so what is nearer to that than to any finite
number is read as infinity.
-/

namespace ClosureLang

namespace Binary64

/-! ## Words and their units -/

/-- A full significand of one scale is the least one of the next. -/
theorem full_mul_pow (s : Nat) : 2 ^ 53 * 2 ^ s = 2 ^ 52 * 2 ^ (s + 1) := by ring

/-- The next word has one more unit of the last place. -/
theorem units_succ (w : Nat) : units (w + 1) = units w + 2 ^ scale w := by
  have hsum := scale_add_significand w
  have hsum' := scale_add_significand (w + 1)
  have hscale := scale_eq w
  have hscale' := scale_eq (w + 1)
  simp only [units, Nat.shiftLeft_eq] at hsum hsum' ⊢
  by_cases hcarry : scale (w + 1) = scale w
  · have hdigits : significand (w + 1) = significand w + 1 := by omega
    rw [hcarry, hdigits, Nat.succ_mul]
  · have hnext : scale (w + 1) = scale w + 1 := by omega
    have hdigits : significand (w + 1) = 2 ^ 52 := by omega
    have hfull : significand w + 1 = 2 ^ 53 := by omega
    rw [← Nat.succ_mul, Nat.succ_eq_add_one, hfull, hdigits, hnext, full_mul_pow]

theorem units_strictMono : StrictMono units :=
  strictMono_nat_of_lt_succ fun w => by
    rw [units_succ]
    exact Nat.lt_add_of_pos_right (Nat.two_pow_pos _)

theorem le_scale {s r : Nat} (h : s = 0 ∨ 2 ^ 52 ≤ r) : s ≤ scale ((s <<< 52) + r) := by
  rw [scale_eq, Nat.shiftLeft_eq]
  omega

/-- The units of a word that is made of a scale and digits, even if the digits just overflow. -/
theorem units_of_digits {s r : Nat} (hr : r ≤ 2 ^ 53) (h : s = 0 ∨ 2 ^ 52 ≤ r) :
    units ((s <<< 52) + r) = r * 2 ^ s := by
  have hsum := scale_add_significand ((s <<< 52) + r)
  have hscale := scale_eq ((s <<< 52) + r)
  simp only [units, Nat.shiftLeft_eq] at hsum hscale ⊢
  by_cases hfull : r = 2 ^ 53
  · have hnext : scale (s * 2 ^ 52 + r) = s + 1 := by omega
    have hdigits : significand (s * 2 ^ 52 + r) = 2 ^ 52 := by omega
    rw [hnext, hdigits, hfull, full_mul_pow]
  · have hsame : scale (s * 2 ^ 52 + r) = s := by omega
    have hdigits : significand (s * 2 ^ 52 + r) = r := by omega
    rw [hsame, hdigits]

/-! ## The nearest word -/

/-- The magnitude of a word. That of infinity is the power of two above all finite magnitudes. -/
def magnitude (w : Nat) : ℚ := units w / 2 ^ 1074

/-- No word is nearer to the number, and if another is as near, this one is even. -/
def IsNearest (q : ℚ) (w : Nat) : Prop :=
  w ≤ infinity ∧ ∀ v ≤ infinity, v ≠ w →
    |q - magnitude w| < |q - magnitude v| ∨ |q - magnitude w| = |q - magnitude v| ∧ Even w

theorem roundHalfEven_error (n : Nat) {d : Nat} (hd : 0 < d) :
    |(n : ℚ) / d - roundHalfEven n d| ≤ 1 / 2 ∧
      (|(n : ℚ) / d - roundHalfEven n d| = 1 / 2 → Even (roundHalfEven n d)) := by
  have hd' : (0 : ℚ) < d := by exact_mod_cast hd
  have hsplit : (n : ℚ) / d = (n / d : Nat) + (n % d : Nat) / d := by
    rw [div_eq_iff hd'.ne', add_mul, div_mul_cancel₀ _ hd'.ne']
    exact_mod_cast (Nat.div_add_mod' n d).symm
  -- The part that is cut off decides, and the quotient where that part is a half.
  have hlow : ((n % d : Nat) : ℚ) / d ≤ 1 / 2 ↔ 2 * (n % d) ≤ d := by
    rw [div_le_div_iff₀ hd' two_pos, one_mul, mul_comm]
    exact_mod_cast Iff.rfl
  have hhalf : ((n % d : Nat) : ℚ) / d = 1 / 2 ↔ 2 * (n % d) = d := by
    rw [div_eq_div_iff hd'.ne' two_ne_zero, one_mul, mul_comm]
    exact_mod_cast Iff.rfl
  have hless : ((n % d : Nat) : ℚ) / d < 1 := by
    rw [div_lt_one hd']
    exact_mod_cast Nat.mod_lt n hd
  have hpos : (0 : ℚ) ≤ ((n % d : Nat) : ℚ) / d := by positivity
  rw [hsplit]
  generalize ((n % d : Nat) : ℚ) / d = t at *
  unfold roundHalfEven
  dsimp only
  split
  · next hup =>
    simp only [Bool.or_eq_true, decide_eq_true_eq, Bool.and_eq_true, beq_iff_eq] at hup
    have hge : 1 / 2 ≤ t := by
      rw [← not_lt, lt_iff_le_and_ne, hlow, Ne, hhalf]
      omega
    have herror : |((n / d : Nat) : ℚ) + t - ((n / d + 1 : Nat) : ℚ)| = 1 - t := by
      rw [abs_of_nonpos] <;> push_cast <;> linarith
    rw [herror]
    refine ⟨by linarith, fun htie => ?_⟩
    have hd2 := hhalf.1 (by linarith)
    rw [Nat.even_iff]
    omega
  · next hdown =>
    simp only [Bool.or_eq_true, decide_eq_true_eq, Bool.and_eq_true, beq_iff_eq] at hdown
    have herror : |((n / d : Nat) : ℚ) + t - ((n / d : Nat) : ℚ)| = t := by
      rw [add_sub_cancel_left, abs_of_nonneg hpos]
    rw [herror]
    refine ⟨hlow.2 (by omega), fun htie => ?_⟩
    have hd2 := hhalf.1 htie
    rw [Nat.even_iff]
    omega

/-- What is at least a whole step away is no nearer than what is at most half a step away. -/
theorem near_of_step {x u v p : ℚ} (hnear : |x - u| ≤ p / 2) (hstep : u + p ≤ v ∨ v + p ≤ u) :
    |x - u| < |x - v| ∨ |x - u| = |x - v| ∧ |x - u| = p / 2 := by
  have htri : p ≤ |x - u| + |x - v| := by
    have habs : p ≤ |u - v| := by
      rcases hstep with h | h
      · rw [abs_sub_comm]
        exact le_trans (by linarith) (le_abs_self _)
      · exact le_trans (by linarith) (le_abs_self _)
    calc p ≤ |u - v| := habs
      _ ≤ |u - x| + |x - v| := abs_sub_le u x v
      _ = |x - u| + |x - v| := by rw [abs_sub_comm u x]
  rcases lt_or_eq_of_le hnear with h | h
  · exact .inl (by linarith)
  · rcases lt_or_eq_of_le (show |x - u| ≤ |x - v| by linarith) with h' | h'
    · exact .inl h'
    · exact .inr ⟨h', h⟩

theorem le_roundHalfEven (n d : Nat) : n / d ≤ roundHalfEven n d := by
  unfold roundHalfEven
  dsimp only
  split <;> omega

theorem roundHalfEven_le (n d : Nat) : roundHalfEven n d ≤ n / d + 1 := by
  unfold roundHalfEven
  dsimp only
  split <;> omega

/-- The scale at which the digits of `n / d` fill a significand, if there are enough of them. -/
def scaleFor (n d : Nat) : Nat := (n / d).log2 - 52

/-- The word nearest to `n / d` units, as if words went on above infinity. -/
def rounded (n d : Nat) : Nat := (scaleFor n d <<< 52) + roundHalfEven n (d <<< scaleFor n d)

theorem nearest_eq (n d : Nat) : nearest n d = min infinity (rounded n d) := rfl

section Nearest

variable {n d : Nat}

theorem digits_le (n d : Nat) : roundHalfEven n (d <<< scaleFor n d) ≤ 2 ^ 53 := by
  have hdigits : n / d / 2 ^ scaleFor n d < 2 ^ 53 := by
    rw [Nat.div_lt_iff_lt_mul (Nat.two_pow_pos _), ← Nat.pow_add]
    calc n / d < 2 ^ ((n / d).log2 + 1) := Nat.lt_log2_self
      _ ≤ 2 ^ (53 + scaleFor n d) := Nat.pow_le_pow_right two_pos (by unfold scaleFor; omega)
  have hround := roundHalfEven_le n (d <<< scaleFor n d)
  rw [Nat.shiftLeft_eq, ← Nat.div_div_eq_div_mul] at hround
  rw [Nat.shiftLeft_eq]
  omega

theorem scaled_le (h : scaleFor n d ≠ 0) : 2 ^ 52 * 2 ^ scaleFor n d ≤ n / d := by
  have hlog : 52 + scaleFor n d = (n / d).log2 := by
    unfold scaleFor at h ⊢
    omega
  have hne : n / d ≠ 0 := by
    intro hzero
    rw [hzero, Nat.log2_zero] at hlog
    omega
  rw [← Nat.pow_add, hlog]
  exact Nat.log2_self_le hne

theorem le_digits (h : scaleFor n d ≠ 0) : 2 ^ 52 ≤ roundHalfEven n (d <<< scaleFor n d) := by
  refine le_trans ?_ (le_roundHalfEven _ _)
  rw [Nat.shiftLeft_eq, ← Nat.div_div_eq_div_mul, Nat.le_div_iff_mul_le (Nat.two_pow_pos _)]
  exact scaled_le h

theorem units_rounded (n d : Nat) :
    units (rounded n d) = roundHalfEven n (d <<< scaleFor n d) * 2 ^ scaleFor n d :=
  units_of_digits (digits_le n d) (or_iff_not_imp_left.2 le_digits)

/-- The rounded word is off by at most half a step of its scale, and by just that only if it is even. -/
theorem rounded_error (hd : 0 < d) :
    |(n : ℚ) / d - units (rounded n d)| ≤ 2 ^ scaleFor n d / 2 ∧
      (|(n : ℚ) / d - units (rounded n d)| = 2 ^ scaleFor n d / 2 → Even (rounded n d)) := by
  have hpow : (0 : ℚ) < 2 ^ scaleFor n d := by positivity
  obtain ⟨herror, htie⟩ := roundHalfEven_error n (d := d <<< scaleFor n d) (by rw [Nat.shiftLeft_eq]; positivity)
  have hscaled : |(n : ℚ) / d - units (rounded n d)| =
      |(n : ℚ) / (d <<< scaleFor n d : Nat) - roundHalfEven n (d <<< scaleFor n d)| * 2 ^ scaleFor n d := by
    rw [units_rounded]
    generalize roundHalfEven n (d <<< scaleFor n d) = r
    rw [← abs_of_pos hpow, ← abs_mul, sub_mul, Nat.shiftLeft_eq]
    push_cast
    rw [div_mul_eq_mul_div, mul_div_mul_right _ _ hpow.ne']
  rw [hscaled]
  constructor
  · linarith [mul_le_mul_of_nonneg_right herror hpow.le]
  · intro h
    have hhalf := mul_right_cancel₀ hpow.ne' (h.trans (div_eq_mul_one_div _ _ |>.trans (mul_comm _ _)))
    rw [rounded, Nat.shiftLeft_eq]
    exact (Nat.even_mul.2 (.inr (by decide))).add (htie hhalf)

theorem add_step_le_units {v w : Nat} (h : w < v) : units w + 2 ^ scale w ≤ units v := by
  rw [← units_succ]
  exact units_strictMono.monotone h

/-- Among all words, those above infinity included, the rounded one is nearest. -/
theorem rounded_nearest (hd : 0 < d) {v : Nat} (hv : v ≠ rounded n d) :
    |(n : ℚ) / d - units (rounded n d)| < |(n : ℚ) / d - units v| ∨
      |(n : ℚ) / d - units (rounded n d)| = |(n : ℚ) / d - units v| ∧ Even (rounded n d) := by
  obtain ⟨hnear, heven⟩ := rounded_error (n := n) hd
  have hfar (h : (units (rounded n d) : ℚ) + 2 ^ scaleFor n d ≤ units v ∨
      (units v : ℚ) + 2 ^ scaleFor n d ≤ units (rounded n d)) :=
    (near_of_step hnear h).imp_right fun ⟨heq, htie⟩ => And.intro heq (heven htie)
  have hscale {w : Nat} (h : scaleFor n d ≤ scale w) : 2 ^ scaleFor n d ≤ 2 ^ scale w :=
    Nat.pow_le_pow_right two_pos h
  rcases Nat.lt_or_gt_of_ne hv with hlt | hgt
  · obtain ⟨w, hw⟩ := Nat.exists_eq_succ_of_ne_zero (Nat.ne_of_gt (Nat.zero_lt_of_lt hlt))
    by_cases hleast : scaleFor n d ≠ 0 ∧ roundHalfEven n (d <<< scaleFor n d) = 2 ^ 52
    · -- Below the least significand of a scale the steps are smaller, but there the number is not.
      obtain ⟨hne, hdigits⟩ := hleast
      have hle : (units (rounded n d) : ℚ) ≤ n / d := by
        rw [units_rounded, hdigits]
        refine le_trans ?_ Nat.cast_div_le
        exact_mod_cast scaled_le hne
      have hless : (units v : ℚ) < units (rounded n d) := by exact_mod_cast units_strictMono hlt
      left
      rw [abs_of_nonneg (sub_nonneg.2 hle), abs_of_nonneg (by linarith)]
      linarith
    · refine hfar (.inr ?_)
      have hstep : scaleFor n d ≤ scale w := by
        by_cases hzero : scaleFor n d = 0
        · rw [hzero]
          exact Nat.zero_le _
        · have hdigits := le_digits hzero
          have hword : w = (scaleFor n d <<< 52) + (roundHalfEven n (d <<< scaleFor n d) - 1) := by
            rw [rounded] at hw
            omega
          rw [hword]
          exact le_scale (.inr (by omega))
      have hdown : units v + 2 ^ scaleFor n d ≤ units (rounded n d) := by
        rw [hw, Nat.succ_eq_add_one, units_succ]
        have hle : v ≤ w := by omega
        exact Nat.add_le_add (units_strictMono.monotone hle) (hscale hstep)
      exact_mod_cast hdown
  · refine hfar (.inl ?_)
    have hstep : scaleFor n d ≤ scale (rounded n d) := le_scale (or_iff_not_imp_left.2 le_digits)
    exact_mod_cast (Nat.add_le_add_left (hscale hstep) _).trans (add_step_le_units hgt)

/-- A number that is no nearer to the lower of two others lies above it. -/
theorem le_of_abs_sub_le {x u v : ℚ} (h : |x - v| ≤ |x - u|) (huv : u < v) : u ≤ x := by
  by_contra hlt
  rw [not_le] at hlt
  rw [abs_of_neg (by linarith), abs_of_neg (by linarith)] at h
  linarith

theorem abs_sub_lt_of_le {x u v : ℚ} (hvu : v < u) (hux : u ≤ x) : |x - u| < |x - v| := by
  rw [abs_of_nonneg (by linarith), abs_of_nonneg (by linarith)]
  linarith

theorem nearest_isNearest (hd : 0 < d) : IsNearest ((n : ℚ) / d / 2 ^ 1074) (nearest n d) := by
  refine ⟨nearest_le n d, fun v hv hne => ?_⟩
  have hscaled (w : Nat) : |(n : ℚ) / d / 2 ^ 1074 - magnitude w| = |(n : ℚ) / d - units w| / 2 ^ 1074 := by
    rw [magnitude, ← sub_div, abs_div, abs_of_pos (by positivity : (0 : ℚ) < 2 ^ 1074)]
  rw [hscaled, hscaled, div_lt_div_iff_of_pos_right (by positivity), div_left_inj' (by positivity)]
  rcases Nat.lt_or_ge infinity (rounded n d) with hlt | hle
  · -- What is rounded to a word above infinity lies above infinity.
    rw [nearest_eq, Nat.min_eq_left hlt.le] at hne ⊢
    have hle : |(n : ℚ) / d - units (rounded n d)| ≤ |(n : ℚ) / d - units infinity| :=
      (rounded_nearest hd hlt.ne).elim le_of_lt fun h => h.1.le
    have habove := le_of_abs_sub_le hle (by exact_mod_cast units_strictMono hlt)
    exact .inl (abs_sub_lt_of_le (by exact_mod_cast units_strictMono (lt_of_le_of_ne hv hne)) habove)
  · rw [nearest_eq, Nat.min_eq_right hle] at hne ⊢
    exact rounded_nearest hd hne

end Nearest

/-! ## Numbers far off -/

theorem magnitude_strictMono : StrictMono magnitude := by
  intro v w h
  unfold magnitude
  rw [div_lt_div_iff_of_pos_right (by positivity)]
  exact_mod_cast units_strictMono h

theorem magnitude_zero : magnitude 0 = 0 := by
  rw [magnitude, show units 0 = 0 from rfl, Nat.cast_zero, zero_div]

theorem magnitude_one : magnitude 1 = 1 / 2 ^ 1074 := by
  rw [magnitude, show units 1 = 1 from rfl, Nat.cast_one]

theorem magnitude_infinity : magnitude infinity = 2 ^ 1024 := by
  have hword : infinity = (2046 <<< 52) + 2 ^ 52 := by
    rw [infinity_eq, Nat.shiftLeft_eq]
    omega
  rw [magnitude, hword, units_of_digits (by omega) (.inr le_rfl), div_eq_iff (by positivity), Nat.cast_mul,
    Nat.cast_pow, Nat.cast_pow, Nat.cast_two, ← pow_add, ← pow_add]

theorem isNearest_infinity {q : ℚ} (h : magnitude infinity ≤ q) : IsNearest q infinity :=
  ⟨le_rfl, fun _ hv hne => .inl (abs_sub_lt_of_le (magnitude_strictMono (lt_of_le_of_ne hv hne)) h)⟩

theorem isNearest_zero {q : ℚ} (hq : 0 ≤ q) (h : 2 * q < magnitude 1) : IsNearest q 0 := by
  refine ⟨Nat.zero_le _, fun v _ hne => .inl ?_⟩
  have hone : magnitude 1 ≤ magnitude v := magnitude_strictMono.monotone (Nat.one_le_iff_ne_zero.2 hne)
  rw [magnitude_zero, sub_zero, abs_of_nonneg hq, abs_of_neg (by linarith)]
  linarith

end Binary64

/-! ## Decimals -/

namespace Decimal

/-- The number that a decimal stands for. -/
def value (d : Decimal) : ℚ := d.digits * 10 ^ d.exponent

theorem value_nonneg (d : Decimal) : 0 ≤ d.value := by
  unfold value
  positivity

/-- A decimal that is read as infinity by its exponent alone is as large as that. -/
theorem infinity_le_value {d : Decimal} (hdigits : d.digits ≠ 0) (h : 400 < d.exponent) :
    Binary64.magnitude Binary64.infinity ≤ d.value := by
  have hone : (1 : ℚ) ≤ d.digits := by exact_mod_cast Nat.one_le_iff_ne_zero.2 hdigits
  calc Binary64.magnitude Binary64.infinity = 2 ^ 1024 := Binary64.magnitude_infinity
    _ ≤ 2 ^ (3 * 401) := pow_le_pow_right₀ one_le_two (by decide)
    _ = (2 ^ 3) ^ 401 := pow_mul ..
    _ ≤ 10 ^ 401 := pow_le_pow_left₀ (by norm_num) (by norm_num) _
    _ = (10 : ℚ) ^ (401 : Int) := (zpow_natCast _ _).symm
    _ ≤ 10 ^ d.exponent := zpow_le_zpow_right₀ (by norm_num) h
    _ ≤ d.value := le_mul_of_one_le_left (by positivity) hone

/-- A decimal that is read as zero by its exponent and its number of digits alone is as small as that. -/
theorem value_lt_half {d : Decimal} (h : d.exponent + d.digits.log2 < -400) : 2 * d.value < Binary64.magnitude 1 := by
  have hdigits : (d.digits : ℚ) < 10 ^ (d.digits.log2 + 1) := calc
    (d.digits : ℚ) < 2 ^ (d.digits.log2 + 1) := by exact_mod_cast Nat.lt_log2_self
    _ ≤ 10 ^ (d.digits.log2 + 1) := pow_le_pow_left₀ (by norm_num) (by norm_num) _
  calc 2 * d.value ≤ 2 * (10 ^ (d.digits.log2 + 1) * 10 ^ d.exponent) := by
        unfold value
        gcongr
    _ = 2 * 10 ^ ((d.digits.log2 + 1 : Nat) + d.exponent) := by
        rw [zpow_add₀ (by norm_num), zpow_natCast]
    _ ≤ 2 * 10 ^ (-((400 : Nat) : Int)) := by
        gcongr
        · norm_num
        · omega
    _ = 2 / 10 ^ 400 := by rw [zpow_neg, zpow_natCast, div_eq_mul_inv]
    _ < 1 / 2 ^ 1074 := by
        have hpow : (2 : ℚ) * 2 ^ 1074 < 10 ^ 400 := calc
          (2 : ℚ) * 2 ^ 1074 = 2 ^ 1075 := (pow_succ' ..).symm
          _ < 2 ^ (3 * 400) := pow_lt_pow_right₀ one_lt_two (by decide)
          _ = (2 ^ 3) ^ 400 := pow_mul ..
          _ ≤ 10 ^ 400 := pow_le_pow_left₀ (by norm_num) (by norm_num) _
        rw [div_lt_div_iff₀ (by positivity) (by positivity), one_mul]
        exact hpow
    _ = Binary64.magnitude 1 := Binary64.magnitude_one.symm

/-- The ratio of units that is rounded, whichever sign the exponent has. -/
theorem value_eq_units (d : Decimal) :
    d.value = ((d.digits * Nat.pow 10 d.exponent.toNat) <<< 1074 : Nat) / (Nat.pow 10 (-d.exponent).toNat : Nat) /
      2 ^ 1074 := by
  have hpow : (10 : ℚ) ^ d.exponent = 10 ^ d.exponent.toNat / 10 ^ (-d.exponent).toNat := by
    rcases Int.le_total 0 d.exponent with h | h
    · obtain ⟨k, hk⟩ := Int.eq_ofNat_of_zero_le h
      simp [hk]
    · obtain ⟨k, hk⟩ := Int.exists_eq_neg_ofNat h
      simp [hk]
  rw [value, hpow, Nat.shiftLeft_eq, Nat.pow_eq, Nat.pow_eq]
  simp only [Nat.cast_mul, Nat.cast_pow, Nat.cast_ofNat]
  rw [div_right_comm, mul_div_cancel_right₀ _ (by positivity), mul_div_assoc]

/-- A decimal is read as the nearest double. -/
theorem toWord_isNearest (d : Decimal) : Binary64.IsNearest d.value d.toWord := by
  unfold toWord
  split
  · next hzero =>
    refine Binary64.isNearest_zero d.value_nonneg ?_
    rw [value, hzero, Nat.cast_zero, zero_mul, mul_zero, Binary64.magnitude_one]
    positivity
  · next hdigits =>
    split
    · next hlarge => exact Binary64.isNearest_infinity (infinity_le_value hdigits hlarge)
    · split
      · next hsmall => exact Binary64.isNearest_zero d.value_nonneg (value_lt_half hsmall)
      · rw [value_eq_units]
        exact Binary64.nearest_isNearest (Nat.pow_pos (by decide))

end Decimal

end ClosureLang
