import Mathlib.Algebra.Order.Field.Power
import Mathlib.Algebra.Order.Field.Rat
import Mathlib.Data.Nat.Log
import Mathlib.Tactic.FieldSimp
import Mathlib.Tactic.Linarith
import Mathlib.Tactic.NormNum
import Mathlib.Tactic.Positivity
import Mathlib.Tactic.Ring
import TokenCatalog.Number.Decimal

/-!
# The size of binary numbers

How large the results of arithmetic can be, in terms of powers of two. Rounding never goes past a
power of two, so that bounds add up as they do for exact numbers; as long as the sum stays below the
end of the format, no infinity can come about. Main statements:

* `Binary64.AtMost`: a number is finite and its size is at most a power of two;
* `atMost_ofRatio`: the number nearest to a quotient keeps the quotient's bound;
* `atMost_add`, `atMost_mul`, `atMost_div` and `atMost_fraction`: bounds of results;
* `atMost_ofDecimal`: a decimal of moderate size is read as a finite number.
-/

namespace TokenCatalog

theorem roundHalfEven_le {num den n : Nat} (hden : 0 < den) (h : num ≤ n * den) :
    roundHalfEven num den ≤ n := by
  have hsplit := Nat.div_add_mod num den
  have hrest := Nat.mod_lt num hden
  have hquotient : num / den ≤ n := Nat.div_le_of_le_mul (Nat.mul_comm n den ▸ h)
  unfold roundHalfEven
  dsimp only
  rcases Nat.lt_or_eq_of_le hquotient with hlt | heq
  · split
    · exact hquotient
    · split
      · exact hlt
      · have hparity := Nat.mod_lt (num / den) (show 0 < 2 by decide)
        omega
  -- a quotient that reaches the bound leaves no rest
  · have hzero : num % den = 0 := by
      rw [heq, Nat.mul_comm] at hsplit
      omega
    rw [hzero, if_pos (by omega)]
    exact hquotient

namespace Binary64

/-! ## Quotients of whole numbers -/

theorem scaled_den_pos {den : Nat} (hden : 0 < den) (num : Nat) (shift : Int) :
    0 < (scaled num den shift).2 := by
  unfold scaled
  split
  · exact hden
  · exact Nat.mul_pos hden (Nat.pow_pos (by decide))

/-- Scaling multiplies the quotient by a power of two. -/
theorem scaled_ratio (num den : Nat) (shift : Int) :
    ((scaled num den shift).1 : ℚ) / (scaled num den shift).2 = num / den * 2 ^ shift := by
  unfold scaled
  split
  · next hshift =>
      obtain ⟨n, rfl⟩ := Int.eq_ofNat_of_zero_le hshift
      simp only [Int.toNat_natCast, zpow_natCast, Nat.pow_eq]
      push_cast
      ring
  · next hshift =>
      obtain ⟨n, hn⟩ := Int.eq_ofNat_of_zero_le (show 0 ≤ -shift by omega)
      obtain rfl : shift = -(n : Int) := by omega
      simp only [neg_neg, Int.toNat_natCast, zpow_neg, zpow_natCast, Nat.pow_eq]
      push_cast
      field_simp

/-- The leading bit is no more than the quotient. -/
theorem two_zpow_leadingBit_le {num den : Nat} (hnum : 0 < num) (hden : 0 < den) :
    (2 : ℚ) ^ leadingBit num den ≤ num / den := by
  have hden' : (0 : ℚ) < den := by exact_mod_cast hden
  unfold leadingBit
  dsimp only
  split
  -- the guess is right: the quotient, scaled back by it, is at least one
  · next hle =>
      have hratio := scaled_ratio num den (-((Nat.log2 num : Int) - Nat.log2 den))
      have hpos : (0 : ℚ) < (scaled num den (-((Nat.log2 num : Int) - Nat.log2 den))).2 := by
        exact_mod_cast scaled_den_pos hden num _
      have hone : (1 : ℚ) ≤ num / den * 2 ^ (-((Nat.log2 num : Int) - Nat.log2 den)) := by
        rw [← hratio, le_div_iff₀ hpos, one_mul]
        exact_mod_cast hle
      rw [zpow_neg, ← div_eq_mul_inv, le_div_iff₀ (by positivity), one_mul] at hone
      exact hone
  -- otherwise the bit below it is, as both logarithms are off by less than one
  · have hlow : ((2 : ℚ) ^ Nat.log2 num) ≤ num := by
      exact_mod_cast Nat.log2_self_le hnum.ne'
    have hhigh : (den : ℚ) ≤ 2 ^ (Nat.log2 den + 1) := by
      exact_mod_cast (Nat.lt_log2_self (n := den)).le
    have hexponent : (Nat.log2 num : Int) - Nat.log2 den - 1 =
        Nat.log2 num - ((Nat.log2 den + 1 : Nat) : Int) := by
      push_cast
      ring
    rw [hexponent, zpow_sub₀ two_ne_zero, zpow_natCast, zpow_natCast]
    exact div_le_div₀ (by positivity) hlow hden' hhigh

/-! ## Bounds -/

/-- A number is finite and of at most a size of a power of two. -/
def AtMost (k : Nat) : Binary64 → Prop
  | finite _ significand exponent => (significand : ℚ) * 2 ^ exponent ≤ 2 ^ k
  | _ => False

theorem AtMost.mono {j k : Nat} {x : Binary64} (h : x.AtMost j) (hjk : j ≤ k) : x.AtMost k := by
  cases x with
  | finite s m e => exact le_trans h (pow_le_pow_right₀ one_le_two hjk)
  | infinite s => exact h
  | nan => exact h

theorem AtMost.exists_finite {k : Nat} {x : Binary64} (h : x.AtMost k) :
    ∃ s m e, x = finite s m e := by
  cases x with
  | finite s m e => exact ⟨s, m, e, rfl⟩
  | infinite s => exact h.elim
  | nan => exact h.elim

theorem atMost_zero (k : Nat) (s : Bool) (e : Int) : (finite s 0 e).AtMost k := by
  show ((0 : Nat) : ℚ) * 2 ^ e ≤ 2 ^ k
  rw [Nat.cast_zero, zero_mul]
  positivity

/-- A quotient of at most so many units of an exponent is rounded to at most as many. -/
theorem roundHalfEven_scaled_le {num den n : Nat} {exponent : Int} (hden : 0 < den)
    (h : (num : ℚ) / den ≤ n * 2 ^ exponent) :
    roundHalfEven (scaled num den (-exponent)).1 (scaled num den (-exponent)).2 ≤ n := by
  have hpos := scaled_den_pos hden num (-exponent)
  have hle : ((scaled num den (-exponent)).1 : ℚ) / (scaled num den (-exponent)).2 ≤ n := by
    rw [scaled_ratio, zpow_neg, ← div_eq_mul_inv, div_le_iff₀ (by positivity)]
    exact h
  refine roundHalfEven_le hpos ?_
  rw [div_le_iff₀ (by exact_mod_cast hpos)] at hle
  exact_mod_cast hle

/-- **The number nearest to a quotient keeps its bound**, if that is below the end of the format. -/
theorem atMost_ofRatio {num den k : Nat} (negative : Bool) (hden : 0 < den) (hk : k ≤ 1023)
    (h : (num : ℚ) / den ≤ 2 ^ k) : (ofRatio negative num den).AtMost k := by
  unfold ofRatio
  split
  · exact atMost_zero k negative minExponent
  · next hzero =>
      have hnum : 0 < num := Nat.pos_of_ne_zero hzero
      have hbit : leadingBit num den ≤ k := by
        have hle := (two_zpow_leadingBit_le hnum hden).trans h
        rw [← zpow_natCast] at hle
        exact (zpow_le_zpow_iff_right₀ one_lt_two).mp hle
      dsimp only
      generalize hexponent : max (leadingBit num den - 52) minExponent = exponent
      have hlow : exponent ≤ k := by
        rw [← hexponent, minExponent]
        omega
      have hmax : exponent ≤ maxExponent := by
        rw [← hexponent, minExponent, maxExponent]
        omega
      -- at this exponent the bound is a whole number, and rounding does not go past it
      obtain ⟨n, hn⟩ := Int.eq_ofNat_of_zero_le (show 0 ≤ (k : Int) - exponent by omega)
      have hbound : ((2 ^ n : Nat) : ℚ) * 2 ^ exponent = 2 ^ k := by
        have hexponents : (n : Int) + exponent = k := by omega
        rw [Nat.cast_pow, Nat.cast_ofNat, ← zpow_natCast, ← zpow_add₀ two_ne_zero, hexponents,
          zpow_natCast]
      have hsignificand : roundHalfEven (scaled num den (-exponent)).1
          (scaled num den (-exponent)).2 ≤ 2 ^ n :=
        roundHalfEven_scaled_le hden (h.trans_eq hbound.symm)
      generalize roundHalfEven (scaled num den (-exponent)).1 (scaled num den (-exponent)).2 =
        significand at hsignificand
      have hvalue : (significand : ℚ) * 2 ^ exponent ≤ 2 ^ k := by
        rw [← hbound]
        exact mul_le_mul_of_nonneg_right (by exact_mod_cast hsignificand) (by positivity)
      by_cases hcarry : significand = Nat.pow 2 53
      · rw [if_pos hcarry]
        have hsame : ((Nat.pow 2 52 : Nat) : ℚ) * 2 ^ (exponent + 1) =
            (significand : ℚ) * 2 ^ exponent := by
          rw [hcarry, zpow_add₀ two_ne_zero]
          norm_num
          ring
        have hexact : (2 : ℚ) ^ (53 + exponent) ≤ 2 ^ (k : Int) := by
          rw [zpow_natCast, zpow_add₀ two_ne_zero]
          refine le_trans (le_of_eq ?_) hvalue
          rw [hcarry]
          norm_num
        have hroom : 53 + exponent ≤ k := (zpow_le_zpow_iff_right₀ one_lt_two).mp hexact
        dsimp only
        rw [if_neg (by rw [maxExponent]; omega)]
        exact hsame.trans_le hvalue
      · rw [if_neg hcarry]
        dsimp only
        rw [if_neg (by omega)]
        exact hvalue

/-- The same of a quotient that is scaled. -/
theorem atMost_ofRatio_scaled {num den k : Nat} (negative : Bool) (shift : Int) (hden : 0 < den)
    (hk : k ≤ 1023) (h : (num : ℚ) / den * 2 ^ shift ≤ 2 ^ k) :
    (ofRatio negative (scaled num den shift).1 (scaled num den shift).2).AtMost k :=
  atMost_ofRatio negative (scaled_den_pos hden num shift) hk
    ((scaled_ratio num den shift).trans_le h)

theorem atMost_ofScaled {n exponent : Int} {k : Nat} (hk : k ≤ 1023)
    (h : (n.natAbs : ℚ) * 2 ^ exponent ≤ 2 ^ k) : (ofScaled n exponent).AtMost k := by
  refine atMost_ofRatio_scaled _ exponent Nat.one_pos hk ?_
  rw [Nat.cast_one, div_one]
  exact h

theorem atMost_ofInt {n : Int} {k : Nat} (hk : k ≤ 1023) (h : n.natAbs ≤ 2 ^ k) :
    (ofInt n).AtMost k := by
  refine atMost_ofRatio _ Nat.one_pos hk ?_
  rw [Nat.cast_one, div_one]
  exact_mod_cast h

/-! ## Bounds of results -/

section

variable {j k : Nat} {x y : Binary64}

theorem atMost_neg (h : x.AtMost k) : x.neg.AtMost k := by
  cases x with
  | finite s m e => exact h
  | infinite s => exact h
  | nan => exact h

/-- A signed multiple over a smaller exponent has the same size. -/
theorem natAbs_aligned (s : Bool) (m : Nat) {e low : Int} (hlow : low ≤ e) :
    ((signed s m * Nat.pow 2 (e - low).toNat).natAbs : ℚ) * 2 ^ low = m * 2 ^ e := by
  obtain ⟨n, hn⟩ := Int.eq_ofNat_of_zero_le (show 0 ≤ e - low by omega)
  obtain rfl : e = low + n := by omega
  have habs : (signed s m).natAbs = m := by
    cases s <;> simp [signed]
  rw [Int.natAbs_mul, habs, hn, Int.toNat_natCast, zpow_add₀ two_ne_zero, zpow_natCast, Nat.pow_eq,
    Int.natAbs_natCast]
  push_cast
  ring

theorem atMost_add (hx : x.AtMost k) (hy : y.AtMost k) (hk : k + 1 ≤ 1023) :
    (x.add y).AtMost (k + 1) := by
  obtain ⟨s, m, e, rfl⟩ := hx.exists_finite
  obtain ⟨t, n, f, rfl⟩ := hy.exists_finite
  rw [add]
  dsimp only [aligned]
  have hm := natAbs_aligned s m (min_le_left e f)
  have hn := natAbs_aligned t n (min_le_right e f)
  generalize signed s m * Nat.pow 2 (e - min e f).toNat = a at hm ⊢
  generalize signed t n * Nat.pow 2 (f - min e f).toNat = b at hn ⊢
  split
  · exact atMost_zero _ _ _
  · refine atMost_ofScaled hk ?_
    have hsum : ((a + b).natAbs : ℚ) ≤ a.natAbs + b.natAbs := by
      exact_mod_cast Int.natAbs_add_le a b
    calc ((a + b).natAbs : ℚ) * 2 ^ min e f
        ≤ (a.natAbs + b.natAbs) * 2 ^ min e f :=
          mul_le_mul_of_nonneg_right hsum (by positivity)
      _ = m * 2 ^ e + n * 2 ^ f := by rw [add_mul, hm, hn]
      _ ≤ 2 ^ k + 2 ^ k := add_le_add hx hy
      _ = 2 ^ (k + 1) := by ring

theorem atMost_sub (hx : x.AtMost k) (hy : y.AtMost k) (hk : k + 1 ≤ 1023) :
    (x.sub y).AtMost (k + 1) :=
  atMost_add hx (atMost_neg hy) hk

theorem atMost_mul (hx : x.AtMost j) (hy : y.AtMost k) (hk : j + k ≤ 1023) :
    (x.mul y).AtMost (j + k) := by
  obtain ⟨s, m, e, rfl⟩ := hx.exists_finite
  obtain ⟨t, n, f, rfl⟩ := hy.exists_finite
  refine atMost_ofRatio_scaled _ (e + f) Nat.one_pos hk ?_
  have hn : (0 : ℚ) ≤ n * 2 ^ f := by positivity
  calc ((m * n : Nat) : ℚ) / (1 : Nat) * 2 ^ (e + f) = m * 2 ^ e * (n * 2 ^ f) := by
        rw [zpow_add₀ two_ne_zero]
        push_cast
        ring
    _ ≤ 2 ^ j * 2 ^ k := mul_le_mul hx hy hn (by positivity)
    _ = 2 ^ (j + k) := (pow_add _ _ _).symm

def AtLeastOne : Binary64 → Prop
  | finite _ significand exponent => 1 ≤ (significand : ℚ) * 2 ^ exponent
  | _ => False

/-- A quotient by a number of at least one keeps the bound of its dividend. -/
theorem atMost_div (hx : x.AtMost k) (hy : y.AtLeastOne) (hk : k ≤ 1023) :
    (x.div y).AtMost k := by
  obtain ⟨s, m, e, rfl⟩ := hx.exists_finite
  cases y with
  | infinite t => exact hy.elim
  | nan => exact hy.elim
  | finite t n f =>
      have hy : 1 ≤ (n : ℚ) * 2 ^ f := hy
      have hn : n ≠ 0 := by
        rintro rfl
        rw [Nat.cast_zero, zero_mul] at hy
        exact absurd hy (by norm_num)
      rw [div, if_neg hn]
      refine atMost_ofRatio_scaled _ (e - f) (Nat.pos_of_ne_zero hn) hk ?_
      calc (m : ℚ) / n * 2 ^ (e - f) = m * 2 ^ e / (n * 2 ^ f) := by
            rw [zpow_sub₀ two_ne_zero, div_mul_div_comm]
        _ ≤ m * 2 ^ e := div_le_self (by positivity) hy
        _ ≤ 2 ^ k := hx

/-- A fraction is small whatever it is the fraction of. -/
theorem atMost_fraction (hx : x.AtMost k) : x.fraction.AtMost 1 := by
  obtain ⟨s, m, e, rfl⟩ := hx.exists_finite
  rw [fraction]
  split
  · exact atMost_zero _ _ _
  · next hexponent =>
      dsimp only
      obtain ⟨n, hn⟩ := Int.eq_ofNat_of_zero_le (show 0 ≤ -e by omega)
      obtain rfl : e = -(n : Int) := by omega
      rw [neg_neg, Int.toNat_natCast, Nat.pow_eq]
      have hrest : ((m % 2 ^ n : Nat) : ℚ) * 2 ^ (-(n : Int)) ≤ 2 ^ 0 := by
        have hlt : ((m % 2 ^ n : Nat) : ℚ) ≤ 2 ^ n := by
          exact_mod_cast (Nat.mod_lt m (Nat.two_pow_pos n)).le
        rw [zpow_neg, zpow_natCast, ← div_eq_mul_inv, pow_zero]
        exact div_le_one_of_le₀ hlt (by positivity)
      split
      · exact atMost_zero _ _ _
      · split
        · refine atMost_add (atMost_ofScaled (by decide) ?_) (atMost_ofInt (by decide) (by decide))
            (by decide)
          rw [Int.natAbs_neg, Int.natAbs_natCast]
          exact hrest
        · refine (atMost_ofScaled (k := 0) (by decide) ?_).mono (by decide)
          rw [Int.natAbs_natCast]
          exact hrest

end

/-! ## Decimals -/

/-- The digits of a number say how large it is at least. -/
theorem ten_pow_le_of_toDigits {n : Nat} (hn : n ≠ 0) :
    10 ^ ((Nat.toDigits 10 n).length - 1) ≤ n := by
  by_cases hone : (Nat.toDigits 10 n).length - 1 = 0
  · rw [hone]
    exact Nat.pos_of_ne_zero hn
  · refine Nat.le_of_not_lt fun hlt => ?_
    have hshort := (Nat.length_toDigits_le_iff (by decide) (Nat.pos_of_ne_zero hone)).mpr hlt
    have hpos : 0 < (Nat.toDigits 10 n).length := Nat.length_toDigits_pos
    omega

/-- Thirteen bits are less than four digits. -/
theorem two_pow_lt_ten_pow {n k : Nat} (j : Nat) (hj : j ≠ 0) (hn : n ≤ 13 * j) (hk : 4 * j ≤ k) :
    (2 : ℚ) ^ n < 10 ^ k := by
  calc (2 : ℚ) ^ n ≤ 2 ^ (13 * j) := pow_le_pow_right₀ one_le_two hn
    _ = (2 ^ 13) ^ j := pow_mul _ _ _
    _ < (10 ^ 4) ^ j := pow_lt_pow_left₀ (by norm_num) (by positivity) hj
    _ = 10 ^ (4 * j) := (pow_mul _ _ _).symm
    _ ≤ 10 ^ k := pow_le_pow_right₀ (by norm_num) hk

/-- **A decimal of moderate size is read as a finite number.** -/
theorem atMost_ofDecimal {digits k : Nat} {exponent : Int} (negative : Bool) (hk : k ≤ 1023)
    (h : (digits : ℚ) * 10 ^ exponent ≤ 2 ^ k) :
    (ofDecimal negative digits exponent).AtMost k := by
  unfold ofDecimal
  dsimp only
  split
  · exact atMost_zero _ _ _
  · next hzero =>
      split
      -- a number of that many digits is beyond the bound
      · next hlarge =>
          exfalso
          have hdigits : ((10 : ℚ)) ^ ((Nat.toDigits 10 digits).length - 1) ≤ digits := by
            exact_mod_cast ten_pow_le_of_toDigits hzero
          have hpos : 0 < (Nat.toDigits 10 digits).length := Nat.length_toDigits_pos
          have hsize : (10 : ℚ) ^ (320 : Nat) ≤ digits * 10 ^ exponent := by
            calc (10 : ℚ) ^ (320 : Nat) = 10 ^ (320 : Int) := (zpow_natCast _ _).symm
              _ ≤ 10 ^ ((((Nat.toDigits 10 digits).length - 1 : Nat) : Int) + exponent) :=
                  zpow_le_zpow_right₀ (by norm_num) (by omega)
              _ = 10 ^ ((Nat.toDigits 10 digits).length - 1) * 10 ^ exponent := by
                  rw [zpow_add₀ (by norm_num), zpow_natCast]
              _ ≤ digits * 10 ^ exponent := mul_le_mul_of_nonneg_right hdigits (by positivity)
          have hbound : (2 : ℚ) ^ k < 10 ^ 320 :=
            two_pow_lt_ten_pow 80 (by decide) (by omega) (by decide)
          exact absurd (hsize.trans h) (not_le_of_gt hbound)
      · split
        · exact atMost_zero _ _ _
        · split
          · next hexponent =>
              obtain ⟨n, rfl⟩ := Int.eq_ofNat_of_zero_le hexponent
              refine atMost_ofRatio negative Nat.one_pos hk ?_
              rw [Int.toNat_natCast, Nat.pow_eq, Nat.cast_one, div_one]
              rw [zpow_natCast] at h
              exact_mod_cast h
          · next hexponent =>
              obtain ⟨n, hn⟩ := Int.eq_ofNat_of_zero_le (show 0 ≤ -exponent by omega)
              obtain rfl : exponent = -(n : Int) := by omega
              refine atMost_ofRatio negative (Nat.pow_pos (by decide)) hk ?_
              rw [neg_neg, Int.toNat_natCast, Nat.pow_eq]
              rw [zpow_neg, zpow_natCast, ← div_eq_mul_inv] at h
              exact_mod_cast h

end Binary64

end TokenCatalog
