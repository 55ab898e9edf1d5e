import TokenCatalog.Proofs.Number.Nearest

/-!
# Numbers that rounding leaves as they are

A rounded number depends on the exact number alone, not on how it is put as a quotient or as a
decimal, and a number of the format is rounded to itself. Main statements:

* `Binary64.Canonical`: the numbers of the format, each with the parts that it has there;
* `ofRatio_congr` and `ofDecimal_congr`: equal numbers are rounded alike;
* `ofRatio_exact` and `ofDecimal_exact`: a number of the format is rounded to itself.
-/

namespace TokenCatalog

/-! ## Whole numbers -/

theorem roundHalfEven_mul_right {c : Nat} (hc : 0 < c) (num den : Nat) :
    roundHalfEven (num * c) (den * c) = roundHalfEven num den := by
  unfold roundHalfEven
  rw [Nat.mul_div_mul_right _ _ hc, Nat.mul_mod_mul_right, ← Nat.mul_assoc]
  simp only [gt_iff_lt, Nat.mul_lt_mul_right hc]

/-- Equal quotients are rounded alike. -/
theorem roundHalfEven_congr {a b c d : Nat} (hb : 0 < b) (hd : 0 < d)
    (h : (a : ℚ) / b = c / d) : roundHalfEven a b = roundHalfEven c d := by
  have hcross : a * d = c * b := by
    rw [div_eq_div_iff (by exact_mod_cast hb.ne') (by exact_mod_cast hd.ne')] at h
    exact_mod_cast h
  rw [← roundHalfEven_mul_right hd a b, ← roundHalfEven_mul_right hb c d, hcross, Nat.mul_comm b d]

theorem le_roundHalfEven {num den n : Nat} (hden : 0 < den) (h : n * den ≤ num) :
    n ≤ roundHalfEven num den := by
  have hquotient : n ≤ num / den := (Nat.le_div_iff_mul_le hden).mpr h
  unfold roundHalfEven
  dsimp only
  split
  · exact hquotient
  · split <;> omega

namespace Binary64

/-- A quotient of at least so many units of an exponent is rounded to at least as many. -/
theorem le_roundHalfEven_scaled {num den n : Nat} {exponent : Int} (hden : 0 < den)
    (h : n * 2 ^ exponent ≤ (num : ℚ) / den) :
    n ≤ roundHalfEven (scaled num den (-exponent)).1 (scaled num den (-exponent)).2 := by
  have hpos := scaled_den_pos hden num (-exponent)
  have hle : n ≤ ((scaled num den (-exponent)).1 : ℚ) / (scaled num den (-exponent)).2 := by
    rw [scaled_ratio, zpow_neg, ← div_eq_mul_inv, le_div_iff₀ (by positivity)]
    exact h
  refine le_roundHalfEven hpos ?_
  rw [le_div_iff₀ (by exact_mod_cast hpos)] at hle
  exact_mod_cast hle

/-! ## The leading bit -/

/-- The bit above the leading one is more than the quotient. -/
theorem lt_two_zpow_leadingBit {num den : Nat} (hden : 0 < den) :
    (num : ℚ) / den < 2 ^ (leadingBit num den + 1) := by
  have hden' : (0 : ℚ) < den := by exact_mod_cast hden
  unfold leadingBit
  dsimp only
  split
  · have hlow : ((2 : ℚ) ^ Nat.log2 den) ≤ den := by
      exact_mod_cast Nat.log2_self_le hden.ne'
    have hhigh : (num : ℚ) < 2 ^ (Nat.log2 num + 1) := by
      exact_mod_cast Nat.lt_log2_self (n := num)
    have hexponent : (Nat.log2 num : Int) - Nat.log2 den + 1 =
        ((Nat.log2 num + 1 : Nat) : Int) - Nat.log2 den := by
      push_cast
      ring
    rw [hexponent, zpow_sub₀ two_ne_zero, zpow_natCast, zpow_natCast]
    exact div_lt_div₀ hhigh hlow (by positivity) (by positivity)
  -- the guess was one too high, as the quotient, scaled back by it, is below one
  · next hlt =>
      have hratio := scaled_ratio num den (-((Nat.log2 num : Int) - Nat.log2 den))
      have hpos : (0 : ℚ) < (scaled num den (-((Nat.log2 num : Int) - Nat.log2 den))).2 := by
        exact_mod_cast scaled_den_pos hden num _
      have hone : (num : ℚ) / den * 2 ^ (-((Nat.log2 num : Int) - Nat.log2 den)) < 1 := by
        rw [← hratio, div_lt_iff₀ hpos, one_mul]
        exact_mod_cast Nat.lt_of_not_le hlt
      rw [zpow_neg, ← div_eq_mul_inv, div_lt_iff₀ (by positivity), one_mul] at hone
      rwa [sub_add_cancel]

/-- Equal quotients have the same leading bit. -/
theorem leadingBit_congr {a b c d : Nat} (ha : 0 < a) (hb : 0 < b) (hc : 0 < c) (hd : 0 < d)
    (h : (a : ℚ) / b = c / d) : leadingBit a b = leadingBit c d := by
  have hle : ∀ {a b c d : Nat}, 0 < a → 0 < b → 0 < d → (a : ℚ) / b = c / d →
      leadingBit a b ≤ leadingBit c d := by
    intro a b c d ha hb hd h
    have hlt := (two_zpow_leadingBit_le ha hb).trans_lt (h.trans_lt (lt_two_zpow_leadingBit hd))
    exact Int.lt_add_one_iff.mp ((zpow_lt_zpow_iff_right₀ one_lt_two).mp hlt)
  exact le_antisymm (hle ha hb hd h) (hle hc hd hb h.symm)

/-! ## Quotients -/

/-- Equal quotients are rounded alike. -/
theorem ofRatio_congr (negative : Bool) {a b c d : Nat} (hb : 0 < b) (hd : 0 < d)
    (h : (a : ℚ) / b = c / d) : ofRatio negative a b = ofRatio negative c d := by
  have hb' : (b : ℚ) ≠ 0 := by exact_mod_cast hb.ne'
  have hd' : (d : ℚ) ≠ 0 := by exact_mod_cast hd.ne'
  have hzero : a = 0 ↔ c = 0 := by
    rw [← Nat.cast_eq_zero (R := ℚ), ← Nat.cast_eq_zero (R := ℚ) (n := c),
      ← div_eq_zero_iff.trans (or_iff_left hb'), h, div_eq_zero_iff, or_iff_left hd']
  by_cases ha : a = 0
  · rw [ha, hzero.mp ha]
    rfl
  · have hc : c ≠ 0 := fun hc => ha (hzero.mpr hc)
    have hbit := leadingBit_congr (Nat.pos_of_ne_zero ha) hb (Nat.pos_of_ne_zero hc) hd h
    have hround : ∀ shift, roundHalfEven (scaled a b shift).1 (scaled a b shift).2 =
        roundHalfEven (scaled c d shift).1 (scaled c d shift).2 := by
      intro shift
      refine roundHalfEven_congr (scaled_den_pos hb a shift) (scaled_den_pos hd c shift) ?_
      rw [scaled_ratio, scaled_ratio, h]
    unfold ofRatio
    rw [if_neg ha, if_neg hc, hbit]
    dsimp only
    rw [hround]

/-- The sign takes no part in rounding. -/
theorem neg_ofRatio (num den : Nat) : (ofRatio false num den).neg = ofRatio true num den := by
  unfold ofRatio
  dsimp only
  split
  · rfl
  · split <;> split <;> rfl

/-! ## Numbers of the format -/

/-- A number of the format, with the parts that it has there: all 53 bits of the significand are
used unless the exponent is the least one. -/
def Canonical : Binary64 → Prop
  | finite _ significand exponent =>
    significand < 2 ^ 53 ∧ minExponent ≤ exponent ∧ exponent ≤ maxExponent ∧
      (2 ^ 52 ≤ significand ∨ exponent = minExponent)
  | infinite _ => True
  | nan => True

instance : DecidablePred Canonical := fun x =>
  match x with
  | finite _ significand exponent =>
    inferInstanceAs (Decidable (significand < 2 ^ 53 ∧ minExponent ≤ exponent ∧
      exponent ≤ maxExponent ∧ (2 ^ 52 ≤ significand ∨ exponent = minExponent)))
  | infinite _ => .isTrue trivial
  | nan => .isTrue trivial

/-- **A number of the format is rounded to itself.** -/
theorem ofRatio_exact {negative : Bool} {m num den : Nat} {e : Int}
    (hcanonical : (finite negative m e).Canonical) (hm : m ≠ 0) (hden : 0 < den)
    (h : (num : ℚ) / den = m * 2 ^ e) : ofRatio negative num den = finite negative m e := by
  obtain ⟨hbits, hmin, hmax, hleast⟩ := hcanonical
  have hm' : (0 : ℚ) < m := by exact_mod_cast Nat.pos_of_ne_zero hm
  have hnum : num ≠ 0 := by
    rintro rfl
    rw [Nat.cast_zero, zero_div] at h
    exact (mul_pos hm' (by positivity)).ne h
  -- the quotient determines its leading bit, up to the gap that the least exponent leaves
  have hhigh : leadingBit num den ≤ 52 + e := by
    have hlt : (2 : ℚ) ^ leadingBit num den < 2 ^ (53 + e) := by
      refine (two_zpow_leadingBit_le (Nat.pos_of_ne_zero hnum) hden).trans_lt ?_
      rw [h, zpow_add₀ two_ne_zero]
      refine mul_lt_mul_of_pos_right ?_ (by positivity)
      exact_mod_cast hbits
    have := (zpow_lt_zpow_iff_right₀ one_lt_two).mp hlt
    omega
  have hlow : 2 ^ 52 ≤ m → 52 + e ≤ leadingBit num den := by
    intro hfull
    have hlt : (2 : ℚ) ^ (52 + e) < 2 ^ (leadingBit num den + 1) := by
      refine lt_of_le_of_lt ?_ (lt_two_zpow_leadingBit hden)
      rw [h, zpow_add₀ two_ne_zero]
      refine mul_le_mul_of_nonneg_right ?_ (by positivity)
      exact_mod_cast hfull
    have := (zpow_lt_zpow_iff_right₀ one_lt_two).mp hlt
    omega
  have hexponent : max (leadingBit num den - 52) minExponent = e := by
    rcases hleast with hfull | hleast
    · have := hlow hfull
      omega
    · omega
  have hsignificand : roundHalfEven (scaled num den (-e)).1 (scaled num den (-e)).2 = m :=
    le_antisymm (roundHalfEven_scaled_le hden h.le) (le_roundHalfEven_scaled hden h.ge)
  have hcarry : m ≠ Nat.pow 2 53 := ne_of_lt hbits
  unfold ofRatio
  rw [if_neg hnum]
  dsimp only
  rw [hexponent, hsignificand, if_neg hcarry]
  exact if_neg (not_lt.mpr hmax)

/-! ## Decimals -/

/-- A decimal as a quotient of whole numbers. -/
theorem exists_ratio_eq_decimal (digits : Nat) (exponent : Int) :
    ∃ num den : Nat, 0 < den ∧ (num : ℚ) / den = digits * 10 ^ exponent := by
  rcases le_or_gt 0 exponent with h | h
  · obtain ⟨n, rfl⟩ := Int.eq_ofNat_of_zero_le h
    exact ⟨digits * 10 ^ n, 1, Nat.one_pos, by push_cast; rw [div_one, zpow_natCast]⟩
  · obtain ⟨n, hn⟩ := Int.eq_ofNat_of_zero_le (show 0 ≤ -exponent by omega)
    obtain rfl : exponent = -(n : Int) := by omega
    refine ⟨digits, 10 ^ n, by positivity, ?_⟩
    push_cast
    rw [zpow_neg, zpow_natCast, div_eq_mul_inv]

/-- A decimal of moderate size is rounded as the quotient that it is. -/
theorem ofDecimal_of_ratio (negative : Bool) {digits num den : Nat} {exponent : Int}
    (hdigits : digits ≠ 0) (hden : 0 < den) (h : (num : ℚ) / den = digits * 10 ^ exponent) :
    ofDecimal negative digits exponent =
      if ((Nat.toDigits 10 digits).length : Int) + exponent > 320 then infinite negative
      else if ((Nat.toDigits 10 digits).length : Int) + exponent < -340 then
        finite negative 0 minExponent
      else ofRatio negative num den := by
  unfold ofDecimal
  rw [if_neg hdigits]
  dsimp only
  refine if_congr Iff.rfl rfl (if_congr Iff.rfl rfl ?_)
  split
  · next hexponent =>
      obtain ⟨n, rfl⟩ := Int.eq_ofNat_of_zero_le hexponent
      refine ofRatio_congr negative Nat.one_pos hden ?_
      rw [h, Int.toNat_natCast, zpow_natCast, Nat.pow_eq]
      push_cast
      rw [div_one]
  · next hexponent =>
      obtain ⟨n, hn⟩ := Int.eq_ofNat_of_zero_le (show 0 ≤ -exponent by omega)
      obtain rfl : exponent = -(n : Int) := by omega
      refine ofRatio_congr negative (Nat.pow_pos (by decide)) hden ?_
      rw [h, neg_neg, Int.toNat_natCast, zpow_neg, zpow_natCast, Nat.pow_eq]
      push_cast
      rw [div_eq_mul_inv]

/-- A number is below the power of ten that its digits are counted by. -/
theorem lt_ten_pow_toDigits (n : Nat) : n < 10 ^ (Nat.toDigits 10 n).length :=
  (Nat.length_toDigits_le_iff (by decide) Nat.length_toDigits_pos).mp le_rfl

/-- Between which powers of ten a decimal lies. -/
theorem decimal_bounds {digits : Nat} (hdigits : digits ≠ 0) (exponent : Int) :
    (10 : ℚ) ^ (((Nat.toDigits 10 digits).length : Int) + exponent - 1) ≤ digits * 10 ^ exponent ∧
      (digits : ℚ) * 10 ^ exponent < 10 ^ (((Nat.toDigits 10 digits).length : Int) + exponent) := by
  have hten : (10 : ℚ) ≠ 0 := by norm_num
  have hpos : 0 < (Nat.toDigits 10 digits).length := Nat.length_toDigits_pos
  constructor
  · have hcount : ((Nat.toDigits 10 digits).length : Int) + exponent - 1 =
        (((Nat.toDigits 10 digits).length - 1 : Nat) : Int) + exponent := by omega
    rw [hcount, zpow_add₀ hten, zpow_natCast]
    refine mul_le_mul_of_nonneg_right ?_ (by positivity)
    exact_mod_cast ten_pow_le_of_toDigits hdigits
  · rw [zpow_add₀ hten, zpow_natCast]
    refine mul_lt_mul_of_pos_right ?_ (by positivity)
    exact_mod_cast lt_ten_pow_toDigits digits

/-- Equal decimals have as many digits before the point. -/
theorem magnitude_congr {m n : Nat} {j k : Int} (hm : m ≠ 0) (hn : n ≠ 0)
    (h : (m : ℚ) * 10 ^ j = n * 10 ^ k) :
    ((Nat.toDigits 10 m).length : Int) + j = (Nat.toDigits 10 n).length + k := by
  have hle : ∀ {m n : Nat} {j k : Int}, m ≠ 0 → n ≠ 0 → (m : ℚ) * 10 ^ j = n * 10 ^ k →
      ((Nat.toDigits 10 m).length : Int) + j ≤ (Nat.toDigits 10 n).length + k := by
    intro m n j k hm hn h
    have hlt := (decimal_bounds hm j).1.trans_lt (h.trans_lt (decimal_bounds hn k).2)
    have hexponents := (zpow_lt_zpow_iff_right₀ (by norm_num)).mp hlt
    omega
  exact le_antisymm (hle hm hn h) (hle hn hm h.symm)

/-- **Equal decimals are rounded alike**, however many of their zeros stand among the digits. -/
theorem ofDecimal_congr (negative : Bool) {m n : Nat} {j k : Int}
    (h : (m : ℚ) * 10 ^ j = n * 10 ^ k) : ofDecimal negative m j = ofDecimal negative n k := by
  have hten : ∀ i : Int, (10 : ℚ) ^ i ≠ 0 := fun i => zpow_ne_zero i (by norm_num)
  by_cases hm : m = 0
  · have hn : n = 0 := by
      rw [hm, Nat.cast_zero, zero_mul, eq_comm, mul_eq_zero, or_iff_left (hten k)] at h
      exact_mod_cast h
    rw [hm, hn]
    rfl
  · have hn : n ≠ 0 := by
      rintro rfl
      rw [Nat.cast_zero, zero_mul, mul_eq_zero, or_iff_left (hten j)] at h
      exact hm (by exact_mod_cast h)
    obtain ⟨num, den, hden, hratio⟩ := exists_ratio_eq_decimal m j
    rw [ofDecimal_of_ratio negative hm hden hratio,
      ofDecimal_of_ratio negative hn hden (hratio.trans h), magnitude_congr hm hn h]

/-- The sign takes no part in rounding. -/
theorem neg_ofDecimal (digits : Nat) (exponent : Int) :
    (ofDecimal false digits exponent).neg = ofDecimal true digits exponent := by
  by_cases hdigits : digits = 0
  · rw [hdigits]
    rfl
  · obtain ⟨num, den, hden, hratio⟩ := exists_ratio_eq_decimal digits exponent
    rw [ofDecimal_of_ratio false hdigits hden hratio, ofDecimal_of_ratio true hdigits hden hratio]
    split
    · rfl
    · split
      · rfl
      · exact neg_ofRatio num den

/-- **A number of the format is read from a decimal that is equal to it.** -/
theorem ofDecimal_exact {negative : Bool} {m digits : Nat} {e exponent : Int}
    (hcanonical : (finite negative m e).Canonical) (hm : m ≠ 0)
    (h : (digits : ℚ) * 10 ^ exponent = m * 2 ^ e) :
    ofDecimal negative digits exponent = finite negative m e := by
  obtain ⟨hbits, hmin, hmax, -⟩ := id hcanonical
  have hm' : (1 : ℚ) ≤ m := by exact_mod_cast Nat.one_le_iff_ne_zero.mpr hm
  have hdigits : digits ≠ 0 := by
    rintro rfl
    rw [Nat.cast_zero, zero_mul] at h
    have hpos : (0 : ℚ) < m * 2 ^ e := by positivity
    exact hpos.ne h
  obtain ⟨hlow, hhigh⟩ := decimal_bounds hdigits exponent
  rw [h] at hlow hhigh
  -- the format lies between powers of ten at which nothing is cut short
  have hlarge : ((Nat.toDigits 10 digits).length : Int) + exponent ≤ 320 := by
    have hlt : (10 : ℚ) ^ (((Nat.toDigits 10 digits).length : Int) + exponent - 1) <
        10 ^ ((320 : Nat) : Int) := by
      calc (10 : ℚ) ^ (((Nat.toDigits 10 digits).length : Int) + exponent - 1)
          ≤ m * 2 ^ e := hlow
        _ ≤ 2 ^ 53 * 2 ^ (971 : Int) := by
            refine mul_le_mul (by exact_mod_cast hbits.le) ?_ (by positivity) (by positivity)
            exact zpow_le_zpow_right₀ one_le_two hmax
        _ = 2 ^ 1024 := (pow_add 2 53 971).symm
        _ < 10 ^ ((320 : Nat) : Int) := by
            rw [zpow_natCast]
            exact two_pow_lt_ten_pow 80 (by decide) (by decide) (by decide)
    have hexponents := (zpow_lt_zpow_iff_right₀ (by norm_num)).mp hlt
    omega
  have hsmall : -340 ≤ ((Nat.toDigits 10 digits).length : Int) + exponent := by
    have hlt : (10 : ℚ) ^ (-((341 : Nat) : Int)) <
        10 ^ (((Nat.toDigits 10 digits).length : Int) + exponent) := by
      calc (10 : ℚ) ^ (-((341 : Nat) : Int)) < 1 * 2 ^ (-((1074 : Nat) : Int)) := by
            rw [one_mul, zpow_neg, zpow_neg, inv_lt_inv₀ (by positivity) (by positivity),
              zpow_natCast, zpow_natCast]
            exact two_pow_lt_ten_pow 83 (by decide) (by decide) (by decide)
        _ ≤ m * 2 ^ e := by
            refine mul_le_mul hm' ?_ (by positivity) (by positivity)
            exact zpow_le_zpow_right₀ one_le_two hmin
        _ < 10 ^ (((Nat.toDigits 10 digits).length : Int) + exponent) := hhigh
    have hexponents := (zpow_lt_zpow_iff_right₀ (by norm_num)).mp hlt
    omega
  have hratio := scaled_ratio m 1 e
  rw [Nat.cast_one, div_one] at hratio
  have hden := scaled_den_pos Nat.one_pos m e
  rw [ofDecimal_of_ratio negative hdigits hden (hratio.trans h.symm), if_neg (by omega),
    if_neg (by omega)]
  exact ofRatio_exact hcanonical hm hden hratio

end Binary64

end TokenCatalog
