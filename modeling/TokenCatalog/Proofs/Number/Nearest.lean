import TokenCatalog.Proofs.Number.Binary64

/-!
# The nearest whole number

Rounding to a whole number, measured against the exact number. Main statements:

* `NearestEven`: a whole number is nearest to a quotient, and even where another one is as near;
* `Binary64.round?_nearest`: rounding a binary number gives such a number.
-/

namespace TokenCatalog

/-- A whole number is nearest to a quotient. Of two that are equally near it is the even one. -/
structure NearestEven (n : Int) (q : ℚ) : Prop where
  near : |q - n| ≤ 1 / 2
  even : |q - n| = 1 / 2 → Even n

theorem NearestEven.neg {n : Int} {q : ℚ} (h : NearestEven n q) : NearestEven (-n) (-q) := by
  have hsame : |-q - ((-n : Int) : ℚ)| = |q - n| := by
    rw [Int.cast_neg, ← neg_sub', abs_neg]
  exact ⟨hsame ▸ h.near, fun htie => (h.even (hsame ▸ htie)).neg⟩

section

variable {f : ℚ} (k : Nat)

theorem abs_sub_succ (hone : f < 1) : |(k : ℚ) + f - ((k + 1 : Nat) : Int)| = 1 - f := by
  rw [Int.cast_natCast, Nat.cast_succ, add_sub_add_left_eq_sub, abs_sub_comm,
    abs_of_pos (sub_pos.mpr hone)]

/-- Below the half a quotient is nearest to the whole number under it. -/
theorem nearestEven_under (hzero : 0 ≤ f) (hhalf : f < 1 / 2) : NearestEven (k : Nat) (k + f) := by
  have hdistance : |(k : ℚ) + f - ((k : Nat) : Int)| = f := by
    rw [Int.cast_natCast, add_sub_cancel_left, abs_of_nonneg hzero]
  refine ⟨?_, fun htie => ?_⟩
  · rw [hdistance]
    exact hhalf.le
  · rw [hdistance] at htie
    exact absurd htie hhalf.ne

/-- Above the half it is nearest to the one over it. -/
theorem nearestEven_over (hhalf : 1 / 2 < f) (hone : f < 1) :
    NearestEven (k + 1 : Nat) (k + f) := by
  refine ⟨?_, fun htie => ?_⟩
  · rw [abs_sub_succ k hone]
    linarith
  · rw [abs_sub_succ k hone] at htie
    linarith

/-- At the half both are as near, and one of them is even. -/
theorem nearestEven_half : NearestEven (k + k % 2 : Nat) (k + 1 / 2) := by
  rcases Nat.mod_two_eq_zero_or_one k with hparity | hparity
  · rw [hparity, Nat.add_zero]
    refine ⟨?_, fun _ => ?_⟩
    · rw [Int.cast_natCast, add_sub_cancel_left]
      norm_num
    · exact_mod_cast Nat.even_iff.mpr hparity
  · rw [hparity]
    refine ⟨?_, fun _ => ?_⟩
    · rw [abs_sub_succ k (by norm_num)]
      norm_num
    · have heven : Even (k + 1) := Nat.even_iff.mpr (by omega)
      exact_mod_cast heven

end

/-- Rounding a quotient, by what its division leaves. -/
theorem roundHalfEven_nearest {num den : Nat} (hden : 0 < den) :
    NearestEven (roundHalfEven num den : Nat) (num / den) := by
  have hden' : (0 : ℚ) < den := by exact_mod_cast hden
  have hsplit : (num : ℚ) / den = (num / den : Nat) + (num % den : Nat) / den := by
    have hwhole : (num : ℚ) = den * (num / den : Nat) + (num % den : Nat) := by
      exact_mod_cast (Nat.div_add_mod num den).symm
    rw [hwhole, add_div, mul_div_cancel_left₀ _ hden'.ne']
  have hzero : (0 : ℚ) ≤ (num % den : Nat) / den := by positivity
  have hone : ((num % den : Nat) : ℚ) / den < 1 := by
    rw [div_lt_one hden']
    exact_mod_cast Nat.mod_lt num hden
  -- doubling the remainder compares the fraction with a half without division
  have hlow : ((num % den : Nat) : ℚ) / den < 1 / 2 ↔ 2 * (num % den) < den := by
    rw [div_lt_div_iff₀ hden' two_pos, one_mul, mul_comm]
    exact_mod_cast Iff.rfl
  have hhigh : 1 / 2 < ((num % den : Nat) : ℚ) / den ↔ den < 2 * (num % den) := by
    rw [div_lt_div_iff₀ two_pos hden', one_mul, mul_comm]
    exact_mod_cast Iff.rfl
  rw [hsplit]
  unfold roundHalfEven
  dsimp only
  generalize ((num % den : Nat) : ℚ) / den = f at hzero hone hlow hhigh
  generalize num / den = k
  split
  · next h => exact nearestEven_under k hzero (hlow.mpr h)
  · next hnotlow =>
      split
      · next h => exact nearestEven_over k (hhigh.mpr h) hone
      · next hnothigh =>
          have hf : f = 1 / 2 := by
            refine le_antisymm (not_lt.mp fun h => ?_) (not_lt.mp fun h => ?_)
            · exact hnothigh (hhigh.mp h)
            · exact hnotlow (hlow.mp h)
          rw [hf]
          exact nearestEven_half k

namespace Binary64

def toRat? : Binary64 → Option ℚ
  | finite negative significand exponent => some (signed negative significand * 2 ^ exponent)
  | _ => none

/-- **Rounding gives the nearest whole number.** -/
theorem round?_nearest {x : Binary64} {n : Int} (h : x.round? = some n) :
    ∃ q, x.toRat? = some q ∧ NearestEven n q := by
  cases x with
  | infinite s => cases h
  | nan => cases h
  | finite s m e =>
      refine ⟨_, rfl, ?_⟩
      obtain rfl := Option.some.inj h
      have hratio := scaled_ratio m 1 e
      rw [Nat.cast_one, div_one] at hratio
      have hnearest : NearestEven (roundHalfEven (scaled m 1 e).1 (scaled m 1 e).2 : Nat)
          ((scaled m 1 e).1 / (scaled m 1 e).2) :=
        roundHalfEven_nearest (scaled_den_pos Nat.one_pos m e)
      rw [hratio] at hnearest
      cases s with
      | false => exact_mod_cast hnearest
      | true =>
          have hneg := hnearest.neg
          rw [← neg_mul] at hneg
          exact_mod_cast hneg

/-- A finite number can be rounded. -/
theorem exists_round? (s : Bool) (m : Nat) (e : Int) : ∃ n, (finite s m e).round? = some n :=
  ⟨_, rfl⟩

end Binary64

end TokenCatalog
