import TokenCatalog.Text.Blank
import TokenCatalog.Text.Digit

/-!
# Letters, digits and blanks

Where letters and hexadecimal digits stand among the characters, and that no blank is one. Main
statements:

* `isAlpha_iff`: the ranges of the letters;
* `hexValue?_cases`: a digit by the range that it is in;
* `forall_isHex`: what holds of every digit among the first characters holds of every digit;
* `not_of_isBlank`: what holds of printable ASCII characters only holds of no blank.
-/

namespace TokenCatalog.Text

/-! ## Letters -/

theorem isAlpha_iff {c : Char} :
    c.isAlpha = true ↔ (65 ≤ c.toNat ∧ c.toNat ≤ 90) ∨ (97 ≤ c.toNat ∧ c.toNat ≤ 122) := by
  have hupper : c.isUpper = true ↔ 65 ≤ c.toNat ∧ c.toNat ≤ 90 := by
    refine decide_eq_true_iff.trans ?_
    rw [ge_iff_le, UInt32.le_iff_toNat_le, UInt32.le_iff_toNat_le]
    exact Iff.rfl
  have hlower : c.isLower = true ↔ 97 ≤ c.toNat ∧ c.toNat ≤ 122 := by
    refine (Bool.and_eq_true_iff.trans (and_congr decide_eq_true_iff decide_eq_true_iff)).trans ?_
    rw [ge_iff_le, UInt32.le_iff_toNat_le, UInt32.le_iff_toNat_le]
    exact Iff.rfl
  rw [← hupper, ← hlower]
  exact Bool.or_eq_true_iff

/-! ## Hexadecimal digits -/

theorem hexValue?_cases {c : Char} {v : Nat} (h : hexValue? c = some v) :
    48 ≤ c.toNat ∧ c.toNat ≤ 57 ∧ v = c.toNat - 48 ∨
      97 ≤ c.toNat ∧ c.toNat ≤ 102 ∧ v = c.toNat - 87 ∨
        65 ≤ c.toNat ∧ c.toNat ≤ 70 ∧ v = c.toNat - 55 := by
  unfold hexValue? at h
  simp only [Bool.and_eq_true, decide_eq_true_eq, Char.le_def, UInt32.le_iff_toNat_le] at h
  split at h
  · next hrange =>
      cases h
      exact .inl ⟨hrange.1, hrange.2, rfl⟩
  · split at h
    · next hrange =>
        cases h
        exact .inr (.inl ⟨hrange.1, hrange.2, rfl⟩)
    · split at h
      · next hrange =>
          cases h
          exact .inr (.inr ⟨hrange.1, hrange.2, rfl⟩)
      · cases h

theorem toNat_of_isHex {c : Char} (h : isHex c = true) : 48 ≤ c.toNat ∧ c.toNat ≤ 102 := by
  obtain ⟨v, hv⟩ := Option.isSome_iff_exists.mp h
  have hcases := hexValue?_cases hv
  omega

/-- The hexadecimal digits are among the first characters. -/
theorem forall_isHex {p : Char → Prop}
    (h : ∀ n < 103, isHex (Char.ofNat n) = true → p (Char.ofNat n)) {c : Char}
    (hc : isHex c = true) : p c := by
  have hrange := toNat_of_isHex hc
  rw [← Char.ofNat_toNat c] at hc ⊢
  exact h _ (by omega) hc

/-- The letters among the digits are those above nine. -/
theorem isAlpha_iff_of_hexValue? {c : Char} {v : Nat} (h : hexValue? c = some v) :
    c.isAlpha = true ↔ 9 < v := by
  have hcases := hexValue?_cases h
  rw [isAlpha_iff]
  omega

/-! ## Blanks -/

/-- Blanks are far from digits and marks. -/
theorem isBlank_cases {c : Char} (h : isBlank c = true) : c.toNat ≤ 32 ∨ 133 ≤ c.toNat := by
  simp only [isBlank, Ranges.holds, blankRanges, List.any_cons, List.any_nil,
    Bool.or_false, Bool.or_eq_true, Bool.and_eq_true, decide_eq_true_eq] at h
  omega

/-- What holds only for printable ASCII characters holds for no blank. -/
theorem not_of_isBlank {p : Char → Bool} (hp : ∀ c, p c = true → 32 < c.toNat ∧ c.toNat < 133)
    (c : Char) (h : isBlank c = true) : p c = false := by
  refine Bool.eq_false_iff.mpr fun hc => ?_
  have hrange := hp c hc
  have hcases := isBlank_cases h
  omega

theorem isHex_of_isBlank (c : Char) (h : isBlank c = true) : isHex c = false :=
  not_of_isBlank (p := isHex) (fun c hc => by have := toNat_of_isHex hc; omega) c h

/-- Hexadecimal digits are not blank. -/
theorem isBlank_of_isHex {c : Char} (h : isHex c = true) : isBlank c = false := by
  refine Bool.eq_false_iff.mpr fun hblank => ?_
  rw [isHex_of_isBlank c hblank] at h
  cases h

end TokenCatalog.Text
