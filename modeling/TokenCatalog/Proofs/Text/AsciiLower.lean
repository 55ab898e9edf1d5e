import Mathlib.Data.List.TakeWhile
import TokenCatalog.Number.Decimal
import TokenCatalog.Proofs.Text.Digit
import TokenCatalog.Text.Lowercase

/-!
# ASCII lower case

Capital letters move by a fixed offset and every other character stays, digits and marks among them.
Main statements:

* `toLower_cases`: what becomes of a character;
* `toLower_eq_iff`: no mark and no digit comes from another character;
* `asciiLower_of_digits`: digits are in lower case already.
-/

namespace TokenCatalog.Text

/-- A capital letter moves by 32; any other character stays. -/
theorem toLower_cases (c : Char) :
    (65 ≤ c.toNat ∧ c.toNat ≤ 90) ∧ c.toLower.toNat = c.toNat + 32 ∨
      ¬ (65 ≤ c.toNat ∧ c.toNat ≤ 90) ∧ c.toLower = c := by
  by_cases h : c.val ≥ 'A'.val ∧ c.val ≤ 'Z'.val
  · have hrange : 65 ≤ c.toNat ∧ c.toNat ≤ 90 := by
      rw [ge_iff_le, UInt32.le_iff_toNat_le, UInt32.le_iff_toNat_le] at h
      exact h
    have hmoved : c.toLower.val = c.val + ('a'.val - 'A'.val) := congrArg Char.val (dif_pos h)
    refine .inl ⟨hrange, ?_⟩
    show c.toLower.val.toNat = c.toNat + 32
    rw [hmoved, UInt32.toNat_add]
    show (c.toNat + 32) % _ = c.toNat + 32
    omega
  · refine .inr ⟨?_, dif_neg h⟩
    rw [ge_iff_le, UInt32.le_iff_toNat_le, UInt32.le_iff_toNat_le] at h
    exact h

theorem toLower_eq_iff {c d : Char} (hd : d.toNat < 65) : c.toLower = d ↔ c = d := by
  rcases toLower_cases c with ⟨hrange, hmoved⟩ | ⟨-, hsame⟩
  · constructor
    · rintro rfl
      omega
    · rintro rfl
      omega
  · rw [hsame]

theorem toLower_toLower (c : Char) : c.toLower.toLower = c.toLower := by
  rcases toLower_cases c with ⟨hrange, hmoved⟩ | ⟨-, hsame⟩
  · rcases toLower_cases c.toLower with ⟨hcapital, -⟩ | ⟨-, hsame⟩
    · omega
    · exact hsame
  · rw [hsame, hsame]

theorem asciiLower_asciiLower (cs : List Char) : asciiLower (asciiLower cs) = asciiLower cs := by
  rw [asciiLower, asciiLower, List.map_map]
  exact List.map_congr_left fun c _ => toLower_toLower c

theorem asciiLower_cons (c : Char) (cs : List Char) :
    asciiLower (c :: cs) = c.toLower :: asciiLower cs :=
  rfl

theorem asciiLower_append (xs ys : List Char) :
    asciiLower (xs ++ ys) = asciiLower xs ++ asciiLower ys :=
  List.map_append

/-! ## Digits -/

theorem isDigit_iff {c : Char} : isDigit c = true ↔ 48 ≤ c.toNat ∧ c.toNat ≤ 57 := by
  simp only [isDigit, Bool.and_eq_true, decide_eq_true_eq, Char.le_def, UInt32.le_iff_toNat_le]
  exact Iff.rfl

theorem toLower_of_isDigit {c : Char} (h : isDigit c = true) : c.toLower = c := by
  rw [isDigit_iff] at h
  rcases toLower_cases c with ⟨hcapital, -⟩ | ⟨-, hsame⟩
  · omega
  · exact hsame

theorem isDigit_toLower (c : Char) : isDigit c.toLower = isDigit c := by
  rcases toLower_cases c with ⟨hrange, hmoved⟩ | ⟨-, hsame⟩
  · rw [Bool.eq_iff_iff, isDigit_iff, isDigit_iff]
    omega
  · rw [hsame]

theorem asciiLower_of_digits {cs : List Char} (h : ∀ c ∈ cs, isDigit c = true) :
    asciiLower cs = cs :=
  (List.map_congr_left fun c hc => toLower_of_isDigit (h c hc)).trans (List.map_id cs)

theorem takeWhile_asciiLower (cs : List Char) :
    (asciiLower cs).takeWhile isDigit = cs.takeWhile isDigit := by
  have hsame : isDigit ∘ Char.toLower = isDigit := funext isDigit_toLower
  rw [asciiLower, List.takeWhile_map, hsame]
  exact asciiLower_of_digits fun c hc => List.mem_takeWhile_imp hc

theorem dropWhile_asciiLower (cs : List Char) :
    (asciiLower cs).dropWhile isDigit = asciiLower (cs.dropWhile isDigit) := by
  have hsame : isDigit ∘ Char.toLower = isDigit := funext isDigit_toLower
  rw [asciiLower, List.dropWhile_map, hsame, asciiLower]

end TokenCatalog.Text
