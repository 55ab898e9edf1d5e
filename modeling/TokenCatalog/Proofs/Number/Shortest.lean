import TokenCatalog.Proofs.Css.Numeral
import TokenCatalog.Proofs.Number.Exact

/-!
# Binary numbers in decimal digits

The shortest text of a number is a numeral that is read as that number. The text is one of four
arrangements of digits, a point and an exponent of ten; `Figures` holds the parts that they have in
common, so that reading is dealt with once. Main statements:

* `Figures.read_text`: what the parts of a numeral are read as;
* `figures_decimalText`: the text of a decimal consists of such parts, and they stand for that
  decimal;
* `toBinary64_shortest`: the digits of a number are read as that number.
-/

namespace TokenCatalog

open Css (AreDigits IsFraction IsExponent EndsDigits EndsNumeral takeWhile_digits)

/-! ## Decimal digits -/

theorem isDigit_digitsOfNat {n : Nat} {c : Char} (h : c ∈ digitsOfNat n) : isDigit c := by
  have hdigit : c.isDigit := Nat.isDigit_of_mem_toDigits (by decide) (by decide) h
  simpa [isDigit, Char.isDigit, Char.le_def] using hdigit

theorem natOfDigits_digitsOfNat (n : Nat) : natOfDigits (digitsOfNat n) = n := by
  have h := Nat.ofDigitChars_toDigits (b := 10) (n := n) (by decide) (by decide)
  simp only [Nat.ofDigitChars_eq_foldl, Nat.mul_comm 10] at h
  exact h

/-- Only zero begins with a zero. -/
theorem head_digitsOfNat {n : Nat} (hn : 0 < n) : (digitsOfNat n).head? ≠ some '0' := by
  induction n using Nat.strongRecOn with
  | ind n ih =>
      rcases Nat.lt_or_ge n 10 with hlt | hge
      · have hdigit : ∀ n < 10, 0 < n → n.digitChar ≠ '0' := by decide
        rw [digitsOfNat, Nat.toDigits_of_lt_base hlt]
        simpa using hdigit n hlt hn
      · have hquotient : 0 < n / 10 := Nat.div_pos hge (by decide)
        have hrest := ih (n / 10) (Nat.div_lt_self hn (by decide)) hquotient
        rw [digitsOfNat, Nat.toDigits_of_base_le (by decide) hge, List.head?_append_of_ne_nil _
          Nat.toDigits_ne_nil]
        exact hrest

theorem digitsOfNat_ne_nil (n : Nat) : digitsOfNat n ≠ [] :=
  Nat.toDigits_ne_nil

theorem isDigit_of_mem_replicate {n : Nat} {c : Char} (h : c ∈ List.replicate n '0') :
    isDigit c = true := by
  rw [List.eq_of_mem_replicate h]
  rfl

/-- Digits are worth more by ten for each digit after them. -/
theorem natOfDigits_append (xs ys : List Char) :
    natOfDigits (xs ++ ys) = natOfDigits xs * 10 ^ ys.length + natOfDigits ys := by
  induction ys using List.reverseRecOn with
  | nil => simp [natOfDigits]
  | append_singleton ys c ih =>
      have hlast : ∀ cs : List Char, natOfDigits (cs ++ [c]) = natOfDigits cs * 10 +
          (c.toNat - 48) :=
        fun cs => List.foldl_concat ..
      rw [← List.append_assoc, hlast, hlast, ih, List.length_append, List.length_singleton,
        Nat.pow_succ]
      ring

@[simp]
theorem natOfDigits_replicate (n : Nat) : natOfDigits (List.replicate n '0') = 0 := by
  induction n with
  | zero => rfl
  | succ n ih =>
      rw [List.replicate_succ', natOfDigits_append, ih]
      rfl

theorem ne_of_isDigit {d c : Char} (hd : isDigit d) (hc : isDigit c = false) : d ≠ c := by
  rintro rfl
  rw [hc] at hd
  cases hd

theorem dropWhile_digits {digits rest : List Char} (h : ∀ c ∈ digits, isDigit c = true)
    (hrest : EndsDigits rest) : (digits ++ rest).dropWhile isDigit = rest := by
  rw [List.dropWhile_append_of_pos h]
  cases rest with
  | nil => rfl
  | cons c cs => exact List.dropWhile_cons_of_neg (by rw [hrest c rfl]; decide)

/-! ## The parts of a numeral -/

theorem endsNumeral_nil : EndsNumeral [] :=
  ⟨by rintro c ⟨⟩, rfl, rfl⟩

/-- An exponent of ten is written as its sign and digits that are worth its size. -/
theorem exponentText_eq (n : Int) :
    ∃ digits, Binary64.exponentText n = (if n < 0 then '-' else '+') :: digits ∧
      AreDigits digits ∧ natOfDigits digits = n.natAbs := by
  refine ⟨List.replicate (2 - (digitsOfNat n.natAbs).length) '0' ++ digitsOfNat n.natAbs, rfl,
    ⟨fun hnil => ?_, fun c hc => ?_⟩, ?_⟩
  · exact digitsOfNat_ne_nil _ (List.append_eq_nil_iff.mp hnil).2
  · rcases List.mem_append.mp hc with hc | hc
    · exact isDigit_of_mem_replicate hc
    · exact isDigit_digitsOfNat hc
  · rw [natOfDigits_append, natOfDigits_replicate, Nat.zero_mul, Nat.zero_add,
      natOfDigits_digitsOfNat]

/-- Digits before and after a point, and an exponent of ten. -/
structure Figures where
  whole : List Char
  places : List Char := []
  power? : Option Int := none

namespace Figures

def fraction (f : Figures) : List Char :=
  if f.places = [] then [] else '.' :: f.places

def exponent (f : Figures) : List Char :=
  f.power?.elim [] fun n => 'e' :: Binary64.exponentText n

/-- The parts one after the other. -/
def text (f : Figures) : List Char :=
  f.whole ++ (f.fraction ++ f.exponent)

/-- The parts are digits as they stand in a JSON text: there is a digit before the point, a zero
only if it is the only one, and something besides that tells the numeral from a whole number. -/
structure Proper (f : Figures) : Prop where
  whole : AreDigits f.whole
  head : f.whole = ['0'] ∨ f.whole.head? ≠ some '0'
  places : ∀ c ∈ f.places, isDigit c = true
  marked : f.places ≠ [] ∨ f.power?.isSome

/-- The number that the parts stand for. -/
def value (f : Figures) : ℚ :=
  natOfDigits (f.whole ++ f.places) * 10 ^ (f.power?.getD 0 - f.places.length)

variable {f : Figures}

theorem text_of_places {whole places : List Char} (hplaces : places ≠ []) :
    (Figures.mk whole places none).text = whole ++ '.' :: places := by
  rw [text, fraction, if_neg hplaces]
  exact congrArg _ (List.append_nil _)

theorem Proper.isFraction (h : f.Proper) : IsFraction f.fraction := by
  unfold fraction
  split
  · exact .none
  · next hne => exact .point ⟨hne, h.places⟩

theorem isExponent (f : Figures) : IsExponent f.exponent := by
  unfold exponent
  cases f.power? with
  | none => exact .none
  | some n =>
      obtain ⟨digits, htext, hdigits, -⟩ := exponentText_eq n
      have hsign : Css.IsSign [if n < 0 then '-' else '+'] := by
        split
        · exact .inr (.inr rfl)
        · exact .inr (.inl rfl)
      rw [Option.elim_some, htext]
      exact .letter (.inl rfl) hsign hdigits

theorem exponent_ne_point (f : Figures) (rest : List Char) : f.exponent ≠ '.' :: rest := by
  unfold exponent
  cases f.power? with
  | none => exact (List.cons_ne_nil _ _).symm
  | some n => exact fun h => absurd (List.cons.inj h).1 (by decide)

theorem Proper.marked_text (h : f.Proper) : f.fraction = [] → f.exponent ≠ [] := by
  unfold fraction exponent
  rcases h.marked with hplaces | hpower
  · rw [if_neg hplaces]
    exact fun hnil => absurd hnil (List.cons_ne_nil _ _)
  · obtain ⟨n, hn⟩ := Option.isSome_iff_exists.mp hpower
    rw [hn]
    exact fun _ => List.cons_ne_nil _ _

/-- The digits before the point end there. -/
theorem Proper.endsDigits (h : f.Proper) {rest : List Char} (hrest : EndsNumeral rest) :
    EndsDigits (f.fraction ++ (f.exponent ++ rest)) :=
  h.isFraction.endsDigits (f.isExponent.ends hrest).1

/-! ## Reading the parts -/

theorem readSign_text (h : f.Proper) (negative : Bool) :
    readSign ((if negative then ['-'] else []) ++ f.text) = (negative, f.text) := by
  cases negative with
  | true => rfl
  | false =>
      obtain ⟨d, ds, hwhole⟩ := List.exists_cons_of_ne_nil h.whole.ne_nil
      have hd : isDigit d = true := h.whole.digit d (by rw [hwhole]; exact List.mem_cons_self)
      rw [text, hwhole]
      show readSign (d :: _) = (false, d :: _)
      unfold readSign
      split
      · next heq => exact absurd (List.cons.inj heq).1 (ne_of_isDigit hd rfl)
      · next heq => exact absurd (List.cons.inj heq).1 (ne_of_isDigit hd rfl)
      · rfl

theorem readExponent_exponent (f : Figures) : readExponent f.exponent = f.power?.getD 0 := by
  unfold exponent
  cases f.power? with
  | none => rfl
  | some n =>
      obtain ⟨digits, htext, hdigits, hvalue⟩ := exponentText_eq n
      have htake := takeWhile_digits hdigits.digit endsNumeral_nil.digits
      rw [List.append_nil] at htake
      rw [Option.elim_some, htext, readExponent, if_pos (by rfl)]
      by_cases hn : n < 0
      · rw [if_pos hn, readSign]
        dsimp only
        rw [htake, hvalue, Option.getD_some, if_pos rfl]
        omega
      · rw [if_neg hn, readSign]
        dsimp only
        rw [htake, hvalue, Option.getD_some, if_neg Bool.false_ne_true]
        omega

/-- **The parts of a numeral are read back.** -/
theorem read_text (h : f.Proper) (negative : Bool) :
    Decimal.read ((if negative then ['-'] else []) ++ f.text) =
      ⟨negative, natOfDigits (f.whole ++ f.places), f.power?.getD 0 - f.places.length⟩ := by
  have hends := h.endsDigits endsNumeral_nil
  have hnone := (f.isExponent.ends endsNumeral_nil).1
  rw [List.append_nil] at hends hnone
  unfold Decimal.read
  rw [readSign_text h]
  dsimp only
  rw [text, takeWhile_digits h.whole.digit hends, dropWhile_digits h.whole.digit hends]
  -- what follows the whole part either begins with the point or has no places
  unfold fraction
  by_cases hplaces : f.places = []
  · rw [if_pos hplaces, List.nil_append]
    split
    · next rest heq => exact absurd heq (exponent_ne_point f rest)
    · rw [hplaces, readExponent_exponent]
  · rw [if_neg hplaces]
    show Decimal.mk _ (natOfDigits (f.whole ++ (f.places ++ f.exponent).takeWhile isDigit))
      (readExponent ((f.places ++ f.exponent).dropWhile isDigit) -
        ((f.places ++ f.exponent).takeWhile isDigit).length) = _
    rw [takeWhile_digits h.places hnone, dropWhile_digits h.places hnone, readExponent_exponent]

end Figures

/-! ## The text of a decimal -/

open Binary64 (dropZeros decimalText shortest)

/-- Zeros are taken from the end of the digits. -/
theorem dropZeros_append (digits : List Char) :
    (dropZeros digits).1 ++ List.replicate (dropZeros digits).2 '0' = digits := by
  have hsplit := congrArg List.reverse
    (List.takeWhile_append_dropWhile (p := (· == '0')) (l := digits.reverse))
  rw [List.reverse_append, List.reverse_reverse] at hsplit
  have hzeros : (digits.reverse.takeWhile (· == '0')).reverse =
      List.replicate (dropZeros digits).2 '0' := by
    refine List.eq_replicate_iff.mpr ⟨?_, fun c hc => ?_⟩
    · have hlength := congrArg List.length hsplit
      rw [List.length_append] at hlength
      show _ = digits.length - _
      omega
    · exact beq_iff_eq.mp (List.mem_takeWhile_imp (p := (· == '0')) (List.mem_reverse.mp hc))
  rw [← hzeros]
  exact hsplit

def figuresOf (digits : List Char) (point : Int) : Figures :=
  if point ≤ -4 || point > 16 then
    { whole := digits.take 1, places := digits.drop 1, power? := some (point - 1) }
  else if point ≤ 0 then
    { whole := ['0'], places := List.replicate (-point).toNat '0' ++ digits }
  else if digits.length ≤ point.toNat then
    { whole := digits ++ List.replicate (point.toNat - digits.length) '0', places := ['0'] }
  else { whole := digits.take point.toNat, places := digits.drop point.toNat }

section

variable {digits : List Char} (hdigits : AreDigits digits)
include hdigits

/-- The arrangement moves the point to where it belongs. -/
theorem value_figuresOf (point : Int) :
    (figuresOf digits point).value = natOfDigits digits * 10 ^ (point - digits.length) := by
  have hpos : 0 < digits.length := List.length_pos_iff.mpr hdigits.ne_nil
  unfold figuresOf Figures.value
  split
  · dsimp only [Option.getD_some]
    rw [List.take_append_drop, List.length_drop]
    congr 2
    omega
  · split
    · next hpoint =>
        dsimp only [Option.getD_none]
        have hzeros : natOfDigits (['0'] ++ (List.replicate (-point).toNat '0' ++ digits)) =
            natOfDigits digits := by
          rw [natOfDigits_append, natOfDigits_append, natOfDigits_replicate]
          simp [natOfDigits]
        rw [hzeros, List.length_append, List.length_replicate]
        congr 2
        omega
    · next hpoint =>
        split
        · next hlength =>
            dsimp only [Option.getD_none]
            have hzeros : natOfDigits (digits ++
                List.replicate (point.toNat - digits.length) '0' ++ ['0']) =
                natOfDigits digits * 10 ^ (point.toNat - digits.length + 1) := by
              rw [natOfDigits_append, natOfDigits_append, natOfDigits_replicate,
                List.length_replicate, List.length_singleton, Nat.pow_succ, Nat.add_zero,
                  Nat.mul_assoc]
              rfl
            rw [hzeros]
            push_cast
            rw [mul_assoc, ← zpow_natCast, ← zpow_add₀ (by norm_num)]
            congr 2
            simp only [List.length_singleton]
            omega
        · next hlength =>
            dsimp only [Option.getD_none]
            rw [List.take_append_drop, List.length_drop]
            congr 2
            omega

variable (hhead : digits.head? ≠ some '0')
include hhead

theorem areDigits_take {n : Nat} (hn : 0 < n) :
    AreDigits (digits.take n) ∧ (digits.take n).head? ≠ some '0' := by
  obtain ⟨d, ds, rfl⟩ := List.exists_cons_of_ne_nil hdigits.ne_nil
  obtain ⟨n, rfl⟩ := Nat.exists_eq_succ_of_ne_zero hn.ne'
  exact ⟨⟨List.cons_ne_nil _ _, fun c hc => hdigits.digit c (List.mem_of_mem_take hc)⟩, hhead⟩

theorem proper_figuresOf (point : Int) : (figuresOf digits point).Proper := by
  have hdrop : ∀ n, ∀ c ∈ digits.drop n, isDigit c = true :=
    fun n c hc => hdigits.digit c (List.mem_of_mem_drop hc)
  have hzero : ∀ c ∈ ['0'], isDigit c = true := List.forall_mem_singleton.mpr rfl
  unfold figuresOf
  split
  · obtain ⟨hfirst, hne⟩ := areDigits_take hdigits hhead Nat.one_pos
    exact ⟨hfirst, .inr hne, hdrop 1, .inr rfl⟩
  · split
    · refine ⟨⟨List.cons_ne_nil _ _, hzero⟩, .inl rfl, fun c hc => ?_, .inl ?_⟩
      · rcases List.mem_append.mp hc with hc | hc
        · exact isDigit_of_mem_replicate hc
        · exact hdigits.digit c hc
      · exact fun hnil => hdigits.ne_nil (List.append_eq_nil_iff.mp hnil).2
    · next hpoint =>
        split
        · refine ⟨⟨fun hnil => ?_, fun c hc => ?_⟩, .inr ?_, hzero, .inl (List.cons_ne_nil _ _)⟩
          · exact hdigits.ne_nil (List.append_eq_nil_iff.mp hnil).1
          · rcases List.mem_append.mp hc with hc | hc
            · exact hdigits.digit c hc
            · exact isDigit_of_mem_replicate hc
          · rwa [List.head?_append_of_ne_nil _ hdigits.ne_nil]
        · next hlength =>
            obtain ⟨hfirst, hne⟩ := areDigits_take (n := point.toNat) hdigits hhead (by omega)
            refine ⟨hfirst, .inr hne, hdrop _, .inl fun hnil => ?_⟩
            exact hlength (List.drop_eq_nil_iff.mp hnil)

end

/-- **The text of a decimal consists of its digits, a point and an exponent of ten**, and these
stand for that decimal. -/
theorem figures_decimalText {d : Decimal} (hd : 0 < d.digits) :
    ∃ f : Figures, f.Proper ∧ decimalText d = f.text ∧
      f.value = d.digits * 10 ^ d.exponent := by
  have hsplit := dropZeros_append (digitsOfNat d.digits)
  unfold decimalText
  generalize dropZeros (digitsOfNat d.digits) = dropped at hsplit ⊢
  obtain ⟨digits, zeros⟩ := dropped
  dsimp only at hsplit ⊢
  have hhead := head_digitsOfNat hd
  have hne : digits ≠ [] := by
    rintro rfl
    cases zeros with
    | zero => exact digitsOfNat_ne_nil _ hsplit.symm
    | succ n => exact hhead (by rw [← hsplit]; rfl)
  rw [← hsplit, List.head?_append_of_ne_nil _ hne] at hhead
  have hdigits : AreDigits digits := by
    refine ⟨hne, fun c hc => isDigit_digitsOfNat (n := d.digits) ?_⟩
    rw [← hsplit]
    exact List.mem_append_left _ hc
  have hvalue : (d.digits : ℚ) = natOfDigits digits * 10 ^ zeros := by
    have hnat := natOfDigits_digitsOfNat d.digits
    rw [← hsplit, natOfDigits_append, natOfDigits_replicate, List.length_replicate] at hnat
    exact_mod_cast hnat.symm
  refine ⟨figuresOf digits (digits.length + zeros + d.exponent), proper_figuresOf hdigits hhead _,
    ?_, ?_⟩
  -- the text has the digits in the arrangement that the position of the point asks for
  · obtain ⟨c, cs, rfl⟩ := List.exists_cons_of_ne_nil hne
    generalize ((c :: cs).length : Int) + zeros + d.exponent = point
    unfold figuresOf
    split
    · cases cs <;> rfl
    · split
      · rw [Figures.text_of_places (fun hnil => hne (List.append_eq_nil_iff.mp hnil).2)]
        rfl
      · split
        · rw [Figures.text_of_places (List.cons_ne_nil _ _)]
        · next hlength =>
            rw [Figures.text_of_places (fun hnil => hlength (List.drop_eq_nil_iff.mp hnil))]
  · rw [value_figuresOf hdigits, hvalue, mul_assoc, ← zpow_natCast, ← zpow_add₀ (by norm_num)]
    congr 2
    omega

/-! ## The shortest digits -/

namespace Binary64

/-- Digits are taken only if they read back. -/
theorem roundTripAt?_reads {significand count : Nat} {exponent : Int} {d : Decimal}
    (h : roundTripAt? significand exponent count = some d) :
    ofDecimal false d.digits d.exponent = finite false significand exponent := by
  unfold roundTripAt? at h
  dsimp only at h
  generalize (ite (0 ≤ leadingDigit significand exponent - (count : Int) + 1) _ _ : Nat × Nat) =
    ratio at h
  split at h
  · next hlow =>
      obtain rfl := Option.some.inj h
      exact beq_iff_eq.mp (Bool.and_eq_true_iff.mp hlow).1
  · split at h
    · next hhigh =>
        obtain rfl := Option.some.inj h
        exact beq_iff_eq.mp hhigh
    · cases h

/-- **The digits of a number are read as that number**, also where the exact value stands in for the
fewest digits. -/
theorem ofDecimal_shortest {significand : Nat} {exponent : Int}
    (h : (finite false significand exponent).Canonical) (hne : significand ≠ 0) :
    ofDecimal false (shortest significand exponent).digits
      (shortest significand exponent).exponent =
      finite false significand exponent := by
  unfold shortest
  cases hsearch : (List.range 17).findSome? fun k => roundTripAt? significand exponent (k + 1) with
  | some d =>
      obtain ⟨k, -, hk⟩ := List.exists_of_findSome?_eq_some hsearch
      exact roundTripAt?_reads hk
  | none =>
      rw [Option.getD_none]
      split
      · next hexponent =>
          obtain ⟨n, rfl⟩ := Int.eq_ofNat_of_zero_le hexponent
          refine ofDecimal_exact h hne ?_
          rw [Int.toNat_natCast, Nat.pow_eq, zpow_zero, mul_one, zpow_natCast]
          push_cast
          rfl
      · next hexponent =>
          obtain ⟨n, hn⟩ := Int.eq_ofNat_of_zero_le (show 0 ≤ -exponent by omega)
          obtain rfl : exponent = -(n : Int) := by omega
          refine ofDecimal_exact h hne ?_
          rw [neg_neg, Int.toNat_natCast, Nat.pow_eq, zpow_neg, zpow_neg, zpow_natCast,
            zpow_natCast]
          have hten : (10 : ℚ) ^ n = 2 ^ n * 5 ^ n := by rw [← mul_pow]; norm_num
          push_cast
          rw [hten]
          field_simp

/-- **The text of a number is a numeral that is read as that number.** -/
theorem figures_shortestText {negative : Bool} {significand : Nat} {exponent : Int}
    (words : SpecialWords) (h : (finite negative significand exponent).Canonical) :
    ∃ f : Figures, f.Proper ∧
      (finite negative significand exponent).shortestText words =
        (if negative then ['-'] else []) ++ f.text ∧
      (Decimal.read ((if negative then ['-'] else []) ++ f.text)).toBinary64 =
        finite negative significand exponent := by
  have hread : ∀ {f : Figures}, f.Proper → ∀ {d : Decimal}, f.value = d.digits * 10 ^ d.exponent →
      (Decimal.read ((if negative then ['-'] else []) ++ f.text)).toBinary64 =
        ofDecimal negative d.digits d.exponent := by
    intro f hf d hvalue
    rw [Figures.read_text hf]
    exact ofDecimal_congr negative hvalue
  rw [shortestText]
  by_cases hzero : significand = 0
  · subst hzero
    obtain rfl : exponent = minExponent := h.2.2.2.resolve_left (by decide)
    have hdigit : ∀ c ∈ ['0'], isDigit c = true := List.forall_mem_singleton.mpr rfl
    have hproper : (Figures.mk ['0'] ['0'] none).Proper :=
      ⟨⟨List.cons_ne_nil _ _, hdigit⟩, .inl rfl, hdigit, .inl (List.cons_ne_nil _ _)⟩
    refine ⟨_, hproper, rfl, ?_⟩
    rw [Figures.read_text hproper]
    rfl
  · have hpositive : (finite false significand exponent).Canonical := h
    have hshortest := ofDecimal_shortest hpositive hzero
    have hdigits : 0 < (shortest significand exponent).digits := by
      refine Nat.pos_of_ne_zero fun hdigits => ?_
      rw [hdigits] at hshortest
      cases hshortest
      exact hzero rfl
    obtain ⟨f, hf, htext, hvalue⟩ := figures_decimalText hdigits
    refine ⟨f, hf, ?_, ?_⟩
    · rw [if_neg hzero, htext]
    · rw [hread hf hvalue]
      cases negative with
      | false => exact hshortest
      | true =>
          rw [← neg_ofDecimal, hshortest]
          rfl

end Binary64

end TokenCatalog
