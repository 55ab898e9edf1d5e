import TokenCatalog.Proofs.Css.Squeezed
import TokenCatalog.Proofs.Text.AsciiLower

/-!
# The form of numerals

A numeral is a sign, digits, a fraction and an exponent. Written down anywhere, it is read back as a
whole, unless what follows it goes on. Main statements:

* `isNumeral_takeNumeral`: what is taken from the front of a text is a numeral;
* `IsNumeral.takeNumeral_append`: a numeral is taken as a whole;
* `IsNumeral.lower` and `read_asciiLower`: in lower case it is a numeral for the same number.
-/

namespace TokenCatalog.Css

open Text (asciiLower)

/-! ## Parts of a numeral -/

def IsSign (cs : List Char) : Prop :=
  cs = [] ∨ cs = ['+'] ∨ cs = ['-']

structure AreDigits (cs : List Char) : Prop where
  ne_nil : cs ≠ []
  digit : ∀ c ∈ cs, isDigit c = true

inductive IsFraction : List Char → Prop
  | none : IsFraction []
  | point {digits : List Char} (h : AreDigits digits) : IsFraction ('.' :: digits)

/-- A letter, a sign and digits, or nothing. -/
inductive IsExponent : List Char → Prop
  | none : IsExponent []
  | letter {e : Char} {sign digits : List Char} (he : e = 'e' ∨ e = 'E') (hsign : IsSign sign)
      (h : AreDigits digits) : IsExponent (e :: (sign ++ digits))

inductive IsNumeral : List Char → Prop
  | parts {sign whole fraction exponent : List Char} (hsign : IsSign sign)
      (hwhole : ∀ c ∈ whole, isDigit c = true) (hfraction : IsFraction fraction)
      (hdigits : whole ++ fraction ≠ []) (hexponent : IsExponent exponent) :
      IsNumeral (sign ++ (whole ++ (fraction ++ exponent)))

/-! ## What is taken -/

theorem isSign_leadingSign (cs : List Char) : IsSign (leadingSign cs) := by
  unfold leadingSign
  split
  · exact .inr (.inl rfl)
  · exact .inr (.inr rfl)
  · exact .inl rfl

theorem areDigits_takeWhile {cs : List Char} (h : (cs.takeWhile isDigit).isEmpty = false) :
    AreDigits (cs.takeWhile isDigit) :=
  ⟨List.isEmpty_eq_false_iff.mp h, fun _ => List.mem_takeWhile_imp⟩

theorem isFraction_takeFraction (cs : List Char) : IsFraction (takeFraction cs) := by
  cases cs with
  | nil => exact .none
  | cons c cs =>
      rw [takeFraction_cons]
      split
      · split
        · exact .none
        · next hne => exact .point (areDigits_takeWhile (Bool.not_eq_true _ ▸ hne))
      · exact .none

theorem isExponent_takeExponent (cs : List Char) : IsExponent (takeExponent cs) := by
  cases cs with
  | nil => exact .none
  | cons c cs =>
      rw [takeExponent_cons]
      split
      · next hletter =>
          split
          · exact .none
          · next hne =>
              refine .letter ?_ (isSign_leadingSign cs)
                (areDigits_takeWhile (Bool.not_eq_true _ ▸ hne))
              simpa using hletter
      · exact .none

/-- **What is taken is a numeral.** -/
theorem isNumeral_takeNumeral {cs : List Char} (h : takeNumeral cs ≠ []) :
    IsNumeral (takeNumeral cs) := by
  rw [takeNumeral_eq] at h ⊢
  dsimp only at h ⊢
  split
  · next hempty =>
      rw [if_pos hempty] at h
      exact absurd rfl h
  · next hne =>
      rw [List.append_assoc, List.append_assoc]
      refine .parts (isSign_leadingSign cs) (fun _ => List.mem_takeWhile_imp)
        (isFraction_takeFraction _) ?_ (isExponent_takeExponent _)
      exact List.isEmpty_eq_false_iff.mp (Bool.not_eq_true _ ▸ hne)

/-! ## Taking a numeral as a whole -/

structure EndsNumeral (cs : List Char) : Prop where
  digits : EndsDigits cs
  fraction : takeFraction cs = []
  exponent : takeExponent cs = []

theorem takeWhile_digits {digits rest : List Char} (h : ∀ c ∈ digits, isDigit c = true)
    (hrest : EndsDigits rest) : (digits ++ rest).takeWhile isDigit = digits := by
  rw [List.takeWhile_append_of_pos h]
  cases rest with
  | nil => exact List.append_nil digits
  | cons c cs =>
      rw [List.takeWhile_cons_of_neg (by rw [hrest c rfl]; decide)]
      exact List.append_nil digits

theorem IsSign.leadingSign_append {sign rest : List Char} (h : IsSign sign)
    (hrest : leadingSign rest = []) : leadingSign (sign ++ rest) = sign := by
  rcases h with rfl | rfl | rfl
  · exact hrest
  · rfl
  · rfl

theorem leadingSign_of_digit {c : Char} (cs : List Char) (h : isDigit c = true ∨ c = '.') :
    leadingSign (c :: cs) = [] := by
  have hplus : c ≠ '+' := by
    rintro rfl
    revert h
    decide
  have hminus : c ≠ '-' := by
    rintro rfl
    revert h
    decide
  rw [leadingSign_cons, if_neg hplus, if_neg hminus]

theorem AreDigits.leadingSign_append {digits : List Char} (h : AreDigits digits)
    (rest : List Char) :
    leadingSign (digits ++ rest) = [] := by
  obtain ⟨hne, hdigit⟩ := h
  cases digits with
  | nil => exact absurd rfl hne
  | cons d ds => exact leadingSign_of_digit _ (.inl (hdigit d List.mem_cons_self))

theorem IsFraction.takeFraction_append {fraction rest : List Char} (h : IsFraction fraction)
    (hdigits : EndsDigits rest) (hrest : takeFraction rest = []) :
    takeFraction (fraction ++ rest) = fraction := by
  cases h with
  | none => exact hrest
  | point h =>
      rw [List.cons_append, takeFraction_cons, if_pos rfl, takeWhile_digits h.digit hdigits,
        List.isEmpty_eq_false_iff.mpr h.ne_nil]
      rfl

theorem IsExponent.takeExponent_append {exponent rest : List Char} (h : IsExponent exponent)
    (hdigits : EndsDigits rest) (hrest : takeExponent rest = []) :
    takeExponent (exponent ++ rest) = exponent := by
  cases h with
  | none => exact hrest
  | @letter e sign digits he hsign h =>
      have hletter : (decide (e = 'e') || decide (e = 'E')) = true := by simpa using he
      rw [List.cons_append, takeExponent_cons, if_pos hletter, List.append_assoc,
        hsign.leadingSign_append (h.leadingSign_append rest), List.drop_left,
        takeWhile_digits h.digit hdigits, List.isEmpty_eq_false_iff.mpr h.ne_nil]
      rfl

theorem IsExponent.ends {exponent rest : List Char} (h : IsExponent exponent)
    (hrest : EndsNumeral rest) :
    EndsDigits (exponent ++ rest) ∧ takeFraction (exponent ++ rest) = [] := by
  cases h with
  | none => exact ⟨hrest.digits, hrest.fraction⟩
  | letter he =>
      rcases he with rfl | rfl
      · exact ⟨by rintro c ⟨⟩; decide, rfl⟩
      · exact ⟨by rintro c ⟨⟩; decide, rfl⟩

theorem IsFraction.endsDigits {fraction rest : List Char} (h : IsFraction fraction)
    (hrest : EndsDigits rest) : EndsDigits (fraction ++ rest) := by
  cases h with
  | none => exact hrest
  | point => rintro c ⟨⟩; decide

/-- **A numeral is taken as a whole.** -/
theorem IsNumeral.takeNumeral_append {text rest : List Char} (h : IsNumeral text)
    (hrest : EndsNumeral rest) : takeNumeral (text ++ rest) = text := by
  cases h with
  | @parts sign whole fraction exponent hsign hwhole hfraction hdigits hexponent =>
      obtain ⟨hends, hnone⟩ := hexponent.ends hrest
      have hnosign : leadingSign (whole ++ (fraction ++ (exponent ++ rest))) = [] := by
        cases whole with
        | nil =>
            cases hfraction with
            | none => exact absurd rfl hdigits
            | point => exact leadingSign_of_digit _ (.inr rfl)
        | cons d ds => exact leadingSign_of_digit _ (.inl (hwhole d List.mem_cons_self))
      have hfront : (whole ++ (fraction ++ (exponent ++ rest))).takeWhile isDigit = whole :=
        takeWhile_digits hwhole (hfraction.endsDigits hends)
      rw [List.append_assoc, List.append_assoc, List.append_assoc, takeNumeral_eq,
        hsign.leadingSign_append hnosign, List.drop_left]
      dsimp only
      rw [hfront, List.drop_left, hfraction.takeFraction_append hends hnone,
        List.isEmpty_eq_false_iff.mpr hdigits, ← List.append_assoc whole, List.drop_left,
        hexponent.takeExponent_append hrest.digits hrest.exponent]
      simp

theorem IsNumeral.ne_nil {text : List Char} (h : IsNumeral text) : text ≠ [] := by
  cases h with
  | @parts sign whole _ _ _ _ _ hdigits =>
      intro hnil
      rw [← List.append_assoc whole, List.append_eq_nil_iff, List.append_eq_nil_iff] at hnil
      exact hdigits hnil.2.1

/-! ## Scanning a numeral -/

/-- The first characters of a numeral: a sign or none, and a digit or a point. -/
theorem exists_of_takeNumeral {cs : List Char} (h : takeNumeral cs ≠ []) :
    ∃ d rest, cs = leadingSign cs ++ d :: rest ∧ (isDigit d = true ∨ d = '.') := by
  rw [takeNumeral_eq] at h
  dsimp only at h
  obtain ⟨rest, hrest⟩ := leadingSign_isPrefix cs
  have hdrop : cs.drop (leadingSign cs).length = rest := by
    have hsame := congrArg (List.drop (leadingSign cs).length) hrest
    rwa [List.drop_left, eq_comm] at hsame
  rw [hdrop] at h
  cases rest with
  | nil => exact absurd rfl h
  | cons d rest =>
      refine ⟨d, rest, hrest.symm, ?_⟩
      cases hd : isDigit d with
      | true => exact .inl rfl
      | false =>
          refine .inr (Decidable.byContradiction fun hpoint => h ?_)
          rw [List.takeWhile_cons_of_neg (by rw [hd]; decide), List.length_nil, List.drop_zero,
            takeFraction_cons, if_neg hpoint]
          rfl

/-- Neither a name nor an escape begins with a digit or a point. -/
theorem startsIdent_of_digit {d : Char} (hd : isDigit d = true ∨ d = '.') :
    isSpace d = false ∧ isNameStart d = false ∧ d ≠ '-' ∧ d ≠ '\\' ∧ d ≠ 'u' ∧ d ≠ 'U' := by
  have hdigits : ∀ n < 58, isDigit (Char.ofNat n) = true ∨ Char.ofNat n = '.' →
      isSpace (Char.ofNat n) = false ∧ isNameStart (Char.ofNat n) = false ∧ Char.ofNat n ≠ '-' ∧
        Char.ofNat n ≠ '\\' ∧ Char.ofNat n ≠ 'u' ∧ Char.ofNat n ≠ 'U' := by
    decide
  have hlow : d.toNat < 58 := by
    rcases hd with hd | rfl
    · have := toNat_of_isDigit hd
      omega
    · decide
  rw [← Char.ofNat_toNat d] at hd ⊢
  exact hdigits _ hlow hd

/-- **A text that begins with a numeral is scanned as a number.** -/
theorem scan_of_numeral {c : Char} {cs : List Char} (h : takeNumeral (c :: cs) ≠ []) :
    startsIdent (c :: cs) = false ∧
      scan c cs = scanNumeric (takeNumeral (c :: cs))
        ((c :: cs).drop (takeNumeral (c :: cs)).length) := by
  -- whatever the scanner tries before numbers needs another first character, or a second one
  have hfacts : isSpace c = false ∧ startsRange (c :: cs) = false ∧
      (c :: cs).take 3 ≠ "-->".toList ∧ startsIdent (c :: cs) = false := by
    obtain ⟨d, rest, hcs, hd⟩ := exists_of_takeNumeral h
    obtain ⟨hspace, hstart, hminus, hslash, hu, hU⟩ := startsIdent_of_digit hd
    rw [leadingSign_cons] at hcs
    split at hcs
    · next hplus =>
        subst hplus
        refine ⟨by decide, ?_, nofun, ?_⟩
        · rw [startsRange_cons]
          rfl
        · rw [startsIdent_cons, startsEscape_cons]
          rfl
    · split at hcs
      · next hsign =>
          subst hsign
          obtain rfl : cs = d :: rest := (List.cons.inj hcs).2
          refine ⟨by decide, ?_, ?_, ?_⟩
          · rw [startsRange_cons]
            rfl
          · intro hcut
            exact hminus (List.cons.inj (List.cons.inj hcut).2).1
          · rw [startsIdent_cons, if_pos rfl, startsEscape_cons, List.head?_cons,
              Option.any_some, hstart, beq_false_of_ne hminus, beq_false_of_ne hslash]
            rfl
      · obtain ⟨rfl, rfl⟩ := List.cons.inj hcs
        refine ⟨hspace, ?_, ?_, ?_⟩
        · rw [startsRange_cons, beq_false_of_ne hu, beq_false_of_ne hU]
          rfl
        · intro hcut
          exact hminus (List.cons.inj hcut).1
        · rw [startsIdent_cons, if_neg hminus, startsEscape_cons, hstart, beq_false_of_ne hslash]
          rfl
  obtain ⟨hspace, hrange, harrow, hident⟩ := hfacts
  refine ⟨hident, ?_⟩
  rw [scan, hspace, hrange, if_neg harrow, hident]
  exact if_neg fun hempty => h (List.isEmpty_iff.mp hempty)

def Leaf.numeral? : Leaf → Option Numeral
  | .number n => some n
  | .percentage n => some n
  | .dimension n _ => some n
  | _ => none

theorem scanIdent_ne {cs : List Char} {leaf : Leaf} {more : Nat} {n : Numeral}
    (hleaf : leaf.numeral? = some n) : scanIdent cs ≠ .one leaf more := by
  unfold scanIdent scanFunction
  dsimp only
  intro h
  split at h
  · split at h
    · split at h <;> cases h <;> cases hleaf
    · cases h
  · cases h
    cases hleaf

theorem scanMark_ne {c : Char} {cs : List Char} {leaf : Leaf} {more : Nat} {n : Numeral}
    (hleaf : leaf.numeral? = some n) : scanMark c cs ≠ .one leaf more := by
  unfold scanMark scanString
  intro h
  -- every mark begins a lexeme of another kind
  split at h
  all_goals
    try dsimp only at h
    try split at h
    all_goals cases h
    all_goals cases hleaf

/-- **Only a text that begins with a numeral is scanned as a leaf that holds one.** -/
theorem takeNumeral_of_scan {c : Char} {cs : List Char} {leaf : Leaf} {more : Nat} {n : Numeral}
    (hscan : scan c cs = .one leaf more) (hleaf : leaf.numeral? = some n) :
    takeNumeral (c :: cs) ≠ [] := by
  intro hnil
  unfold scan at hscan
  split at hscan
  · cases hscan
    cases hleaf
  · split at hscan
    · cases hscan
      cases hleaf
    · split at hscan
      · cases hscan
        cases hleaf
      · split at hscan
        · exact scanIdent_ne hleaf hscan
        · rw [hnil] at hscan
          exact scanMark_ne hleaf hscan

theorem isNumeral_of_scan {c : Char} {cs : List Char} {leaf : Leaf} {more : Nat} {n : Numeral}
    (hscan : scan c cs = .one leaf more) (hleaf : leaf.numeral? = some n) : IsNumeral n.text := by
  have hne := takeNumeral_of_scan hscan hleaf
  have hnumeral := isNumeral_takeNumeral hne
  rw [(scan_of_numeral hne).2] at hscan
  unfold scanNumeric at hscan
  split at hscan
  · cases hscan
    cases hleaf
    exact hnumeral
  · split at hscan
    · cases hscan
      cases hleaf
      exact hnumeral
    · cases hscan
      cases hleaf
      exact hnumeral

/-! ## Lower case -/

theorem IsSign.lower {sign : List Char} (h : IsSign sign) : asciiLower sign = sign := by
  rcases h with rfl | rfl | rfl <;> rfl

theorem IsFraction.lower {fraction : List Char} (h : IsFraction fraction) :
    asciiLower fraction = fraction := by
  cases h with
  | none => rfl
  | point h => exact congrArg ('.' :: ·) (Text.asciiLower_of_digits h.digit)

theorem IsExponent.lower {exponent : List Char} (h : IsExponent exponent) :
    IsExponent (asciiLower exponent) := by
  cases h with
  | none => exact .none
  | @letter e sign digits he hsign h =>
      have he' : e.toLower = 'e' := by rcases he with rfl | rfl <;> rfl
      have hlower : asciiLower (e :: (sign ++ digits)) = 'e' :: (sign ++ digits) := by
        rw [asciiLower, List.map_cons, he', ← asciiLower, Text.asciiLower_append, hsign.lower,
          Text.asciiLower_of_digits h.digit]
      rw [hlower]
      exact .letter (.inl rfl) hsign h

/-- **A numeral in lower case is a numeral.** -/
theorem IsNumeral.lower {text : List Char} (h : IsNumeral text) : IsNumeral (asciiLower text) := by
  cases h with
  | parts hsign hwhole hfraction hdigits hexponent =>
      rw [Text.asciiLower_append, Text.asciiLower_append, Text.asciiLower_append, hsign.lower,
        Text.asciiLower_of_digits hwhole, hfraction.lower]
      exact .parts hsign hwhole hfraction hdigits hexponent.lower

theorem readSign_asciiLower (cs : List Char) :
    readSign (asciiLower cs) = ((readSign cs).1, asciiLower (readSign cs).2) := by
  cases cs with
  | nil => rfl
  | cons c cs =>
      by_cases hminus : c = '-'
      · subst hminus
        rfl
      by_cases hplus : c = '+'
      · subst hplus
        rfl
      have hminus' := mt (Text.toLower_eq_iff (by decide)).mp hminus
      have hplus' := mt (Text.toLower_eq_iff (by decide)).mp hplus
      simp [readSign, asciiLower, hminus, hplus, hminus', hplus']

theorem isExponentLetter_toLower (c : Char) :
    (decide (c.toLower = 'e') || decide (c.toLower = 'E')) =
      (decide (c = 'e') || decide (c = 'E')) := by
  have hcode : ∀ d : Char, (decide (d = 'e') || decide (d = 'E')) = true ↔
      d.toNat = 101 ∨ d.toNat = 69 := by
    intro d
    rw [Bool.or_eq_true, decide_eq_true_eq, decide_eq_true_eq, ← Char.toNat_inj, ← Char.toNat_inj]
    exact Iff.rfl
  rcases Text.toLower_cases c with ⟨hrange, hmoved⟩ | ⟨-, hsame⟩
  · rw [Bool.eq_iff_iff, hcode, hcode]
    omega
  · rw [hsame]

theorem readExponent_asciiLower (cs : List Char) :
    readExponent (asciiLower cs) = readExponent cs := by
  cases cs with
  | nil => rfl
  | cons c cs =>
      rw [Text.asciiLower_cons, readExponent, isExponentLetter_toLower, readSign_asciiLower]
      dsimp only
      rw [Text.takeWhile_asciiLower]
      rfl

/-- **A numeral denotes the same number in lower case.** -/
theorem read_asciiLower (cs : List Char) : Decimal.read (asciiLower cs) = Decimal.read cs := by
  unfold Decimal.read
  rw [readSign_asciiLower]
  dsimp only
  rw [Text.takeWhile_asciiLower, Text.dropWhile_asciiLower]
  generalize (readSign cs).2.dropWhile isDigit = rest
  cases rest with
  | nil => rfl
  | cons c rest =>
      by_cases hpoint : c = '.'
      · subst hpoint
        have hcons : asciiLower ('.' :: rest) = '.' :: asciiLower rest := rfl
        simp only [hcons, Text.takeWhile_asciiLower, Text.dropWhile_asciiLower,
          readExponent_asciiLower]
      · have hpoint' := mt (Text.toLower_eq_iff (by decide)).mp hpoint
        have hexponent := readExponent_asciiLower (c :: rest)
        rw [Text.asciiLower_cons] at hexponent ⊢
        split
        · next h => exact absurd (List.cons.inj h).1 hpoint'
        · split
          · next h => exact absurd (List.cons.inj h).1 hpoint
          · rw [hexponent]

end TokenCatalog.Css
