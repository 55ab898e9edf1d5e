import TokenCatalog.Json.Read
import TokenCatalog.Json.Write
import TokenCatalog.Proofs.Number.Shortest
import TokenCatalog.Proofs.Text.Digit

/-!
# Strings and numbers in JSON texts

What is written for a string or a number is read back, whatever follows it in the text. Characters
beyond ASCII stand for themselves or are escaped, as the alphabet has it; a character beyond the
basic plane is escaped as two halves, which the reader puts together. Main statements:

* `readString_writeChars`: a string is read back up to its closing quote;
* `readScalar?_textOfInt` and `readScalar?_writeReal`: a number is read back up to what ends it;
* `allows_writeString`, `allows_writeReal`: what is written holds no control character, and only
  ASCII if that is asked for.
-/

namespace TokenCatalog

open Css (AreDigits IsFraction IsExponent EndsDigits EndsNumeral takeWhile_digits)

/-! ## Escapes -/

/-- Hexadecimal digits filled up to a width of two or more, by the last of them. -/
theorem hexFilled_succ {width : Nat} (hwidth : 0 < width) (n : Nat) :
    Text.hexFilled (width + 1) n = Text.hexFilled width (n / 16) ++ [Text.hexDigit (n % 16)] := by
  unfold Text.hexFilled Text.hexDigit
  dsimp only
  rcases Nat.lt_or_ge n 16 with hlt | hge
  · obtain ⟨width, rfl⟩ := Nat.exists_eq_succ_of_ne_zero hwidth.ne'
    rw [Nat.div_eq_of_lt hlt, Nat.mod_eq_of_lt hlt, Nat.toDigits_of_lt_base hlt,
      Nat.toDigits_of_lt_base (by decide)]
    show List.replicate (width + 1) '0' ++ _ = List.replicate width '0' ++ ['0'] ++ _
    rw [List.replicate_succ']
  · rw [Nat.toDigits_of_base_le (by decide) hge, List.length_append, List.length_singleton,
      Nat.add_sub_add_right, List.append_assoc]

/-- The four digits of a code unit. -/
theorem unitEscape_eq {n : Nat} (hn : n < 0x10000) :
    unitEscape n = ['\\', 'u', Text.hexDigit (n / 16 / 16 / 16), Text.hexDigit (n / 16 / 16 % 16),
      Text.hexDigit (n / 16 % 16), Text.hexDigit (n % 16)] := by
  have hfirst : Text.hexFilled 1 (n / 16 / 16 / 16) = [Text.hexDigit (n / 16 / 16 / 16)] := by
    unfold Text.hexFilled
    rw [Nat.toDigits_of_lt_base (by omega)]
    rfl
  rw [unitEscape, hexFilled_succ (by decide), hexFilled_succ (by decide),
    hexFilled_succ (by decide), hfirst]
  rfl

/-- The digits of a code unit denote it. -/
theorem hex4?_unit {n : Nat} (hn : n < 0x10000) :
    hex4? (Text.hexDigit (n / 16 / 16 / 16)) (Text.hexDigit (n / 16 / 16 % 16))
      (Text.hexDigit (n / 16 % 16)) (Text.hexDigit (n % 16)) = some n := by
  have hdigit : ∀ d < 16, Text.hexValue? (Text.hexDigit d) = some d := by decide
  unfold hex4?
  rw [hdigit _ (show n / 16 / 16 / 16 < 16 by omega), hdigit _ (Nat.mod_lt _ (by decide)),
    hdigit _ (Nat.mod_lt _ (by decide)), hdigit _ (Nat.mod_lt _ (by decide))]
  show some _ = some n
  congr 1
  omega

/-- A character is no half of a surrogate pair. -/
theorem not_surrogate_toNat (c : Char) :
    isHighSurrogate c.toNat = false ∧ isLowSurrogate c.toNat = false := by
  have hvalid : c.toNat < 0xD800 ∨ 0xDFFF < c.toNat := by
    rcases c.valid with h | h
    · exact .inl h
    · exact .inr h.1
  simp only [isHighSurrogate, isLowSurrogate, Bool.and_eq_false_iff, decide_eq_false_iff_not]
  omega

theorem charCode_lt (c : Char) : c.toNat < 0x110000 := by
  rcases c.valid with h | h
  · exact Nat.lt_trans h (by decide)
  · exact h.2

/-- The halves of a character beyond the basic plane. -/
theorem ofSurrogates_halves {c : Char} (hc : 0x10000 ≤ c.toNat) :
    isHighSurrogate (0xD800 + (c.toNat - 0x10000) / 0x400) = true ∧
      isLowSurrogate (0xDC00 + (c.toNat - 0x10000) % 0x400) = true ∧
      ofSurrogates (0xD800 + (c.toNat - 0x10000) / 0x400)
        (0xDC00 + (c.toNat - 0x10000) % 0x400) = c := by
  have hlimit := charCode_lt c
  refine ⟨?_, ?_, ?_⟩
  · simp only [isHighSurrogate, Bool.and_eq_true, decide_eq_true_eq]
    omega
  · simp only [isLowSurrogate, Bool.and_eq_true, decide_eq_true_eq]
    omega
  · have hcode : 0x10000 + (0xD800 + (c.toNat - 0x10000) / 0x400 - 0xD800) * 0x400 +
        (0xDC00 + (c.toNat - 0x10000) % 0x400 - 0xDC00) = c.toNat := by omega
    rw [ofSurrogates, hcode, Char.ofNat_toNat]

/-! ## Strings -/

/-- A character that may stand in a text: no control character, and only ASCII if that is asked
for. -/
def JsonAlphabet.Allows (alphabet : JsonAlphabet) (c : Char) : Prop :=
  32 ≤ c.toNat ∧ (alphabet = .ascii → c.toNat ≤ 126)

variable {alphabet : JsonAlphabet}

/-- How a character is written between quotes: with a letter of its own, by its code, by the codes
of its halves, or as it is. -/
inductive WrittenAs (alphabet : JsonAlphabet) (c : Char) : List Char → Prop
  | letter (e : Char) (he : escaped? e = some c) : WrittenAs alphabet c ['\\', e]
  | code (hplane : c.toNat < 0x10000) : WrittenAs alphabet c (unitEscape c.toNat)
  | halves (hplane : 0x10000 ≤ c.toNat) :
      WrittenAs alphabet c (unitEscape (0xD800 + (c.toNat - 0x10000) / 0x400) ++
        unitEscape (0xDC00 + (c.toNat - 0x10000) % 0x400))
  | itself (hquote : c ≠ '"') (hbackslash : c ≠ '\\') (hallowed : alphabet.Allows c) :
      WrittenAs alphabet c [c]

theorem writeChar_writtenAs (alphabet : JsonAlphabet) (c : Char) :
    WrittenAs alphabet c (writeChar alphabet c) := by
  unfold writeChar
  split
  · next h => exact .letter '"' (by rw [h]; rfl)
  split
  · next h => exact .letter '\\' (by rw [h]; rfl)
  split
  · next h => exact .letter 'n' (by rw [h]; rfl)
  split
  · next h => exact .letter 'r' (by rw [h]; rfl)
  split
  · next h => exact .letter 't' (by rw [h]; rfl)
  split
  · next h => exact .letter 'f' (by rw [h]; rfl)
  split
  · next h => exact .letter 'b' (by rw [h]; rfl)
  split
  · next hcontrol => exact .code (by omega)
  next hcontrol =>
  split
  · unfold charEscape
    dsimp only
    split
    · next hplane => exact .code hplane
    · next hplane => exact .halves (Nat.le_of_not_lt hplane)
  · next hascii =>
      refine .itself ‹_› ‹_› ⟨Nat.le_of_not_lt hcontrol, fun h => Nat.le_of_not_lt fun hlarge => ?_⟩
      exact hascii (by rw [h, decide_eq_true hlarge]; rfl)

theorem readEscape_letter (opened : Nat) {e c : Char} (he : escaped? e = some c)
    (rest : List Char) : readEscape opened (e :: rest) = .ok (c, rest) := by
  rw [readEscape, he]
  rintro rfl
  cases he

/-- An escape by code is read as its character. Something has to follow it, since an escape that
ends the text is not looked at. -/
theorem readEscape_code (opened : Nat) {c : Char} (hplane : c.toNat < 0x10000) (after : Char)
    (rest : List Char) :
    readEscape opened ((unitEscape c.toNat).tail ++ after :: rest) = .ok (c, after :: rest) := by
  rw [unitEscape_eq hplane]
  simp only [List.tail_cons, List.cons_append, List.nil_append, readEscape, hex4?_unit hplane,
    not_surrogate_toNat, Char.ofNat_toNat, Bool.false_eq_true, if_false]

theorem lowHalf?_unit {n : Nat} (hn : isLowSurrogate n = true) (after : Char) (rest : List Char) :
    lowHalf? (unitEscape n ++ after :: rest) = .ok (some (n, after :: rest)) := by
  have hplane : n < 0x10000 := by
    simp only [isLowSurrogate, Bool.and_eq_true, decide_eq_true_eq] at hn
    omega
  rw [unitEscape_eq hplane]
  simp only [List.cons_append, List.nil_append, lowHalf?, hex4?_unit hplane, hn, if_true]

/-- Escapes of two halves are read as the one character that these make. -/
theorem readEscape_halves (opened : Nat) {high low : Nat} (hhigh : isHighSurrogate high = true)
    (hlow : isLowSurrogate low = true) (after : Char) (rest : List Char) :
    readEscape opened ((unitEscape high).tail ++ (unitEscape low ++ after :: rest)) =
      .ok (ofSurrogates high low, after :: rest) := by
  have hplane : high < 0x10000 := by
    simp only [isHighSurrogate, Bool.and_eq_true, decide_eq_true_eq] at hhigh
    omega
  have hsecond := lowHalf?_unit hlow after rest
  obtain ⟨e, more, hmore⟩ : ∃ e more, unitEscape low ++ after :: rest = e :: more := ⟨_, _, rfl⟩
  rw [hmore] at hsecond ⊢
  rw [unitEscape_eq hplane]
  simp only [List.tail_cons, List.cons_append, List.nil_append, readEscape, hex4?_unit hplane,
    hhigh, if_true, hsecond]
  rfl

/-- A written character is read back as one character, provided that something follows it. -/
theorem readString_writeChar (opened fuel : Nat) (c after : Char) (rest : List Char) :
    readString opened (fuel + 1) (writeChar alphabet c ++ after :: rest) =
      (readString opened fuel (after :: rest)).map fun p => (c :: p.1, p.2) := by
  have hwritten := writeChar_writtenAs alphabet c
  generalize writeChar alphabet c = text at hwritten ⊢
  cases hwritten with
  | letter e he =>
      show (readEscape opened (e :: after :: rest) >>= _) = _
      rw [readEscape_letter opened he]
      rfl
  | code hplane =>
      show (readEscape opened ((unitEscape c.toNat).tail ++ after :: rest) >>= _) = _
      rw [readEscape_code opened hplane]
      rfl
  | halves hplane =>
      obtain ⟨hhigh, hlow, hchar⟩ := ofSurrogates_halves hplane
      rw [List.append_assoc]
      show (readEscape opened ((unitEscape _).tail ++ (unitEscape _ ++ after :: rest)) >>= _) = _
      rw [readEscape_halves opened hhigh hlow, hchar]
      rfl
  | itself hquote hbackslash hallowed =>
      rw [List.singleton_append, readString, if_neg (Nat.not_lt.mpr hallowed.1)]
      · rfl
      · exact hquote
      · exact hbackslash

/-- A string is read back up to its closing quote. -/
theorem readString_writeChars (opened : Nat) (cs rest : List Char) {fuel : Nat}
    (hfuel : cs.length < fuel) :
    readString opened fuel (cs.flatMap (writeChar alphabet) ++ '"' :: rest) = .ok (cs, rest) := by
  induction cs generalizing fuel with
  | nil =>
      cases fuel with
      | zero => cases hfuel
      | succ fuel => rfl
  | cons c cs ih =>
      cases fuel with
      | zero => cases hfuel
      | succ fuel =>
          have hrest := ih (Nat.lt_of_succ_lt_succ hfuel)
          rw [List.flatMap_cons, List.append_assoc]
          obtain ⟨after, more, hmore⟩ : ∃ after more,
              cs.flatMap (writeChar alphabet) ++ '"' :: rest = after :: more :=
            List.exists_cons_of_ne_nil (by simp)
          rw [hmore] at hrest ⊢
          rw [readString_writeChar, hrest]
          rfl

theorem writeChar_ne_nil (alphabet : JsonAlphabet) (c : Char) : writeChar alphabet c ≠ [] := by
  have hwritten := writeChar_writtenAs alphabet c
  generalize writeChar alphabet c = text at hwritten ⊢
  cases hwritten with
  | letter | code | halves | itself => exact List.cons_ne_nil _ _

theorem length_le_writeChars (alphabet : JsonAlphabet) (cs : List Char) :
    cs.length ≤ (cs.flatMap (writeChar alphabet)).length := by
  induction cs with
  | nil => exact Nat.le_refl 0
  | cons c cs ih =>
      have hpos := List.length_pos_iff.mpr (writeChar_ne_nil alphabet c)
      rw [List.flatMap_cons, List.length_append, List.length_cons]
      omega

/-- The length of the text is fuel enough for a string at its beginning. -/
theorem readString_of_length (opened : Nat) (cs rest : List Char) :
    readString opened ((cs.flatMap (writeChar alphabet) ++ '"' :: rest).length + 1)
      (cs.flatMap (writeChar alphabet) ++ '"' :: rest) = .ok (cs, rest) := by
  refine readString_writeChars opened cs rest ?_
  have hlength := length_le_writeChars alphabet cs
  rw [List.length_append]
  omega

/-! ## Whole numbers -/

/-- What follows a value in a JSON text on one line: nothing, a comma, or what closes the list or
the object around it. -/
def Ends (rest : List Char) : Prop :=
  ∀ c ∈ rest.head?, c = ',' ∨ c = ']' ∨ c = '\x7d'

theorem Ends.nil : Ends [] := by
  simp [Ends]

theorem Ends.cons {c : Char} (h : c = ',' ∨ c = ']' ∨ c = '\x7d') (rest : List Char) :
    Ends (c :: rest) := by
  simpa [Ends] using h

/-- Digits are taken as a whole part unless a zero stands before others. -/
theorem takeWhole_append {whole rest : List Char} (hwhole : AreDigits whole)
    (hhead : whole = ['0'] ∨ whole.head? ≠ some '0') (hrest : EndsDigits rest) :
    takeWhole (whole ++ rest) = whole := by
  rcases hhead with rfl | hhead
  · rfl
  · obtain ⟨d, ds, rfl⟩ := List.exists_cons_of_ne_nil hwhole.ne_nil
    rw [List.cons_append, takeWhole, ← List.cons_append, takeWhile_digits hwhole.digit hrest]
    rintro tail htail
    exact hhead (congrArg some (List.cons.inj htail).1)

theorem areDigits_digitsOfNat (n : Nat) : AreDigits (digitsOfNat n) :=
  ⟨digitsOfNat_ne_nil n, fun _ => isDigit_digitsOfNat⟩

theorem Ends.endsNumeral {rest : List Char} (hrest : Ends rest) : EndsNumeral rest := by
  cases rest with
  | nil => exact endsNumeral_nil
  | cons c cs => rcases hrest c rfl with rfl | rfl | rfl <;> exact ⟨by rintro c ⟨⟩; rfl, rfl, rfl⟩

/-- The parts of a number are read up to what ends them, under either sign. -/
theorem readNumber?_parts (negative : Bool) {whole fraction exponent rest : List Char}
    (hwhole : AreDigits whole) (hhead : whole = ['0'] ∨ whole.head? ≠ some '0')
    (hfraction : IsFraction fraction) (hexponent : IsExponent exponent) (hrest : Ends rest) :
    readNumber? ((if negative then ['-'] else []) ++ (whole ++ (fraction ++ (exponent ++ rest)))) =
      some (if fraction.isEmpty && exponent.isEmpty then
          .int (if negative then -(natOfDigits whole : Int) else natOfDigits whole)
        else .real (Decimal.read
          ((if negative then ['-'] else []) ++ whole ++ fraction ++ exponent)).toBinary64,
            rest) := by
  have hends := hrest.endsNumeral
  obtain ⟨hexponentDigits, hexponentFraction⟩ := hexponent.ends hends
  unfold readNumber?
  split
  next sign digits hsplit =>
    have hsign : (negative, whole ++ (fraction ++ (exponent ++ rest))) = (sign, digits) := by
      cases negative with
      | true => exact hsplit
      | false =>
          -- digits are no sign
          obtain ⟨d, ds, rfl⟩ := List.exists_cons_of_ne_nil hwhole.ne_nil
          have hd := ne_of_isDigit (c := '-') (hwhole.digit d List.mem_cons_self) rfl
          rw [if_neg Bool.false_ne_true, List.nil_append, List.cons_append] at hsplit
          split at hsplit
          · next heq => exact absurd (List.cons.inj heq).1 hd
          · exact hsplit
    cases hsign
    dsimp only
    rw [takeWhole_append hwhole hhead (hfraction.endsDigits hexponentDigits),
      List.isEmpty_eq_false_iff.mpr hwhole.ne_nil, if_neg Bool.false_ne_true, List.drop_left,
      hfraction.takeFraction_append hexponentDigits hexponentFraction, List.drop_left,
      hexponent.takeExponent_append hends.digits hends.exponent, List.drop_left]
    split <;> rfl

/-- A whole number is a sign, if it is negative, and digits. -/
theorem textOfInt_eq (n : Int) :
    textOfInt n = (if decide (n < 0) then ['-'] else []) ++ digitsOfNat n.natAbs := by
  unfold textOfInt
  by_cases hn : n < 0
  · rw [if_pos hn, decide_eq_true hn]
    rfl
  · rw [if_neg hn, decide_eq_false hn]
    rfl

/-- A whole number is read back up to what ends it. -/
theorem readNumber?_textOfInt (n : Int) {rest : List Char} (hrest : Ends rest) :
    readNumber? (textOfInt n ++ rest) = some (.int n, rest) := by
  have hhead : digitsOfNat n.natAbs = ['0'] ∨ (digitsOfNat n.natAbs).head? ≠ some '0' := by
    rcases Nat.eq_zero_or_pos n.natAbs with hzero | hpos
    · exact .inl (by rw [hzero]; rfl)
    · exact .inr (head_digitsOfNat hpos)
  have hparts := readNumber?_parts (decide (n < 0)) (areDigits_digitsOfNat n.natAbs) hhead .none
    .none hrest
  rw [textOfInt_eq, List.append_assoc]
  refine hparts.trans ?_
  rw [natOfDigits_digitsOfNat]
  show some (Json.int _, rest) = _
  congr 3
  by_cases hn : n < 0
  · rw [if_pos (decide_eq_true hn)]
    omega
  · rw [if_neg (by simpa using hn)]
    omega

/-- A text begins as a number does: with a digit, or with a sign and a digit. -/
def BeginsNumber (cs : List Char) : Prop :=
  ∃ d rest, isDigit d = true ∧ (cs = d :: rest ∨ cs = '-' :: d :: rest)

theorem beginsNumber_digits (negative : Bool) {digits : List Char} (hdigits : AreDigits digits)
    (rest : List Char) : BeginsNumber ((if negative then ['-'] else []) ++ (digits ++ rest)) := by
  obtain ⟨d, ds, rfl⟩ := List.exists_cons_of_ne_nil hdigits.ne_nil
  refine ⟨d, ds ++ rest, hdigits.digit d List.mem_cons_self, ?_⟩
  cases negative with
  | false => exact .inl rfl
  | true => exact .inr rfl

theorem beginsNumber_textOfInt (n : Int) : BeginsNumber (textOfInt n) := by
  rw [textOfInt_eq, ← List.append_nil (digitsOfNat n.natAbs)]
  exact beginsNumber_digits _ (areDigits_digitsOfNat n.natAbs) []

theorem BeginsNumber.append {cs : List Char} (h : BeginsNumber cs) (rest : List Char) :
    BeginsNumber (cs ++ rest) := by
  obtain ⟨d, ds, hd, rfl | rfl⟩ := h
  · exact ⟨d, ds ++ rest, hd, .inl rfl⟩
  · exact ⟨d, ds ++ rest, hd, .inr rfl⟩

theorem isJsonBlank_of_isDigit {d : Char} (hd : isDigit d) : isJsonBlank d = false := by
  simp [isJsonBlank, ne_of_isDigit hd (c := ' ') rfl, ne_of_isDigit hd (c := '\t') rfl,
    ne_of_isDigit hd (c := '\n') rfl, ne_of_isDigit hd (c := '\r') rfl]

/-- A word is not found where the text begins with another character. -/
theorem afterWord?_of_head {word : List Char} {c : Char} (h : word.head?.any (· ≠ c))
    (cs : List Char) : afterWord? word (c :: cs) = none := by
  cases word with
  | nil => cases h
  | cons w ws =>
      have hne : w ≠ c := by simpa using h
      exact if_neg hne

/-- No word begins like a number. -/
theorem BeginsNumber.readScalar? {cs : List Char} (h : BeginsNumber cs) :
    readScalar? cs = readNumber? cs := by
  rw [TokenCatalog.readScalar?]
  obtain ⟨d, ds, hd, rfl | rfl⟩ := h
  · have hnone : ∀ word : List Char, word.head?.any (!isDigit ·) →
        afterWord? word (d :: ds) = none := by
      intro word hword
      refine afterWord?_of_head ?_ _
      cases word with
      | nil => cases hword
      | cons w ws => simpa using (ne_of_isDigit hd (by simpa using hword)).symm
    rw [hnone "null".toList (by decide), hnone "true".toList (by decide),
      hnone "false".toList (by decide), hnone "NaN".toList (by decide),
      hnone "Infinity".toList (by decide), hnone "-Infinity".toList (by decide)]
    rfl
  · have hnone : ∀ word : List Char, word.head?.any (· ≠ '-') →
        afterWord? word ('-' :: d :: ds) = none :=
      fun word hword => afterWord?_of_head hword _
    have hsign : afterWord? "-Infinity".toList ('-' :: d :: ds) = none := by
      refine (if_pos rfl).trans (afterWord?_of_head ?_ _)
      show decide ('I' ≠ d) = true
      exact decide_eq_true (ne_of_isDigit hd rfl).symm
    rw [hnone "null".toList (by decide), hnone "true".toList (by decide),
      hnone "false".toList (by decide), hnone "NaN".toList (by decide),
      hnone "Infinity".toList (by decide), hsign]
    rfl

/-- A whole number is read back up to what ends it. -/
theorem readScalar?_textOfInt (n : Int) {rest : List Char} (hrest : Ends rest) :
    readScalar? (textOfInt n ++ rest) = some (.int n, rest) := by
  rw [((beginsNumber_textOfInt n).append rest).readScalar?, readNumber?_textOfInt n hrest]

/-! ## Binary numbers -/

/-- A number without digits is read back by its word, any other one by its parts. -/
theorem readScalar?_writeReal {x : Binary64} (hx : x.Canonical) {rest : List Char}
    (hrest : Ends rest) : readScalar? (writeReal x ++ rest) = some (.real x, rest) := by
  cases x with
  | nan => rfl
  | infinite negative => cases negative <;> rfl
  | finite negative significand exponent =>
      obtain ⟨f, hf, htext, hread⟩ := Binary64.figures_shortestText jsonWords hx
      have hbegins : BeginsNumber (writeReal (.finite negative significand exponent)) := by
        rw [writeReal, htext]
        exact beginsNumber_digits negative hf.whole _
      rw [(hbegins.append rest).readScalar?, writeReal, htext, List.append_assoc, Figures.text,
        List.append_assoc, List.append_assoc,
        readNumber?_parts negative hf.whole hf.head hf.isFraction f.isExponent hrest,
        if_neg (by simpa using hf.marked_text)]
      rw [Figures.text, ← List.append_assoc, ← List.append_assoc] at hread
      rw [hread]

/-! ## Characters of a text -/

theorem JsonAlphabet.Allows.of_range {c : Char} (h : 32 ≤ c.toNat ∧ c.toNat ≤ 126) :
    alphabet.Allows c :=
  ⟨h.1, fun _ => h.2⟩

theorem allows_of_all {cs : List Char}
    (h : (cs.all fun c => 32 ≤ c.toNat && c.toNat ≤ 126) = true) : ∀ c ∈ cs, alphabet.Allows c := by
  intro c hc
  have hrange := List.all_eq_true.mp h c hc
  simp only [Bool.and_eq_true, decide_eq_true_eq] at hrange
  exact .of_range hrange

theorem allows_unitEscape {n : Nat} (hn : n < 0x10000) : ∀ c ∈ unitEscape n, alphabet.Allows c := by
  have hdigit : ∀ d < 16, 32 ≤ (Text.hexDigit d).toNat ∧ (Text.hexDigit d).toNat ≤ 126 := by decide
  rw [unitEscape_eq hn]
  simp only [List.forall_mem_cons]
  exact ⟨.of_range (by decide), .of_range (by decide),
    .of_range (hdigit _ (by omega)), .of_range (hdigit _ (Nat.mod_lt _ (by decide))),
    .of_range (hdigit _ (Nat.mod_lt _ (by decide))),
    .of_range (hdigit _ (Nat.mod_lt _ (by decide))), by simp⟩

theorem escaped?_range {e c : Char} (he : escaped? e = some c) : 32 ≤ e.toNat ∧ e.toNat ≤ 126 := by
  unfold escaped? at he
  split at he
  all_goals first | decide | cases he

theorem allows_writeChar (c : Char) : ∀ d ∈ writeChar alphabet c, alphabet.Allows d := by
  have hwritten := writeChar_writtenAs alphabet c
  generalize writeChar alphabet c = text at hwritten ⊢
  cases hwritten with
  | letter e he =>
      simp only [List.forall_mem_cons]
      exact ⟨.of_range (by decide), .of_range (escaped?_range he), by simp⟩
  | code hplane => exact allows_unitEscape hplane
  | halves hplane =>
      have hlimit := charCode_lt c
      rw [List.forall_mem_append]
      exact ⟨allows_unitEscape (by omega), allows_unitEscape (by omega)⟩
  | itself hquote hbackslash hallowed => simpa using hallowed

/-- **A string is written in the alphabet.** -/
theorem allows_writeString (s : String) : ∀ c ∈ writeString alphabet s, alphabet.Allows c := by
  have hquote : alphabet.Allows '"' := .of_range (by decide)
  simp only [writeString, List.cons_append, List.forall_mem_cons, List.forall_mem_append,
    List.mem_flatMap]
  refine ⟨hquote, ?_, hquote, by simp⟩
  rintro c ⟨d, -, hc⟩
  exact allows_writeChar d c hc

theorem allows_of_isDigit {c : Char} (hc : isDigit c = true) : alphabet.Allows c := by
  have hrange := Css.toNat_of_isDigit hc
  exact .of_range (by omega)

theorem allows_sign (negative : Bool) :
    ∀ c ∈ (if negative then ['-'] else []), alphabet.Allows c := by
  cases negative with
  | false => exact allows_of_all (by decide)
  | true => exact allows_of_all (by decide)

theorem allows_textOfInt (n : Int) : ∀ c ∈ textOfInt n, alphabet.Allows c := by
  rw [textOfInt_eq, List.forall_mem_append]
  exact ⟨allows_sign _, fun c hc => allows_of_isDigit (isDigit_digitsOfNat hc)⟩

theorem allows_figures {f : Figures} (hf : f.Proper) : ∀ c ∈ f.text, alphabet.Allows c := by
  rw [Figures.text, List.forall_mem_append, List.forall_mem_append]
  refine ⟨fun c hc => allows_of_isDigit (hf.whole.digit c hc), ?_, ?_⟩
  · have hfraction := hf.isFraction
    generalize f.fraction = fraction at hfraction ⊢
    cases hfraction with
    | none => simp
    | point h =>
        rw [List.forall_mem_cons]
        exact ⟨.of_range (by decide), fun c hc => allows_of_isDigit (h.digit c hc)⟩
  · have hexponent := f.isExponent
    generalize f.exponent = exponent at hexponent ⊢
    cases hexponent with
    | none => simp
    | letter he hsign h =>
        rw [List.forall_mem_cons, List.forall_mem_append]
        refine ⟨?_, ?_, fun c hc => allows_of_isDigit (h.digit c hc)⟩
        · rcases he with rfl | rfl <;> exact .of_range (by decide)
        · rcases hsign with rfl | rfl | rfl <;> exact allows_of_all (by decide)

theorem allows_writeReal {x : Binary64} (hx : x.Canonical) :
    ∀ c ∈ writeReal x, alphabet.Allows c := by
  cases x with
  | nan => exact allows_of_all (by decide)
  | infinite negative =>
      cases negative with
      | false => exact allows_of_all (by decide)
      | true => exact allows_of_all (by decide)
  | finite negative significand exponent =>
      obtain ⟨f, hf, htext, -⟩ := Binary64.figures_shortestText jsonWords hx
      rw [writeReal, htext, List.forall_mem_append]
      exact ⟨allows_sign negative, allows_figures hf⟩

end TokenCatalog
