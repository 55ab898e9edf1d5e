import TokenCatalog.Proofs.Css.Spans
import TokenCatalog.Proofs.Css.Stop
import TokenCatalog.Proofs.Css.Uniform
import TokenCatalog.Proofs.Text.Digit

/-!
# Words

A text of ASCII letters and digits is a single token, whichever of them stands in front. Main
statements:

* `endsDigits_numeral`: a numeral takes all the digits that it can;
* `parse_word`: the tree of a word is one leaf, an identifier, a number or a dimension.
-/

namespace TokenCatalog.Css

/-! ## Behind a numeral -/

def EndsDigits (cs : List Char) : Prop :=
  ∀ c ∈ cs.head?, isDigit c = false

theorem drop_length_takeWhile (p : Char → Bool) (cs : List Char) :
    cs.drop (cs.takeWhile p).length = cs.dropWhile p := by
  have hsplit := congrArg (List.drop (cs.takeWhile p).length)
    (List.takeWhile_append_dropWhile (p := p) (l := cs))
  rwa [List.drop_left, eq_comm] at hsplit

theorem endsDigits_dropWhile (cs : List Char) : EndsDigits (cs.dropWhile isDigit) := by
  intro c hc
  have hnot := List.head?_dropWhile_not isDigit cs
  rw [Option.mem_def.mp hc] at hnot
  simpa using hnot

theorem endsDigits_fraction {cs : List Char} (h : EndsDigits cs) :
    EndsDigits (cs.drop (takeFraction cs).length) := by
  unfold takeFraction
  split
  · next rest =>
      split
      · exact h
      · rw [List.length_cons, List.drop_succ_cons, drop_length_takeWhile]
        exact endsDigits_dropWhile rest
  · exact h

def leadingSign : List Char → List Char
  | '+' :: _ => ['+']
  | '-' :: _ => ['-']
  | _ => []

theorem takeExponent_cons (c : Char) (cs : List Char) :
    takeExponent (c :: cs) =
      if c = 'e' || c = 'E' then
        if ((cs.drop (leadingSign cs).length).takeWhile isDigit).isEmpty then []
        else c :: leadingSign cs ++ (cs.drop (leadingSign cs).length).takeWhile isDigit
      else [] :=
  rfl

theorem takeNumeral_eq (cs : List Char) :
    takeNumeral cs =
      (let rest := cs.drop (leadingSign cs).length
      let digits := rest.takeWhile isDigit ++
          takeFraction (rest.drop (rest.takeWhile isDigit).length)
      if digits.isEmpty then []
      else leadingSign cs ++ digits ++ takeExponent (rest.drop digits.length)) :=
  rfl

theorem endsDigits_exponent {cs : List Char} (h : EndsDigits cs) :
    EndsDigits (cs.drop (takeExponent cs).length) := by
  cases cs with
  | nil => exact h
  | cons c cs =>
      rw [takeExponent_cons]
      split
      · split
        · exact h
        · rw [List.length_append, List.length_cons, Nat.add_right_comm, List.drop_succ_cons,
            ← List.drop_drop, drop_length_takeWhile]
          exact endsDigits_dropWhile _
      · exact h

/-- **No digit stands behind a numeral.** -/
theorem endsDigits_numeral {cs : List Char} (h : takeNumeral cs ≠ []) :
    EndsDigits (cs.drop (takeNumeral cs).length) := by
  rw [takeNumeral_eq] at h ⊢
  dsimp only at h ⊢
  split
  · next hempty =>
      rw [if_pos hempty] at h
      exact absurd rfl h
  · rw [List.length_append, List.length_append, ← List.drop_drop, ← List.drop_drop]
    refine endsDigits_exponent ?_
    rw [List.length_append, ← List.drop_drop]
    refine endsDigits_fraction ?_
    rw [drop_length_takeWhile]
    exact endsDigits_dropWhile _

/-! ## Words -/

theorem toNat_of_isDigit {c : Char} (h : isDigit c = true) : 48 ≤ c.toNat ∧ c.toNat ≤ 57 := by
  simp only [isDigit, Bool.and_eq_true, decide_eq_true_eq, Char.le_def, UInt32.le_iff_toNat_le] at h
  exact h

def isWordChar (c : Char) : Bool :=
  c.isAlpha || isDigit c

theorem isNameChar_of_isWordChar {c : Char} (h : isWordChar c = true) : isNameChar c = true := by
  rw [isWordChar, Bool.or_eq_true] at h
  rcases h with h | h <;> simp [isNameChar, isNameStart, h]

def EndsName (cs : List Char) : Prop :=
  ∀ c ∈ cs.head?, isNameChar c = false ∧ c ≠ '\\'

/-- **A name without escapes is taken as a whole.** -/
theorem takeName_append {name rest : List Char} (h : ∀ c ∈ name, isNameChar c = true)
    (hrest : EndsName rest) : takeName (name ++ rest) = (name, name.length) := by
  induction name with
  | nil =>
      cases rest with
      | nil => rw [List.nil_append, takeName]; rfl
      | cons d rest =>
          obtain ⟨hname, hslash⟩ := hrest d rfl
          rw [List.nil_append, takeName_other hname, List.length_nil]
          rw [startsEscape_cons, beq_false_of_ne hslash, Bool.false_and]
  | cons c cs ih =>
      rw [List.forall_mem_cons] at h
      rw [List.cons_append, takeName_name h.1, ih h.2]
      rfl

theorem takeName_of_nameChars {cs : List Char} (h : ∀ c ∈ cs, isNameChar c = true) :
    takeName cs = (cs, cs.length) := by
  have hends : EndsName [] := nofun
  have htake := takeName_append h hends
  rwa [List.append_nil] at htake

/-- A letter does not stand where only other characters can. -/
theorem ne_of_isWordChar {c d : Char} (h : isWordChar c = true) (hd : isWordChar d = false) :
    c ≠ d := by
  rintro rfl
  cases h.symm.trans hd

theorem uniform_of_word {cs : List Char} (h : ∀ c ∈ cs, isWordChar c = true) : uniform cs = cs :=
  uniform_of_clean fun c hc =>
    ⟨ne_of_isWordChar (h c hc) (by decide), ne_of_isWordChar (h c hc) (by decide),
      ne_of_isWordChar (h c hc) (by decide)⟩

inductive IsWordLeaf (cs : List Char) : Leaf → Prop
  | ident : IsWordLeaf cs (.ident cs)
  | number (n : Numeral) : IsWordLeaf cs (.number n)
  | dimension (n : Numeral) (unit : List Char) : IsWordLeaf cs (.dimension n unit)

theorem startsRange_of_word {cs : List Char} (h : ∀ c ∈ cs, isWordChar c = true) :
    startsRange cs = false := by
  unfold startsRange
  split
  · exact absurd rfl (ne_of_isWordChar (d := '+') (h '+' (by simp)) (by decide))
  · rfl

/-- A word that begins with a letter is an identifier. -/
theorem startsIdent_of_word {c : Char} (cs : List Char) (hc : isWordChar c = true) :
    startsIdent (c :: cs) = c.isAlpha := by
  have hslash := ne_of_isWordChar (d := '\\') hc (by decide)
  have hhyphen := ne_of_isWordChar (d := '-') hc (by decide)
  have hline := ne_of_isWordChar (d := '_') hc (by decide)
  have hascii : ¬ 0x7F < c.toNat := by
    rw [isWordChar, Bool.or_eq_true, Text.isAlpha_iff] at hc
    rcases hc with hletter | hdigit
    · omega
    · have hrange := toNat_of_isDigit hdigit
      omega
  rw [startsIdent_cons, if_neg hhyphen, startsEscape_cons, isNameStart,
    beq_eq_false_iff_ne.mpr hslash, beq_eq_false_iff_ne.mpr hline, decide_eq_false hascii]
  simp

theorem takeNumeral_ne_nil {c : Char} (cs : List Char) (hc : isDigit c = true) :
    takeNumeral (c :: cs) ≠ [] := by
  have hsign : leadingSign (c :: cs) = [] := by
    unfold leadingSign
    split
    · next h => cases h; cases hc
    · next h => cases h; cases hc
    · rfl
  rw [takeNumeral_eq, hsign]
  simp [hc]

/-- **A word is scanned as a whole.** -/
theorem scan_word {c : Char} {cs : List Char} (h : ∀ d ∈ c :: cs, isWordChar d = true) :
    ∃ leaf, scan c cs = .one leaf cs.length ∧ IsWordLeaf (c :: cs) leaf := by
  have hname : ∀ d ∈ c :: cs, isNameChar d = true := fun d hd => isNameChar_of_isWordChar (h d hd)
  have hc : isWordChar c = true := h c List.mem_cons_self
  have hspace : isSpace c = false := by
    simp [isSpace, ne_of_isWordChar (d := ' ') hc (by decide),
      ne_of_isWordChar (d := '\n') hc (by decide), ne_of_isWordChar (d := '\t') hc (by decide)]
  have harrow : (c :: cs).take 3 ≠ "-->".toList := by
    intro heq
    exact ne_of_isWordChar (d := '-') hc (by decide) (List.cons.inj heq).1
  rw [scan, hspace, startsRange_of_word h, if_neg harrow, startsIdent_of_word cs hc]
  cases halpha : c.isAlpha with
  | true =>
      refine ⟨.ident (c :: cs), ?_, .ident⟩
      simp [scanIdent, takeName_of_nameChars hname]
  | false =>
      have hdigit : isDigit c = true := by simpa [isWordChar, halpha] using hc
      have hne := takeNumeral_ne_nil cs hdigit
      have hends := endsDigits_numeral hne
      obtain ⟨rest, hrest⟩ := takeNumeral_isPrefix (c :: cs)
      generalize takeNumeral (c :: cs) = text at hne hends hrest
      have hlength := congrArg List.length hrest
      rw [List.length_append, List.length_cons] at hlength
      have hpositive := List.length_pos_iff.mpr hne
      have hdrop : (c :: cs).drop text.length = rest := by rw [← hrest, List.drop_left]
      have hempty : text.isEmpty = false := List.isEmpty_eq_false_iff.mpr hne
      rw [hdrop] at hends
      simp only [hempty, hdrop, Bool.false_eq_true, if_false]
      cases rest with
      | nil =>
          refine ⟨.number ⟨text⟩, ?_, .number _⟩
          have htaken : text.length - 1 = cs.length := by
            rw [List.length_nil] at hlength
            omega
          simp only [scanNumeric, startsIdent, Bool.false_eq_true, if_false, htaken]
          rfl
      | cons d rest =>
          have hrow : ∀ e ∈ d :: rest, isWordChar e = true := fun e he =>
            h e (hrest ▸ List.mem_append_right text he)
          -- a letter, since the numeral has taken all the digits
          have hletter : d.isAlpha = true := by
            have hd := hrow d List.mem_cons_self
            simpa [isWordChar, hends d rfl] using hd
          refine ⟨.dimension ⟨text⟩ (d :: rest), ?_, .dimension _ _⟩
          rw [scanNumeric, startsIdent_of_word rest (hrow d List.mem_cons_self), hletter,
            if_pos rfl, takeName_of_nameChars fun e he => isNameChar_of_isWordChar (hrow e he)]
          rw [List.length_cons] at hlength
          simp only [List.length_cons, Scan.one, Scan.mk.injEq, true_and]
          omega

/-- **The tree of a word is a single leaf.** -/
theorem parse_word {cs : List Char} (hne : cs ≠ []) (h : ∀ c ∈ cs, isWordChar c = true) :
    ∃ leaf, parse cs = [.leaf .start leaf] ∧ IsWordLeaf cs leaf := by
  obtain ⟨c, cs, rfl⟩ := List.exists_cons_of_ne_nil hne
  obtain ⟨leaf, hscan, hleaf⟩ := scan_word h
  have hend : (Point.skip (cs.length + 1) ⟨.start, c :: cs⟩).text = [] := by
    rw [Point.skip]
    exact List.drop_length
  have hspans : Spans ⟨.start, c :: cs⟩ [.leaf .start leaf]
      (Point.skip (cs.length + 1) ⟨.start, c :: cs⟩) := .leaf hscan (.nil _)
  refine ⟨leaf, ?_, hleaf⟩
  rw [parse, lexemes, uniform_of_word h]
  exact nest_of_spans hspans hend

end TokenCatalog.Css
