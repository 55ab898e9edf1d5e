import TokenCatalog.Proofs.Css.Uniform
import TokenCatalog.Proofs.Css.Verbatim
import TokenCatalog.Proofs.Css.Word
import TokenCatalog.Proofs.Text.Squeeze

/-!
# Tokens of squeezed text

What the scanners make of a text in which every run of blanks has become one space. Main statements:

* `uniform_squeeze`: it makes no difference whether line ends are made uniform before or after;
* `takeNumeral_squeeze`: numerals are not touched;
* `takeComment_squeeze`: a comment ends in the same place, its text squeezed;
* `takeName_squeeze`: a name with no blank in it stays, also where a blank ends an escape in it.
-/

namespace TokenCatalog.Css

open Text (isBlank squeeze Firm not_of_isBlank isHex_of_isBlank isBlank_of_isHex)

/-! ## Line ends -/

theorem any_head?_uniform (cs : List Char) :
    (uniform cs).head?.any isBlank = cs.head?.any isBlank := by
  have hmarks : isBlank '\n' = true ∧ isBlank '\r' = true ∧ isBlank '\x0c' = true ∧
      isBlank '\x00' = false ∧ isBlank '\ufffd' = false := by
    decide
  obtain ⟨hline, hreturn, hfeed, hnul, hreplaced⟩ := hmarks
  cases cs using uniform.induct with
  | case1 => rfl
  | case2 cs _ =>
      rw [uniform, List.head?_cons, Option.any_some, List.head?_cons, Option.any_some,
        hline, hreturn]
  | case3 c cs hcrlf _ =>
      rw [uniform.eq_3 c cs hcrlf, List.head?_cons, Option.any_some, List.head?_cons,
        Option.any_some]
      split
      · next h =>
          rw [Bool.or_eq_true, decide_eq_true_eq, decide_eq_true_eq] at h
          rcases h with rfl | rfl
          · rw [hline, hreturn]
          · rw [hline, hfeed]
      · split
        · next h => rw [h, hnul, hreplaced]
        · rfl

/-- **Line ends may be made uniform before or after.** -/
theorem uniform_squeeze (cs : List Char) : uniform (squeeze cs) = squeeze (uniform cs) := by
  have hspace : ∀ xs, uniform (' ' :: xs) = ' ' :: uniform xs := fun xs => uniform_cons nofun
  induction cs using uniform.induct with
  | case1 => rfl
  | case2 cs ih =>
      have hreturn : isBlank '\r' = true := by decide
      have hline : isBlank '\n' = true := by decide
      rw [squeeze, hreturn, squeeze, hline, List.head?_cons, Option.any_some, hline,
        uniform, squeeze, hline, any_head?_uniform]
      simp only [if_true]
      split
      · exact ih
      · rw [hspace, ih]
  | case3 c cs hcrlf ih =>
      have hhead := any_head?_uniform (c :: cs)
      rw [uniform.eq_3 c cs hcrlf] at hhead ⊢
      rw [List.head?_cons, Option.any_some, List.head?_cons, Option.any_some] at hhead
      rw [squeeze, squeeze, hhead, any_head?_uniform]
      split
      · split
        · exact ih
        · rw [hspace, ih]
      · next hc =>
          have hreturn : c ≠ '\r' := by
            rintro rfl
            exact hc (by decide)
          rw [uniform.eq_3 c _ fun _ h => absurd h hreturn, ih]

/-! ## Looking ahead -/

/-- What is read of a text is the same if the reading stops at blanks. -/
theorem apply_squeeze {α : Type} (f : List Char → α)
    (hblank : ∀ c cs, isBlank c = true → f (c :: cs) = f [])
    (hother : ∀ c cs, isBlank c = false → f (c :: squeeze cs) = f (c :: cs)) (cs : List Char) :
    f (squeeze cs) = f cs := by
  cases cs with
  | nil => rfl
  | cons c cs =>
      cases hc : isBlank c with
      | true =>
          obtain ⟨rest, hrest, -⟩ := Text.squeeze_of_blank hc cs
          rw [hrest, hblank ' ' _ (by decide), hblank c cs hc]
      | false => rw [Text.squeeze_cons hc, hother c cs hc]

theorem beq_of_isBlank {c : Char} (hc : isBlank c = false) (d : Char) (hd : isBlank d = true) :
    (d == c) = false :=
  beq_false_of_ne fun h => by rw [h, hc] at hd; cases hd

section

variable {p : Char → Bool} (hp : ∀ c, isBlank c = true → p c = false)

include hp

theorem takeWhile_take_squeeze (n : Nat) (cs : List Char) :
    ((squeeze cs).take n).takeWhile p = (cs.take n).takeWhile p := by
  induction n generalizing cs with
  | zero => rfl
  | succ n ih =>
      refine apply_squeeze (fun cs => (cs.take (n + 1)).takeWhile p) (fun c cs hc => ?_)
        (fun c cs _ => ?_) cs
      · exact List.takeWhile_cons_of_neg (by rw [hp c hc]; decide)
      · simp only [List.take_succ_cons, List.takeWhile_cons, ih]

theorem head?_any_squeeze (cs : List Char) : (squeeze cs).head?.any p = cs.head?.any p :=
  apply_squeeze (fun cs => cs.head?.any p) (fun c _ hc => hp c hc) (fun _ _ _ => rfl) cs

theorem takeWhile_squeeze (cs : List Char) : (squeeze cs).takeWhile p = cs.takeWhile p := by
  have hcut := takeWhile_take_squeeze hp (max (squeeze cs).length cs.length) cs
  rwa [List.take_of_length_le (le_max_left _ _), List.take_of_length_le (le_max_right _ _)] at hcut

end

/-- What stands behind a piece without blanks. -/
theorem drop_squeeze {front cs : List Char} (h : front <+: cs)
    (hfront : ∀ c ∈ front, isBlank c = false) :
    (squeeze cs).drop front.length = squeeze (cs.drop front.length) := by
  obtain ⟨rest, rfl⟩ := h
  rw [Text.squeeze_append hfront, List.drop_left, List.drop_left]

/-- A piece without blanks begins a squeezed text only where it begins the text. -/
theorem isPrefix_squeeze {word : List Char} (hword : word.any isBlank = false) {cs : List Char} :
    word <+: squeeze cs ↔ word <+: cs := by
  constructor
  · rintro ⟨rest, hrest⟩
    obtain ⟨zs, rfl, -⟩ := Text.exists_of_squeeze_append hword hrest.symm
    exact List.prefix_append word zs
  · rintro ⟨rest, rfl⟩
    rw [Text.squeeze_append fun c hc => Bool.eq_false_iff.mpr fun hblank =>
      Bool.eq_false_iff.mp hword (List.any_eq_true.mpr ⟨c, hc, hblank⟩)]
    exact List.prefix_append word _

/-! ## Numerals -/

theorem isDigit_of_isBlank (c : Char) (h : isBlank c = true) : isDigit c = false :=
  not_of_isBlank (p := isDigit) (fun c hc => by have := toNat_of_isDigit hc; omega) c h

theorem isBlank_of_isDigit {c : Char} (h : isDigit c = true) : isBlank c = false := by
  refine Bool.eq_false_iff.mpr fun hblank => ?_
  rw [isDigit_of_isBlank c hblank] at h
  cases h

theorem leadingSign_cons (c : Char) (cs : List Char) :
    leadingSign (c :: cs) = if c = '+' then ['+'] else if c = '-' then ['-'] else [] := by
  unfold leadingSign
  split
  · next h => cases h; rfl
  · next h => cases h; rfl
  · next hplus hminus =>
      rw [if_neg fun hc => hplus cs (by rw [hc]), if_neg fun hc => hminus cs (by rw [hc])]

theorem leadingSign_isPrefix (cs : List Char) : leadingSign cs <+: cs := by
  unfold leadingSign
  split <;> simp

theorem isBlank_of_mem_leadingSign {c : Char} {cs : List Char} (h : c ∈ leadingSign cs) :
    isBlank c = false := by
  unfold leadingSign at h
  split at h
  · cases List.mem_singleton.mp h
    decide
  · cases List.mem_singleton.mp h
    decide
  · cases h

theorem leadingSign_squeeze (cs : List Char) : leadingSign (squeeze cs) = leadingSign cs := by
  refine apply_squeeze leadingSign (fun c cs hc => ?_) (fun c cs _ => ?_) cs
  · have hplus : c ≠ '+' := by
      rintro rfl
      cases hc
    have hminus : c ≠ '-' := by
      rintro rfl
      cases hc
    rw [leadingSign_cons, if_neg hplus, if_neg hminus]
    rfl
  · rw [leadingSign_cons, leadingSign_cons]

theorem takeFraction_cons (c : Char) (cs : List Char) :
    takeFraction (c :: cs) =
      if c = '.' then if (cs.takeWhile isDigit).isEmpty then [] else '.' :: cs.takeWhile isDigit
      else [] := by
  unfold takeFraction
  split
  · next h => cases h; rfl
  · next hpoint => rw [if_neg fun hc => hpoint cs (by rw [hc])]

theorem takeFraction_squeeze (cs : List Char) : takeFraction (squeeze cs) = takeFraction cs := by
  refine apply_squeeze takeFraction (fun c cs hc => ?_) (fun c cs _ => ?_) cs
  · have hpoint : c ≠ '.' := by
      rintro rfl
      cases hc
    rw [takeFraction_cons, if_neg hpoint]
    rfl
  · rw [takeFraction_cons, takeFraction_cons, takeWhile_squeeze isDigit_of_isBlank]

theorem isBlank_of_mem_takeWhile {c : Char} {cs : List Char} (h : c ∈ cs.takeWhile isDigit) :
    isBlank c = false :=
  isBlank_of_isDigit (List.mem_takeWhile_imp h)

theorem isBlank_of_mem_takeFraction {c : Char} {cs : List Char} (h : c ∈ takeFraction cs) :
    isBlank c = false := by
  unfold takeFraction at h
  split at h
  · split at h
    · cases h
    · rcases List.mem_cons.mp h with rfl | h
      · decide
      · exact isBlank_of_mem_takeWhile h
  · cases h

theorem takeExponent_squeeze (cs : List Char) : takeExponent (squeeze cs) = takeExponent cs := by
  refine apply_squeeze takeExponent (fun c cs hc => ?_) (fun c cs _ => ?_) cs
  · have hletter : (decide (c = 'e') || decide (c = 'E')) = false := by
      rw [Bool.or_eq_false_iff, decide_eq_false_iff_not, decide_eq_false_iff_not]
      constructor <;>
        · rintro rfl
          cases hc
    rw [takeExponent_cons, hletter]
    rfl
  · have hsign := drop_squeeze (leadingSign_isPrefix cs) fun _ => isBlank_of_mem_leadingSign
    rw [takeExponent_cons, takeExponent_cons, leadingSign_squeeze, hsign,
      takeWhile_squeeze isDigit_of_isBlank]

theorem isBlank_of_mem_takeExponent {c : Char} {cs : List Char} (h : c ∈ takeExponent cs) :
    isBlank c = false := by
  cases cs with
  | nil => cases h
  | cons d cs =>
      rw [takeExponent_cons] at h
      split at h
      · next hletter =>
          rw [Bool.or_eq_true, decide_eq_true_eq, decide_eq_true_eq] at hletter
          split at h
          · cases h
          · rcases List.mem_append.mp h with h | h
            · rcases List.mem_cons.mp h with rfl | h
              · rcases hletter with rfl | rfl <;> decide
              · exact isBlank_of_mem_leadingSign h
            · exact isBlank_of_mem_takeWhile h
      · cases h

/-- No blank stands in a numeral. -/
theorem isBlank_of_mem_takeNumeral {c : Char} {cs : List Char} (h : c ∈ takeNumeral cs) :
    isBlank c = false := by
  rw [takeNumeral_eq] at h
  dsimp only at h
  split at h
  · cases h
  · rw [List.mem_append, List.mem_append, List.mem_append] at h
    rcases h with (h | h | h) | h
    · exact isBlank_of_mem_leadingSign h
    · exact isBlank_of_mem_takeWhile h
    · exact isBlank_of_mem_takeFraction h
    · exact isBlank_of_mem_takeExponent h

/-- **Numerals are not touched.** -/
theorem takeNumeral_squeeze (cs : List Char) : takeNumeral (squeeze cs) = takeNumeral cs := by
  have hsign := drop_squeeze (leadingSign_isPrefix cs) fun _ => isBlank_of_mem_leadingSign
  rw [takeNumeral_eq, takeNumeral_eq, leadingSign_squeeze, hsign]
  generalize cs.drop (leadingSign cs).length = rest
  dsimp only
  have hwhole := drop_squeeze (List.takeWhile_prefix (l := rest) isDigit) fun _ =>
    isBlank_of_mem_takeWhile
  rw [takeWhile_squeeze isDigit_of_isBlank, hwhole, takeFraction_squeeze]
  have hprefix : rest.takeWhile isDigit ++
      takeFraction (rest.drop (rest.takeWhile isDigit).length) <+: rest :=
    isPrefix_append_of_drop (List.takeWhile_prefix isDigit) (takeFraction_isPrefix _)
  have hdigits := drop_squeeze hprefix fun c hc =>
    (List.mem_append.mp hc).elim isBlank_of_mem_takeWhile isBlank_of_mem_takeFraction
  rw [hdigits, takeExponent_squeeze]

/-! ## Unicode ranges -/

theorem startsRange_squeeze (c : Char) (cs : List Char) :
    startsRange (c :: squeeze cs) = startsRange (c :: cs) := by
  have hplus := head?_any_squeeze (p := (· == '+')) (beq_of_isBlank (by decide)) cs
  rw [startsRange_cons, startsRange_cons, hplus]
  cases cs with
  | nil => rfl
  | cons d cs =>
      by_cases hd : d = '+'
      · subst hd
        have hdigit := head?_any_squeeze (p := fun d => Text.isHex d || d == '?') (fun d hd => by
          rw [isHex_of_isBlank d hd, beq_of_isBlank (by decide) d hd, Bool.or_false]) cs
        rw [Text.squeeze_cons (by decide), List.tail_cons, List.tail_cons, hdigit]
      · rw [List.head?_cons, Option.any_some, beq_false_of_ne hd, Bool.and_false, Bool.false_and,
          Bool.false_and]

def rangeEnd : List Char → List Char
  | '-' :: rest => (rest.take 6).takeWhile Text.isHex
  | _ => []

theorem rangeEnd_cons (c : Char) (cs : List Char) :
    rangeEnd (c :: cs) = if c = '-' then (cs.take 6).takeWhile Text.isHex else [] := by
  unfold rangeEnd
  split
  · next h => cases h; rfl
  · next hminus => rw [if_neg fun hc => hminus cs (by rw [hc])]

theorem rangeEnd_squeeze (cs : List Char) : rangeEnd (squeeze cs) = rangeEnd cs := by
  refine apply_squeeze rangeEnd (fun c cs hc => ?_) (fun c cs _ => ?_) cs
  · have hminus : c ≠ '-' := by
      rintro rfl
      cases hc
    rw [rangeEnd_cons, if_neg hminus]
    rfl
  · rw [rangeEnd_cons, rangeEnd_cons, takeWhile_take_squeeze isHex_of_isBlank]

theorem takeRange_eq (cs : List Char) :
    takeRange cs =
      (let digits := (cs.take 6).takeWhile Text.isHex
      let marks := ((cs.take 6).drop digits.length).takeWhile (· == '?')
      let first := digits.filterMap Text.hexValue?
      let last := rangeEnd (cs.drop digits.length)
      if !marks.isEmpty then
        ((Text.ofDigits 16 (first ++ marks.map fun _ => 0),
          Text.ofDigits 16 (first ++ marks.map fun _ => 15)), digits.length + marks.length)
      else if last.isEmpty then
        ((Text.ofDigits 16 first, Text.ofDigits 16 first), digits.length)
      else
        ((Text.ofDigits 16 first, Text.ofDigits 16 (last.filterMap Text.hexValue?)),
          digits.length + 1 + last.length)) :=
  rfl

theorem takeRange_squeeze (cs : List Char) : takeRange (squeeze cs) = takeRange cs := by
  have hdigits := takeWhile_take_squeeze isHex_of_isBlank 6 cs
  have hprefix : (cs.take 6).takeWhile Text.isHex <+: cs :=
    (List.takeWhile_prefix _).trans (List.take_prefix 6 cs)
  have hbehind := drop_squeeze hprefix fun c hc => isBlank_of_isHex (List.mem_takeWhile_imp hc)
  rw [takeRange_eq, takeRange_eq, hdigits]
  generalize (cs.take 6).takeWhile Text.isHex = digits at hbehind
  dsimp only
  rw [List.drop_take, List.drop_take, hbehind]
  generalize cs.drop digits.length = rest
  have hmarks := takeWhile_take_squeeze (p := (· == '?')) (beq_of_isBlank (by decide))
    (6 - digits.length) rest
  rw [hmarks, rangeEnd_squeeze]

/-! ## Comments -/

theorem any_head?_takeComment (cs : List Char) :
    (takeComment cs).1.head?.any isBlank = cs.head?.any isBlank := by
  cases cs using takeComment.induct with
  | case1 => rfl
  | case2 cs =>
      have hstar : isBlank '*' = false := by decide
      rw [takeComment, List.head?_cons, Option.any_some, hstar]
      rfl
  | case3 c cs hopen => rw [takeComment.eq_3 _ _ hopen, List.head?_cons, List.head?_cons]

/-- A comment that is not closed goes on to the end. -/
theorem takeComment_of_open {cs : List Char} (h : (takeComment cs).2 = false) :
    (takeComment cs).1 = cs := by
  induction cs using takeComment.induct with
  | case1 => rfl
  | case2 cs => cases h
  | case3 c cs hopen _ _ _ ih =>
      rw [takeComment.eq_3 _ _ hopen] at h ⊢
      exact congrArg (c :: ·) (ih h)

/-- **A comment ends in the same place**, and its text is squeezed. -/
theorem takeComment_squeeze (cs : List Char) :
    takeComment (squeeze cs) = (squeeze (takeComment cs).1, (takeComment cs).2) := by
  induction cs using takeComment.induct with
  | case1 => rfl
  | case2 cs =>
      rw [Text.squeeze_cons (by decide), Text.squeeze_cons (by decide), takeComment, takeComment]
      rfl
  | case3 c cs hopen _ _ _ ih =>
      rw [takeComment.eq_3 _ _ hopen, squeeze, squeeze, any_head?_takeComment]
      split
      · split
        · exact ih
        · rw [takeComment.eq_3 _ _ (fun _ h => by cases h), ih]
      · next hc =>
          rw [takeComment.eq_3, ih]
          rintro rest rfl hslash
          have hslash : squeeze cs = ['/'] ++ rest := hslash
          obtain ⟨zs, hzs, -⟩ := Text.exists_of_squeeze_append (by decide) hslash
          exact hopen zs rfl hzs

/-- What stands behind a comment that is closed, and that nothing stands behind another. -/
theorem drop_takeComment_squeeze (cs : List Char) :
    (squeeze cs).drop ((squeeze (takeComment cs).1).length + if (takeComment cs).2 then 2 else 0) =
      squeeze (cs.drop ((takeComment cs).1.length + if (takeComment cs).2 then 2 else 0)) := by
  cases hclosed : (takeComment cs).2 with
  | true =>
      have hfront := takeComment_of_closed hclosed
      have hcs := List.take_append_drop ((takeComment cs).1.length + 2) cs
      rw [hfront, List.append_assoc] at hcs
      have hsqueezed := congrArg squeeze hcs
      rw [List.cons_append, Text.squeeze_append_cons (by decide), List.cons_append,
        Text.squeeze_cons (by decide), List.nil_append] at hsqueezed
      rw [← hsqueezed, if_pos rfl, ← List.drop_drop, List.drop_left]
      rfl
  | false =>
      rw [takeComment_of_open hclosed, if_neg Bool.false_ne_true,
        Nat.add_zero, Nat.add_zero, List.drop_length, List.drop_length]
      rfl

/-! ## Names -/

theorem startsEscape_squeeze {cs : List Char} (h : startsEscape cs = true) :
    startsEscape (squeeze cs) = true := by
  cases cs with
  | nil => cases h
  | cons c cs =>
      cases startsEscape_iff h
      rw [Text.squeeze_cons (by decide), startsEscape_cons]
      have hline : (squeeze cs).head?.any (· == '\n') = false := by
        refine Bool.eq_false_iff.mpr fun hline => ?_
        cases hd : (squeeze cs).head? with
        | none =>
            rw [hd] at hline
            cases hline
        | some d =>
            rw [hd, Option.any_some, beq_iff_eq] at hline
            subst hline
            cases Text.eq_space_of_mem_squeeze (List.mem_of_mem_head? hd) (by decide)
      rw [hline]
      rfl

/-- What stands behind a name does not touch it: neither a blank nor an escape. -/
def Bounds (cs : List Char) : Prop :=
  ∀ c ∈ cs.head?, isBlank c = false ∧ c ≠ '\\'

/-- A name without blanks and what bounds it do not begin with a blank. -/
theorem firm_of_takeName {cs : List Char} (hname : ∀ c ∈ (takeName cs).1, isBlank c = false)
    (hrest : Bounds (cs.drop (takeName cs).2)) : Firm cs := by
  cases cs with
  | nil => exact Text.firm_nil
  | cons c cs =>
      rw [Text.firm_cons]
      by_cases hc : isNameChar c = true
      · rw [takeName_name hc] at hname
        exact hname c List.mem_cons_self
      · have hc := Bool.eq_false_iff.mpr hc
        by_cases hescape : startsEscape (c :: cs) = true
        · rw [startsEscape_iff hescape]
          decide
        · rw [takeName_other hc (Bool.eq_false_iff.mpr hescape)] at hrest
          exact (hrest c rfl).1

theorem takeEscape_eq (cs : List Char) :
    takeEscape cs =
      (let digits := (cs.take 6).takeWhile Text.isHex
      if digits.isEmpty then
        match cs with
        | [] => ('\ufffd', 0)
        | c :: _ => (c, 1)
      else
        let n := Text.ofDigits 16 (digits.filterMap Text.hexValue?)
        (if n = 0 then '\ufffd' else Text.charOfCode n,
          digits.length + if (cs[digits.length]?).any isSpace then 1 else 0)) :=
  rfl

theorem takeEscape_squeeze {cs : List Char} (hchar : isBlank (takeEscape cs).1 = false)
    (hrest : Firm (cs.drop (takeEscape cs).2)) :
    (takeEscape (squeeze cs)).1 = (takeEscape cs).1 ∧
      (squeeze cs).drop (takeEscape (squeeze cs)).2 = squeeze (cs.drop (takeEscape cs).2) := by
  have htaken := takeWhile_take_squeeze isHex_of_isBlank 6 cs
  rw [takeEscape_eq] at hchar hrest ⊢
  rw [takeEscape_eq, htaken]
  have hprefix : (cs.take 6).takeWhile Text.isHex <+: cs :=
    (List.takeWhile_prefix _).trans (List.take_prefix 6 cs)
  have hdigits : ∀ c ∈ (cs.take 6).takeWhile Text.isHex, isBlank c = false := fun c hc =>
    isBlank_of_isHex (List.mem_takeWhile_imp hc)
  -- no digit is a blank, so that squeezing changes at most the blank behind the digits
  generalize (cs.take 6).takeWhile Text.isHex = digits at hchar hrest hprefix hdigits ⊢
  dsimp only at hchar hrest ⊢
  split at hchar
  · next hempty =>
      rw [if_pos hempty] at hrest ⊢
      rw [if_pos hempty]
      cases cs with
      | nil => exact ⟨rfl, rfl⟩
      | cons c cs =>
          rw [Text.squeeze_cons hchar]
          exact ⟨rfl, rfl⟩
  · next hempty =>
      rw [if_neg hempty] at hrest ⊢
      rw [if_neg hempty]
      obtain ⟨rest, rfl⟩ := hprefix
      have hnext : ∀ xs : List Char, (digits ++ xs)[digits.length]? = xs.head? := by
        intro xs
        rw [List.getElem?_append_right (Nat.le_refl _), Nat.sub_self, List.head?_eq_getElem?]
      rw [Text.squeeze_append hdigits, hnext, hnext]
      rw [hnext] at hrest
      refine ⟨rfl, ?_⟩
      dsimp only at hrest ⊢
      rw [← List.drop_drop, List.drop_left] at hrest ⊢
      rw [← List.drop_drop, List.drop_left]
      cases rest with
      | nil => rfl
      | cons d rest =>
          rw [List.head?_cons, Option.any_some] at hrest ⊢
          cases hd : isSpace d with
          | true =>
              rw [hd] at hrest
              have hrun : squeeze (d :: rest) = ' ' :: squeeze rest :=
                Text.squeeze_blank (isBlank_of_isSpace hd) hrest
              rw [hrun]
              rfl
          | false =>
              rw [hd] at hrest
              rw [Text.squeeze_cons (Text.firm_cons.mp hrest), List.head?_cons, Option.any_some, hd]
              exact (Text.squeeze_cons (Text.firm_cons.mp hrest) rest).symm

/-- **A name without blanks stays.** The blank that ends an escape in it becomes a space. -/
theorem takeName_squeeze {cs : List Char} (hname : ∀ c ∈ (takeName cs).1, isBlank c = false)
    (hrest : Bounds (cs.drop (takeName cs).2)) :
    (takeName (squeeze cs)).1 = (takeName cs).1 ∧
      (squeeze cs).drop (takeName (squeeze cs)).2 = squeeze (cs.drop (takeName cs).2) := by
  induction cs using takeName.induct with
  | case1 =>
      rw [squeeze, takeName]
      exact ⟨rfl, rfl⟩
  | case2 c cs hc _ _ _ ih =>
      rw [takeName_name hc] at hname hrest ⊢
      rw [List.forall_mem_cons] at hname
      obtain ⟨hsame, hdrop⟩ := ih hname.2 hrest
      rw [Text.squeeze_cons hname.1, takeName_name hc, hsame]
      exact ⟨rfl, hdrop⟩
  | case3 c cs hc hescape e k hek _ _ _ ih =>
      have hc := Bool.eq_false_iff.mpr hc
      have hslash := startsEscape_iff hescape
      subst hslash
      have hskip : ∀ (m n : Nat) (xs : List Char),
          ('\\' :: xs).drop (m + n + 1) = (xs.drop m).drop n := by
        intro m n xs
        rw [List.drop_succ_cons, List.drop_drop]
      rw [takeName_escape hc hescape, hek] at hname hrest ⊢
      rw [List.forall_mem_cons] at hname
      dsimp only at hname hrest ⊢
      rw [hskip] at hrest ⊢
      obtain ⟨hsame, hdrop⟩ := ih hname.2 hrest
      -- the escape ends in the same place, since what follows it does not begin with a blank
      have hfirm := firm_of_takeName hname.2 hrest
      have hescape' : isBlank (takeEscape cs).1 = false ∧ Firm (cs.drop (takeEscape cs).2) := by
        rw [hek]
        exact ⟨hname.1, hfirm⟩
      obtain ⟨hchar, hbehind⟩ := takeEscape_squeeze hescape'.1 hescape'.2
      have hescaped := startsEscape_squeeze hescape
      rw [Text.squeeze_cons (by decide)] at hescaped ⊢
      rw [hek] at hchar hbehind
      rw [takeName_escape hc hescaped, hskip, hbehind, hchar]
      dsimp only
      exact ⟨congrArg (e :: ·) hsame, hdrop⟩
  | case4 c cs hc hescape =>
      have hc := Bool.eq_false_iff.mpr hc
      have hescape := Bool.eq_false_iff.mpr hescape
      rw [takeName_other hc hescape] at hrest ⊢
      obtain ⟨hblank, hslash⟩ := hrest c rfl
      have hsame : startsEscape (c :: squeeze cs) = false := by
        rw [startsEscape_cons, beq_false_of_ne hslash]
        rfl
      rw [Text.squeeze_cons hblank, takeName_other hc hsame]
      exact ⟨rfl, (Text.squeeze_cons hblank cs).symm⟩

end TokenCatalog.Css
