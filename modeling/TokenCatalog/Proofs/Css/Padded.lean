import Mathlib.Data.Bool.AllAny
import TokenCatalog.Proofs.Css.Respaced

/-!
# Blanks at the end of a text

Two texts that differ only in the blanks that they end in are scanned alike, except that a comment
may hold more of them, that an escape may take one, and that a backslash in front of them escapes
one. Main statements:

* `Padded`: two texts that differ in the blanks that they end in;
* `Padded.takeNumeral` and `Padded.dropComment`: their numerals are the same, and the same stands
  behind their comments;
* `Padded.takeName`: so are their names, if there is no blank in them;
* `Settled`: what has to stand behind a name for that.
-/

namespace TokenCatalog.Css

/-! ## Texts -/

def AreSpaces (cs : List Char) : Prop :=
  ∀ c ∈ cs, isSpace c = true

/-- Two texts that differ in the blanks that they end in. -/
inductive Padded : List Char → List Char → Prop
  | spaces {u v : List Char} (hu : AreSpaces u) (hv : AreSpaces v) : Padded u v
  | cons (c : Char) {u v : List Char} (h : Padded u v) : Padded (c :: u) (c :: v)

theorem isSpace_iff {c : Char} : isSpace c = true ↔ c = ' ' ∨ c = '\n' ∨ c = '\t' := by
  simp [isSpace, or_assoc]

theorem areSpaces_nil : AreSpaces [] :=
  fun _ h => absurd h List.not_mem_nil

theorem AreSpaces.drop {cs : List Char} (h : AreSpaces cs) (n : Nat) : AreSpaces (cs.drop n) :=
  fun c hc => h c (List.mem_of_mem_drop hc)

def Solid (p : Char → Bool) : Prop :=
  ∀ c, isSpace c = true → p c = false

theorem solid_of {p : Char → Bool} (h : [' ', '\n', '\t'].all (!p ·) = true) : Solid p := by
  intro c hc
  rcases isSpace_iff.mp hc with rfl | rfl | rfl <;> simp_all

theorem solid_isHex : Solid Text.isHex := solid_of (by decide)

theorem solid_isDigit : Solid isDigit := solid_of (by decide)

theorem solid_isNameChar : Solid isNameChar := solid_of (by decide)

theorem AreSpaces.takeWhile {cs : List Char} (h : AreSpaces cs) {p : Char → Bool} (hp : Solid p) :
    cs.takeWhile p = [] := by
  cases cs with
  | nil => rfl
  | cons c cs => exact List.takeWhile_cons_of_neg (by rw [hp c (h c List.mem_cons_self)]; decide)

theorem AreSpaces.any_head? {cs : List Char} (h : AreSpaces cs) {p : Char → Bool} (hp : Solid p) :
    cs.head?.any p = false := by
  cases cs with
  | nil => rfl
  | cons c cs => exact hp c (h c List.mem_cons_self)

theorem Padded.symm {u v : List Char} (h : Padded u v) : Padded v u := by
  induction h with
  | spaces hu hv => exact .spaces hv hu
  | cons c h ih => exact .cons c ih

theorem padded_append {u v : List Char} (s : List Char) (h : Padded u v) :
    Padded (s ++ u) (s ++ v) := by
  induction s with
  | nil => exact h
  | cons c s ih => exact .cons c ih

theorem Padded.areSpaces {v : List Char} (h : Padded [] v) : AreSpaces v := by
  cases h with
  | spaces hu hv => exact hv

/-- A text that does not begin with a blank begins alike. -/
theorem Padded.exists_of_cons {c : Char} {u w : List Char} (h : Padded (c :: u) w)
    (hc : isSpace c = false) : ∃ v, w = c :: v ∧ Padded u v := by
  cases h with
  | spaces hu hv => cases (hu c List.mem_cons_self).symm.trans hc
  | cons c h => exact ⟨_, rfl, h⟩

section

variable {u v : List Char} (h : Padded u v)

include h

theorem Padded.tail : Padded u.tail v.tail := by
  cases h with
  | spaces hu hv =>
      exact .spaces (fun c hc => hu c (List.mem_of_mem_tail hc)) fun c hc =>
        hv c (List.mem_of_mem_tail hc)
  | cons c h => exact h

theorem Padded.take (n : Nat) : Padded (u.take n) (v.take n) := by
  induction h generalizing n with
  | spaces hu hv =>
      exact .spaces (fun c hc => hu c (List.mem_of_mem_take hc)) fun c hc =>
        hv c (List.mem_of_mem_take hc)
  | cons c h ih =>
      cases n with
      | zero => exact .spaces areSpaces_nil areSpaces_nil
      | succ n => exact .cons c (ih n)

theorem Padded.any_head? {p : Char → Bool} (hp : Solid p) : u.head?.any p = v.head?.any p := by
  cases h with
  | spaces hu hv => rw [hu.any_head? hp, hv.any_head? hp]
  | cons c h => rfl

theorem Padded.head?_eq {c : Char} (hc : isSpace c = false) :
    u.head? = some c ↔ v.head? = some c := by
  have hsolid : Solid (· == c) := fun d hd => beq_eq_false_iff_ne.mpr fun h => by
    cases hd.symm.trans (h ▸ hc)
  have hsame := h.any_head? hsolid
  cases hu : u.head? <;> cases hv : v.head? <;> simp_all

theorem Padded.takeWhile {p : Char → Bool} (hp : Solid p) : u.takeWhile p = v.takeWhile p := by
  induction h with
  | spaces hu hv => rw [hu.takeWhile hp, hv.takeWhile hp]
  | cons c h ih => rw [List.takeWhile_cons, List.takeWhile_cons, ih]

theorem Padded.dropSpaces : Padded (u.dropWhile isSpace) (v.dropWhile isSpace) := by
  induction h with
  | spaces hu hv =>
      rw [List.dropWhile_eq_nil_iff.mpr hu, List.dropWhile_eq_nil_iff.mpr hv]
      exact .spaces areSpaces_nil areSpaces_nil
  | cons c h ih =>
      rw [List.dropWhile_cons, List.dropWhile_cons]
      split
      · exact ih
      · exact .cons c h

/-- A piece without blanks begins both texts. -/
theorem Padded.cut {text : List Char} (htext : ∀ c ∈ text, isSpace c = false) (hu : text <+: u) :
    text <+: v ∧ Padded (u.drop text.length) (v.drop text.length) := by
  induction text generalizing u v with
  | nil => exact ⟨List.nil_prefix, h⟩
  | cons c text ih =>
      rw [List.forall_mem_cons] at htext
      obtain ⟨rest, rfl⟩ := hu
      obtain ⟨w, rfl, hw⟩ := h.exists_of_cons htext.1
      obtain ⟨hfront, hdrop⟩ := ih hw htext.2 (List.prefix_append text rest)
      exact ⟨List.cons_prefix_cons.mpr ⟨rfl, hfront⟩, hdrop⟩

/-! ## Numerals and ranges -/

omit h in
theorem AreSpaces.numeralParts {cs : List Char} (h : AreSpaces cs) :
    leadingSign cs = [] ∧ takeFraction cs = [] ∧ takeExponent cs = [] := by
  cases cs with
  | nil => exact ⟨rfl, rfl, rfl⟩
  | cons c cs =>
      rcases isSpace_iff.mp (h c List.mem_cons_self) with rfl | rfl | rfl <;> exact ⟨rfl, rfl, rfl⟩

omit h in
theorem isSpace_of_mem_leadingSign {c : Char} {cs : List Char} (hc : c ∈ leadingSign cs) :
    isSpace c = false :=
  not_isSpace (isBlank_of_mem_leadingSign hc)

theorem Padded.leadingSign : leadingSign u = leadingSign v := by
  cases h with
  | spaces hu hv => rw [hu.numeralParts.1, hv.numeralParts.1]
  | cons c h => rw [leadingSign_cons, leadingSign_cons]

theorem Padded.dropSign :
    Padded (u.drop (Css.leadingSign u).length) (v.drop (Css.leadingSign v).length) := by
  rw [← h.leadingSign]
  exact (h.cut (fun _ => isSpace_of_mem_leadingSign) (leadingSign_isPrefix u)).2

theorem Padded.takeFraction : takeFraction u = takeFraction v := by
  cases h with
  | spaces hu hv => rw [hu.numeralParts.2.1, hv.numeralParts.2.1]
  | cons c h => rw [takeFraction_cons, takeFraction_cons, h.takeWhile solid_isDigit]

theorem Padded.takeExponent : takeExponent u = takeExponent v := by
  cases h with
  | spaces hu hv => rw [hu.numeralParts.2.2, hv.numeralParts.2.2]
  | cons c h =>
      rw [takeExponent_cons, takeExponent_cons, h.dropSign.takeWhile solid_isDigit, h.leadingSign]

/-- The digits before and after the point. -/
theorem Padded.takeDigits {digits : List Char}
    (hdigits : digits = u.takeWhile isDigit ++
      TokenCatalog.takeFraction (u.drop (u.takeWhile isDigit).length)) :
    digits = v.takeWhile isDigit ++ TokenCatalog.takeFraction
      (v.drop (v.takeWhile isDigit).length) ∧
      Padded (u.drop digits.length) (v.drop digits.length) := by
  have hwhole : ∀ c ∈ u.takeWhile isDigit, isSpace c = false := fun c hc =>
    not_isSpace (isBlank_of_mem_takeWhile hc)
  have hfraction : ∀ c ∈ TokenCatalog.takeFraction (u.drop (u.takeWhile isDigit).length),
      isSpace c = false := fun c hc =>
    not_isSpace (isBlank_of_mem_takeFraction hc)
  have hrest := (h.cut hwhole (List.takeWhile_prefix _)).2
  refine ⟨?_, (h.cut ?_ ?_).2⟩
  · rw [hdigits, hrest.takeFraction, h.takeWhile solid_isDigit]
  · rw [hdigits]
    exact fun c hc => (List.mem_append.mp hc).elim (hwhole c) (hfraction c)
  · rw [hdigits]
    exact isPrefix_append_of_drop (List.takeWhile_prefix _) (takeFraction_isPrefix _)

theorem Padded.takeNumeral : takeNumeral u = takeNumeral v := by
  obtain ⟨hdigits, hrest⟩ := h.dropSign.takeDigits rfl
  rw [takeNumeral_eq, takeNumeral_eq]
  dsimp only
  rw [← hdigits, hrest.takeExponent, h.leadingSign]

theorem Padded.startsRange (c : Char) : startsRange (c :: u) = startsRange (c :: v) := by
  rw [startsRange_cons, startsRange_cons, h.any_head? (solid_of (by decide)),
    h.tail.any_head? (solid_of (by decide))]

theorem Padded.arrow (c : Char) :
    (c :: v).take 3 = "-->".toList ↔ (c :: u).take 3 = "-->".toList := by
  rw [take_three_eq_arrow, take_three_eq_arrow]
  have hsolid : ∀ d ∈ ['-', '>'], isSpace d = false := List.all_iff_forall_prop.mp (by decide)
  exact and_congr_right fun _ => ⟨fun hv => (h.symm.cut hsolid hv).1, fun hu => (h.cut hsolid hu).1⟩

/-! ## Comments -/

def commentLength (cs : List Char) : Nat :=
  (takeComment cs).1.length + if (takeComment cs).2 then 2 else 0

omit h in
theorem drop_comment (cs : List Char) :
    ('*' :: cs).drop ((takeComment cs).1.length + if (takeComment cs).2 then 3 else 1) =
      cs.drop (commentLength cs) := by
  rw [commentLength]
  cases (takeComment cs).2 <;> rfl

theorem Padded.dropComment : Padded (u.drop (commentLength u)) (v.drop (commentLength v)) := by
  induction h with
  | spaces hu hv => exact .spaces (hu.drop _) (hv.drop _)
  | @cons c u v h ih =>
      have hplain : ∀ {cs : List Char}, (∀ more, c = '*' → cs = '/' :: more → False) →
          (c :: cs).drop (commentLength (c :: cs)) = cs.drop (commentLength cs) := by
        intro cs hopen
        rw [commentLength, takeComment.eq_3 _ _ hopen, List.length_cons, Nat.add_right_comm]
        rfl
      by_cases hends : c = '*' ∧ u.head? = some '/'
      · obtain ⟨rfl, hhead⟩ := hends
        obtain ⟨u, rfl⟩ := List.head?_eq_some_iff.mp hhead
        obtain ⟨v, rfl, hrest⟩ := h.exists_of_cons (by decide)
        exact hrest
      · have hends' : ¬ (c = '*' ∧ v.head? = some '/') := by
          rwa [← h.head?_eq (by decide)]
        rw [hplain fun more hc hmore => hends ⟨hc, by rw [hmore]; rfl⟩,
          hplain fun more hc hmore => hends' ⟨hc, by rw [hmore]; rfl⟩]
        exact ih

end

/-! ## Escapes and names -/

/-- A character that no blank at the end of a text can bring into a name: no blank, and not what
stands for an escape without a character. -/
def IsFirm (c : Char) : Prop :=
  c ≠ ' ' ∧ c ≠ '\t' ∧ c ≠ '\ufffd'

/-- Texts that differ in the blanks at their ends from a text go on with an escape or a name only if
that text does. -/
structure Settled (u : List Char) : Prop where
  ident : ∀ v, Padded u v → startsIdent v = true → startsIdent u = true
  escape : ∀ v, Padded u v → startsEscape v = true → startsEscape u = true

/-- The length of the digits of an escape. -/
theorem takeEscape_of_isHex {c : Char} (hc : Text.isHex c = true) (cs : List Char) :
    ∃ digits, digits = ((c :: cs).take 6).takeWhile Text.isHex ∧ digits ≠ [] ∧
      takeEscape (c :: cs) =
        (if Text.ofDigits 16 (digits.filterMap Text.hexValue?) = 0 then '\ufffd'
          else Text.charOfCode (Text.ofDigits 16 (digits.filterMap Text.hexValue?)),
        digits.length + if ((c :: cs).drop digits.length).head?.any isSpace then 1 else 0) := by
  refine ⟨_, rfl, ?_, ?_⟩
  · rw [List.take_succ_cons, List.takeWhile_cons_of_pos hc]
    exact List.cons_ne_nil _ _
  · have hdigits : (((c :: cs).take 6).takeWhile Text.isHex).isEmpty = false := by
      rw [List.take_succ_cons, List.takeWhile_cons_of_pos hc]
      rfl
    unfold takeEscape
    dsimp only
    rw [hdigits, if_neg Bool.false_ne_true, List.head?_drop]

theorem takeEscape_of_not_isHex {c : Char} (hc : Text.isHex c = false) (cs : List Char) :
    takeEscape (c :: cs) = (c, 1) := by
  simp [takeEscape, hc]

section

variable {u v : List Char} (h : Padded u v)

include h

/-- A blank behind the digits of an escape goes with them. -/
theorem Padded.dropBlank :
    Padded (u.drop (if u.head?.any isSpace then 1 else 0))
      (v.drop (if v.head?.any isSpace then 1 else 0)) := by
  cases h with
  | spaces hu hv => exact .spaces (hu.drop _) (hv.drop _)
  | cons c h =>
      rw [List.head?_cons, List.head?_cons]
      split
      · exact h
      · exact .cons c h

theorem Padded.takeEscape (hescape : startsEscape ('\\' :: u) = true)
    (hfirm : IsFirm (takeEscape u).1) :
    startsEscape ('\\' :: v) = true ∧ (Css.takeEscape v).1 = (Css.takeEscape u).1 ∧
      Padded (u.drop (Css.takeEscape u).2) (v.drop (Css.takeEscape v).2) := by
  cases h with
  | spaces hu hv =>
      cases u with
      | nil => exact absurd rfl hfirm.2.2
      | cons c u =>
          -- only a line end could not be escaped, and it is not
          have hc := hu c List.mem_cons_self
          rw [takeEscape_of_not_isHex (solid_isHex c hc)] at hfirm
          rcases isSpace_iff.mp hc with rfl | rfl | rfl
          · exact absurd rfl hfirm.1
          · cases hescape
          · exact absurd rfl hfirm.2.1
  | @cons c u v h =>
      refine ⟨by rwa [startsEscape_cons] at hescape ⊢, ?_⟩
      cases hc : Text.isHex c with
      | false =>
          rw [takeEscape_of_not_isHex hc, takeEscape_of_not_isHex hc]
          exact ⟨rfl, h⟩
      | true =>
          obtain ⟨digits, hdigits, hne, hu⟩ := takeEscape_of_isHex hc u
          obtain ⟨digits', hdigits', -, hv⟩ := takeEscape_of_isHex hc v
          have hcons : Padded (c :: u) (c :: v) := .cons c h
          obtain rfl : digits = digits' := by
            rw [hdigits, hdigits', (hcons.take 6).takeWhile solid_isHex]
          have hsolid : ∀ d ∈ digits, isSpace d = false := fun d hd =>
            not_isSpace (Text.isBlank_of_isHex (List.mem_takeWhile_imp (hdigits ▸ hd)))
          have hfront : digits <+: c :: u :=
            hdigits ▸ (List.takeWhile_prefix _).trans (List.take_prefix _ _)
          have hrest := (hcons.cut hsolid hfront).2
          rw [hu, hv]
          refine ⟨rfl, ?_⟩
          dsimp only
          rw [← List.drop_drop, ← List.drop_drop]
          exact hrest.dropBlank

theorem Padded.startsEscape (hescape : startsEscape u = true)
    (hfirm : ∀ c ∈ (takeName u).1, IsFirm c) :
    Css.startsEscape v = true := by
  cases u with
  | nil => cases hescape
  | cons c u =>
      have hslash := startsEscape_iff hescape
      subst hslash
      obtain ⟨v, rfl, hrest⟩ := h.exists_of_cons (by decide)
      rw [takeName_escape (by decide) hescape] at hfirm
      exact (hrest.takeEscape hescape (hfirm _ List.mem_cons_self)).1

/-- Where one text does not go on with a name, neither does the other. -/
theorem Padded.takeName_none (hname : u.head?.any isNameChar = false)
    (hescape : Css.startsEscape u = false) (hnext : Settled u) : Css.takeName v = ([], 0) := by
  rw [h.any_head? solid_isNameChar] at hname
  have hescape' : Css.startsEscape v = false := Bool.eq_false_iff.mpr fun hv => by
    cases hescape.symm.trans (hnext.escape v h hv)
  cases v with
  | nil => rw [Css.takeName]
  | cons c v => exact takeName_other hname hescape'

/-- A name without blanks is taken whole. -/
theorem Padded.takeName (hfirm : ∀ c ∈ (takeName u).1, IsFirm c)
    (hnext : Settled (u.drop (takeName u).2)) :
    (Css.takeName v).1 = (Css.takeName u).1 ∧
      Padded (u.drop (Css.takeName u).2) (v.drop (Css.takeName v).2) := by
  induction u using takeName.induct generalizing v with
  | case1 =>
      rw [Css.takeName] at hnext ⊢
      rw [h.takeName_none rfl rfl hnext]
      exact ⟨rfl, h⟩
  | case2 c cs hc _ _ _ ih =>
      have hspace : isSpace c = false := Bool.eq_false_iff.mpr fun hspace => by
        cases hc.symm.trans (solid_isNameChar c hspace)
      obtain ⟨v, rfl, hrest⟩ := h.exists_of_cons hspace
      rw [takeName_name hc] at hfirm hnext ⊢
      rw [takeName_name hc]
      obtain ⟨hsame, hdrop⟩ := ih hrest (List.forall_mem_cons.mp hfirm).2 hnext
      exact ⟨congrArg (c :: ·) hsame, hdrop⟩
  | case3 c cs hc hescape e k hek _ _ _ ih =>
      have hc := Bool.eq_false_iff.mpr hc
      have hslash := startsEscape_iff hescape
      subst hslash
      obtain ⟨v, rfl, hrest⟩ := h.exists_of_cons (by decide)
      -- the induction is on the name behind the escape, the hypotheses on the text with the escape
      have hskip : ∀ (m n : Nat) (xs : List Char),
          ('\\' :: xs).drop (m + n + 1) = (xs.drop m).drop n := by
        intro m n xs
        rw [List.drop_succ_cons, List.drop_drop]
      rw [takeName_escape hc hescape] at hfirm hnext ⊢
      obtain ⟨hescape', hsame, hdrop⟩ := hrest.takeEscape hescape (hfirm _ List.mem_cons_self)
      rw [hek] at hfirm hnext hsame hdrop ⊢
      rw [takeName_escape hc hescape', hskip, hskip]
      dsimp only at hnext
      rw [hskip] at hnext
      obtain ⟨hname, hbehind⟩ := ih hdrop (List.forall_mem_cons.mp hfirm).2 hnext
      rw [hname, hsame]
      exact ⟨rfl, hbehind⟩
  | case4 c cs hc hescape =>
      have hc := Bool.eq_false_iff.mpr hc
      have hescape := Bool.eq_false_iff.mpr hescape
      rw [takeName_other hc hescape] at hnext ⊢
      rw [h.takeName_none hc hescape hnext]
      exact ⟨rfl, h⟩

omit h in
theorem isSpace_of_startsIdent {c : Char} {cs : List Char}
    (hident : Css.startsIdent (c :: cs) = true) :
    isSpace c = false := by
  refine Bool.eq_false_iff.mpr fun hspace => ?_
  rw [startsIdent_cons, startsEscape_cons] at hident
  rcases isSpace_iff.mp hspace with rfl | rfl | rfl <;> cases hident

theorem Padded.startsIdent (hident : startsIdent u = true)
    (hfirm : ∀ c ∈ (Css.takeName u).1, IsFirm c) :
    Css.startsIdent v = true := by
  cases u with
  | nil => cases hident
  | cons c u =>
      obtain ⟨v, rfl, hrest⟩ := h.exists_of_cons (isSpace_of_startsIdent hident)
      rw [startsIdent_cons] at hident ⊢
      split at hident
      · next hminus =>
          subst hminus
          rw [if_pos rfl, ← hrest.any_head? (solid_of (by decide))]
          rcases Bool.or_eq_true_iff.mp hident with hstart | hescape
          · rw [hstart, Bool.true_or]
          · rw [takeName_name (by decide)] at hfirm
            rw [hrest.startsEscape hescape (List.forall_mem_cons.mp hfirm).2, Bool.or_true]
      · next hminus =>
          rw [if_neg hminus]
          rcases Bool.or_eq_true_iff.mp hident with hstart | hescape
          · rw [hstart, Bool.true_or]
          · rw [h.startsEscape hescape hfirm, Bool.or_true]

end

/-! ## What stands behind a name -/

/-- A text that begins with a blank, if with anything. -/
theorem settled_of_blank {u : List Char} (h : ∀ c ∈ u.head?, isSpace c = true) : Settled u := by
  have hnone : ∀ {c : Char} {v : List Char}, Padded u (c :: v) → isSpace c = false → False := by
    intro c v hv hc
    obtain ⟨w, rfl, -⟩ := hv.symm.exists_of_cons hc
    cases hc.symm.trans (h c rfl)
  refine ⟨fun v hv hident => ?_, fun v hv hescape => ?_⟩
  · cases v with
    | nil => cases hident
    | cons c v => exact (hnone hv (isSpace_of_startsIdent hident)).elim
  · cases v with
    | nil => cases hescape
    | cons c v =>
        obtain rfl := startsEscape_iff hescape
        exact (hnone hv (by decide)).elim

theorem settled_of_isMark {c : Char} (hc : isMark c = true) (cs : List Char) :
    Settled (c :: cs) := by
  simp only [isMark, Bool.not_or, Bool.and_eq_true, Bool.not_eq_true', List.contains_eq_mem,
    decide_eq_false_iff_not, List.mem_cons, List.not_mem_nil, or_false, not_or] at hc
  obtain ⟨⟨⟨hspace, hstart⟩, -⟩, hminus, -, -, hslash⟩ := hc
  have hescape : ∀ v, startsEscape (c :: v) = false := fun v => by
    rw [startsEscape_cons, beq_false_of_ne hslash]
    rfl
  refine ⟨fun v hv hident => ?_, fun v hv h => ?_⟩
  · obtain ⟨w, rfl, -⟩ := hv.exists_of_cons hspace
    rw [startsIdent_cons, if_neg hminus, hstart, hescape] at hident
    cases hident
  · obtain ⟨w, rfl, -⟩ := hv.exists_of_cons hspace
    cases (hescape w).symm.trans h

theorem settled_of_startsIdent {c : Char} {cs : List Char} (h : startsIdent (c :: cs) = true) :
    Settled (c :: cs) where
  ident _ _ _ := h
  escape v hv hescape := by
    obtain ⟨w, rfl, -⟩ := hv.exists_of_cons (isSpace_of_startsIdent h)
    obtain rfl := startsEscape_iff hescape
    rwa [startsIdent_cons, if_neg (by decide)] at h

theorem settled_of_numeral {c : Char} {cs : List Char} (h : takeNumeral (c :: cs) ≠ []) :
    Settled (c :: cs) := by
  have hspace : isSpace c = false := not_isSpace (isBlank_of_quantity h)
  refine ⟨fun v hv hident => ?_, fun v hv hescape => ?_⟩
  · obtain ⟨w, rfl, -⟩ := hv.exists_of_cons hspace
    cases (scan_of_numeral (hv.takeNumeral ▸ h)).1.symm.trans hident
  · obtain ⟨w, rfl, -⟩ := hv.exists_of_cons hspace
    obtain rfl := startsEscape_iff hescape
    exact absurd rfl h

/-! ## Words -/

section

variable {u v : List Char} {c : Char} (h : Padded u v)

include h

/-- A name that begins one of the texts begins the other, and the same stands behind it. -/
theorem Padded.scan_word {l : Lexeme} (hscan : (scan c u).lexemes = [l]) (hl : l.isWord = true)
    (hfirm : ∀ d ∈ (Css.takeName (c :: u)).1, IsFirm d)
    (hnext : Settled ((c :: u).drop (Css.takeName (c :: u)).2)) :
    scan c u = scanIdent (c :: u) ∧ scan c v = scanIdent (c :: v) ∧
      (Css.takeName (c :: v)).1 = (Css.takeName (c :: u)).1 ∧
      Padded ((c :: u).drop (Css.takeName (c :: u)).2) ((c :: v).drop (Css.takeName (c :: v)).2) ∧
      0 < (Css.takeName (c :: u)).2 ∧ 0 < (Css.takeName (c :: v)).2 := by
  obtain ⟨hrange, harrow, hident⟩ := scan_of_isWord hscan hl
  have hspace := isSpace_of_startsIdent hident
  have hcons : Padded (c :: u) (c :: v) := .cons c h
  have hident' := hcons.startsIdent hident hfirm
  obtain ⟨hname, hrest⟩ := hcons.takeName hfirm hnext
  refine ⟨scan_of_startsIdent hspace hrange harrow hident,
    scan_of_startsIdent hspace ?_ ?_ hident', hname, hrest, takeName_pos hident,
      takeName_pos hident'⟩
  · rw [← h.startsRange c, hrange]
  · rwa [Ne, h.arrow c]

omit h in
theorem scanFunction_ne (name name' : List Char) (n more : Nat) (cs : List Char) :
    scanFunction name n cs ≠ .one (.ident name') more := by
  unfold scanFunction
  dsimp only
  split
  · split <;> exact nofun
  · exact nofun

omit h in
theorem drop_pred {n : Nat} (hn : 0 < n) (d : Char) (cs : List Char) :
    (d :: cs).drop n = cs.drop (n - 1) := by
  obtain ⟨m, rfl⟩ := Nat.exists_eq_succ_of_ne_zero hn.ne'
  rfl

theorem Padded.scan_ident {name : List Char} {more : Nat}
    (hscan : scan c u = .one (.ident name) more)
    (hfirm : ∀ d ∈ name, IsFirm d) (hnext : Settled (u.drop more)) :
    ∃ more', scan c v = .one (.ident name) more' ∧ Padded (u.drop more) (v.drop more') := by
  have hreads := scan_reads c u
  rw [hscan] at hreads
  generalize hscanned : Scan.one (.ident name) more = scanned at hreads
  cases hreads with
  | ident hident =>
      cases hscanned
      rw [← drop_pred (takeName_pos hident) c] at hnext ⊢
      obtain ⟨hu, hv, hname, hrest, -, hpos⟩ :=
        h.scan_word (congrArg Scan.lexemes hscan) rfl hfirm hnext
      have hopen : ((c :: u).drop (Css.takeName (c :: u)).2).head? ≠ some '(' := by
        intro hopen
        obtain ⟨rest, hrest⟩ := List.head?_eq_some_iff.mp hopen
        rw [hscan, scanIdent_function hrest] at hu
        exact scanFunction_ne _ _ _ _ _ hu.symm
      refine ⟨(Css.takeName (c :: v)).2 - 1, ?_, ?_⟩
      · rw [hv, scanIdent_name (by rwa [Ne, ← hrest.head?_eq (by decide)]), hname]
      · rwa [← drop_pred hpos c]
  | _ => cases hscanned

theorem Padded.scan_openFunction {name : List Char} {more : Nat}
    (hscan : scan c u = ⟨[.openFunction name], more⟩) (hfirm : ∀ d ∈ name, IsFirm d)
    (hurl : Text.asciiLower name ≠ "url".toList) :
    ∃ more', scan c v = ⟨[.openFunction name], more'⟩ ∧ Padded (u.drop more) (v.drop more') := by
  obtain ⟨-, rfl, hrest⟩ := openFunction_of_scan hscan
  have hnext : Settled ((c :: u).drop (Css.takeName (c :: u)).2) :=
    hrest ▸ settled_of_isMark (by decide) _
  obtain ⟨hu, hv, hname, hbehind, -, hpos⟩ :=
    h.scan_word (congrArg Scan.lexemes hscan) rfl hfirm hnext
  rw [hrest] at hbehind
  obtain ⟨rest, hrest', hpadded⟩ := hbehind.exists_of_cons (by decide)
  refine ⟨(Css.takeName (c :: v)).2, ?_, ?_⟩
  · rw [hv, scanIdent_function hrest', hname, scanFunction_eq, decide_eq_false hurl]
    rfl
  · have hafter := congrArg (List.drop 1) hrest'
    rw [List.drop_drop, List.drop_succ_cons] at hafter
    rw [hafter]
    exact hpadded

end

end TokenCatalog.Css
