import TokenCatalog.Proofs.Text.Search

/-!
# Single spaces

Collapsing a trimmed text, seen character by character: every run of blanks becomes one space, and
what is not blank stays. Main statements:

* `squeeze` and `collapse_eq_squeeze`: it is what collapsing does to a trimmed text;
* `squeeze_append_cons` and `exists_of_squeeze_eq`: a text can be cut at any character that is not
  blank, before and after;
* `strip_collapse` and `collapse_collapse`: a collapsed text is trimmed and collapsed.
-/

namespace TokenCatalog.Text

/-- The text with one space for each run of blanks. The last blank of a run becomes the space. -/
def squeeze : List Char → List Char
  | [] => []
  | c :: cs =>
    if isBlank c then if cs.head?.any isBlank then squeeze cs else ' ' :: squeeze cs
    else c :: squeeze cs

def Firm (cs : List Char) : Prop :=
  ∀ c ∈ cs.head?, isBlank c = false

theorem firm_nil : Firm [] :=
  nofun

theorem firm_cons {c : Char} {cs : List Char} : Firm (c :: cs) ↔ isBlank c = false := by
  simp [Firm]

theorem Firm.any_head? {cs : List Char} (h : Firm cs) : cs.head?.any isBlank = false := by
  cases cs with
  | nil => rfl
  | cons c cs => exact firm_cons.mp h

/-! ## Cutting -/

theorem squeeze_cons {c : Char} (h : isBlank c = false) (cs : List Char) :
    squeeze (c :: cs) = c :: squeeze cs := by
  rw [squeeze, h]
  rfl

theorem squeeze_append {xs : List Char} (h : ∀ c ∈ xs, isBlank c = false) (ys : List Char) :
    squeeze (xs ++ ys) = xs ++ squeeze ys := by
  induction xs with
  | nil => rfl
  | cons c xs ih =>
      rw [List.forall_mem_cons] at h
      rw [List.cons_append, squeeze_cons h.1, ih h.2]
      rfl

theorem squeeze_of_forall {cs : List Char} (h : ∀ c ∈ cs, isBlank c = false) : squeeze cs = cs := by
  have happend := squeeze_append h []
  rwa [squeeze, List.append_nil] at happend

/-- The last blank of a run becomes a space. -/
theorem squeeze_blank {c : Char} {rest : List Char} (hc : isBlank c = true) (hrest : Firm rest) :
    squeeze (c :: rest) = ' ' :: squeeze rest := by
  rw [squeeze, hc, hrest.any_head?]
  rfl

/-- A run of blanks becomes one space. -/
theorem squeeze_run {c : Char} {blanks rest : List Char} (hc : isBlank c = true)
    (h : ∀ d ∈ blanks, isBlank d = true) (hrest : Firm rest) :
    squeeze (c :: (blanks ++ rest)) = ' ' :: squeeze rest := by
  induction blanks generalizing c with
  | nil => exact squeeze_blank hc hrest
  | cons d blanks ih =>
      rw [List.forall_mem_cons] at h
      rw [List.cons_append, squeeze, hc, List.head?_cons, Option.any_some, h.1, ih h.1 h.2]
      rfl

/-- Blanks at the front of a text become a space. -/
theorem squeeze_of_blank {c : Char} (h : isBlank c = true) (cs : List Char) :
    ∃ rest, squeeze (c :: cs) = ' ' :: squeeze rest ∧ rest <:+ cs ∧ Firm rest := by
  have hfirm : Firm (cs.dropWhile isBlank) := by
    intro d hd
    have hnot := List.head?_dropWhile_not isBlank cs
    rw [Option.mem_def.mp hd] at hnot
    simpa using hnot
  have hblanks : ∀ d ∈ cs.takeWhile isBlank, isBlank d = true := fun d hd =>
    List.mem_takeWhile_imp hd
  have hrun := squeeze_run h hblanks hfirm
  rw [List.takeWhile_append_dropWhile] at hrun
  exact ⟨_, hrun, List.dropWhile_suffix isBlank, hfirm⟩

theorem squeeze_append_cons {c : Char} (h : isBlank c = false) (xs ys : List Char) :
    squeeze (xs ++ c :: ys) = squeeze xs ++ c :: squeeze ys := by
  induction xs with
  | nil => exact squeeze_cons h ys
  | cons d xs ih =>
      have hhead : (xs ++ c :: ys).head?.any isBlank = xs.head?.any isBlank := by
        cases xs with
        | nil => exact h
        | cons e xs => rfl
      rw [List.cons_append, squeeze, squeeze, hhead, ih]
      split
      · split <;> rfl
      · rfl

/-- Where a squeezed text has a character that is not blank, the text has it too. -/
theorem exists_of_squeeze_eq {c : Char} (hc : isBlank c = false) {cs xs ys : List Char}
    (h : squeeze cs = xs ++ c :: ys) :
    ∃ us vs, cs = us ++ c :: vs ∧ squeeze us = xs ∧ squeeze vs = ys := by
  induction cs generalizing xs with
  | nil =>
      rw [squeeze] at h
      cases xs <;> cases h
  | cons d cs ih =>
      rw [squeeze] at h
      split at h
      · next hd =>
          have hspace : isBlank ' ' = true := by decide
          split at h
          · next hnext =>
              obtain ⟨us, vs, rfl, rfl, rfl⟩ := ih h
              -- the run of blanks goes on in the part before the character
              have hus : us.head?.any isBlank = true := by
                cases us with
                | nil =>
                    rw [List.nil_append, List.head?_cons, Option.any_some, hc] at hnext
                    cases hnext
                | cons e us => exact hnext
              refine ⟨d :: us, vs, rfl, ?_, rfl⟩
              rw [squeeze, hd, hus]
              rfl
          · next hnext =>
              cases xs with
              | nil =>
                  rw [← (List.cons.inj h).1, hspace] at hc
                  cases hc
              | cons x xs =>
                  obtain ⟨rfl, htail⟩ := List.cons.inj h
                  obtain ⟨us, vs, rfl, rfl, rfl⟩ := ih htail
                  have hus : us.head?.any isBlank = false := by
                    cases us with
                    | nil => rfl
                    | cons e us => exact Bool.eq_false_iff.mpr hnext
                  refine ⟨d :: us, vs, rfl, ?_, rfl⟩
                  rw [squeeze, hd, hus]
                  rfl
      · next hd =>
          cases xs with
          | nil =>
              obtain ⟨rfl, rfl⟩ := List.cons.inj h
              exact ⟨[], cs, rfl, rfl, rfl⟩
          | cons x xs =>
              obtain ⟨rfl, htail⟩ := List.cons.inj h
              obtain ⟨us, vs, rfl, rfl, rfl⟩ := ih htail
              exact ⟨d :: us, vs, rfl, squeeze_cons (Bool.eq_false_iff.mpr hd) us, rfl⟩

theorem squeeze_eq_nil {cs : List Char} (h : squeeze cs = []) : cs = [] := by
  cases cs with
  | nil => rfl
  | cons c cs =>
      cases hc : isBlank c with
      | true =>
          obtain ⟨rest, hrest, -⟩ := squeeze_of_blank hc cs
          cases hrest.symm.trans h
      | false => cases (squeeze_cons hc cs).symm.trans h

/-- A squeezed text begins with a piece without blanks only where the text does. -/
theorem exists_of_squeeze_append {word : List Char} (hword : word.any isBlank = false)
    {cs ys : List Char} (h : squeeze cs = word ++ ys) :
    ∃ zs, cs = word ++ zs ∧ squeeze zs = ys := by
  induction word generalizing cs with
  | nil => exact ⟨cs, rfl, h⟩
  | cons c word ih =>
      rw [List.any_cons, Bool.or_eq_false_iff] at hword
      have hfront : squeeze cs = [] ++ c :: (word ++ ys) := h
      obtain ⟨us, vs, rfl, hus, hvs⟩ := exists_of_squeeze_eq hword.1 hfront
      obtain ⟨zs, rfl, hzs⟩ := ih hword.2 hvs
      rw [squeeze_eq_nil hus]
      exact ⟨zs, rfl, hzs⟩

/-- What is not blank stays. -/
theorem mem_squeeze {c : Char} (hc : isBlank c = false) {cs : List Char} :
    c ∈ squeeze cs ↔ c ∈ cs := by
  constructor
  · intro h
    obtain ⟨xs, ys, heq⟩ := List.append_of_mem h
    obtain ⟨us, vs, rfl, -, -⟩ := exists_of_squeeze_eq hc heq
    simp
  · intro h
    obtain ⟨xs, ys, rfl⟩ := List.append_of_mem h
    rw [squeeze_append_cons hc]
    simp

/-- Where there is a blank, there is a space once the text is squeezed. -/
theorem space_mem_squeeze {c : Char} {cs : List Char} (h : c ∈ cs) (hc : isBlank c = true) :
    ' ' ∈ squeeze cs := by
  induction cs with
  | nil => cases h
  | cons d cs ih =>
      cases hd : isBlank d with
      | true =>
          obtain ⟨rest, hrest, -⟩ := squeeze_of_blank hd cs
          rw [hrest]
          exact List.mem_cons_self
      | false =>
          rw [squeeze_cons hd]
          refine List.mem_cons_of_mem d (ih ((List.mem_cons.mp h).resolve_left ?_))
          rintro rfl
          cases hd.symm.trans hc

/-- The only blank of a squeezed text is the space. -/
theorem eq_space_of_mem_squeeze {c : Char} {cs : List Char} (h : c ∈ squeeze cs)
    (hc : isBlank c = true) : c = ' ' := by
  induction cs with
  | nil => cases h
  | cons d cs ih =>
      rw [squeeze] at h
      split at h
      · split at h
        · exact ih h
        · exact (List.mem_cons.mp h).elim id ih
      · next hd =>
          rcases List.mem_cons.mp h with rfl | h
          · exact absurd hc hd
          · exact ih h

theorem any_head?_squeeze (cs : List Char) :
    (squeeze cs).head?.any isBlank = cs.head?.any isBlank := by
  cases cs with
  | nil => rfl
  | cons c cs =>
      cases hc : isBlank c with
      | true =>
          obtain ⟨rest, hrest, -⟩ := squeeze_of_blank hc cs
          rw [hrest, List.head?_cons, Option.any_some, List.head?_cons, Option.any_some, hc]
          rfl
      | false => rw [squeeze_cons hc, List.head?_cons, List.head?_cons]

theorem squeeze_squeeze (cs : List Char) : squeeze (squeeze cs) = squeeze cs := by
  induction cs with
  | nil => rfl
  | cons c cs ih =>
      rw [squeeze]
      split
      · split
        · exact ih
        · next hnext =>
            have hspace : isBlank ' ' = true := by decide
            rw [squeeze, hspace, any_head?_squeeze, Bool.eq_false_iff.mpr hnext, ih]
            rfl
      · next hc => rw [squeeze_cons (Bool.eq_false_iff.mpr hc), ih]

/-! ## Trimmed texts -/

/-- A trimmed text does not begin with a blank. -/
theorem firm_strip (cs : List Char) : Firm (strip cs) := by
  intro c hc
  obtain ⟨rest, hrest⟩ := List.head?_eq_some_iff.mp hc
  refine Bool.eq_false_iff.mpr fun hblank => ?_
  -- a blank in front would be trimmed off
  have hagain := strip_strip cs
  have hfront : strip ([c] ++ rest) = strip rest :=
    strip_append_of_blank (by simpa using hblank) rest
  rw [hrest] at hagain
  have hlength := (strip_isInfix rest).length_le
  rw [← hfront, List.singleton_append, hagain, List.length_cons] at hlength
  omega

theorem strip_of_ends {cs : List Char} (hfirst : Firm cs)
    (hlast : ∀ c ∈ cs.getLast?, isBlank c = false) : strip cs = cs := by
  have hkeep : ∀ xs : List Char, Firm xs → xs.dropWhile isBlank = xs := by
    intro xs hxs
    cases xs with
    | nil => rfl
    | cons c xs => exact List.dropWhile_cons_of_neg (by rw [firm_cons.mp hxs]; decide)
  have hback : Firm cs.reverse := by rwa [Firm, List.head?_reverse]
  rw [strip, stripBy, hkeep cs hfirst, dropRightWhile, hkeep _ hback, List.reverse_reverse]

theorem strip_squeeze {cs : List Char} (h : strip cs = cs) : strip (squeeze cs) = squeeze cs := by
  refine strip_of_ends ?_ ?_
  · have hfirst : Firm cs := h ▸ firm_strip cs
    cases cs with
    | nil => exact firm_nil
    | cons c cs =>
        rw [squeeze_cons (firm_cons.mp hfirst)]
        exact firm_cons.mpr (firm_cons.mp hfirst)
  · intro c hc
    cases hlast : cs.getLast? with
    | none =>
        rw [List.getLast?_eq_none_iff.mp hlast] at hc
        cases hc
    | some d =>
        have hd : isBlank d = false := by
          rw [← h] at hlast
          exact not_isBlank_of_getLast?_strip hlast
        obtain ⟨front, rfl⟩ := List.getLast?_eq_some_iff.mp hlast
        rw [squeeze_append_cons hd, squeeze, List.getLast?_concat] at hc
        cases hc
        exact hd

/-! ## Collapsing -/

theorem exists_pieces (p : Char → Bool) (cs : List Char) : ∃ w ws, pieces p cs = w :: ws := by
  cases cs with
  | nil => exact ⟨[], [], rfl⟩
  | cons c cs =>
      rw [pieces]
      split
      · exact ⟨_, _, rfl⟩
      · split <;> exact ⟨_, _, rfl⟩

theorem words_cons_blank {c : Char} (h : isBlank c = true) (cs : List Char) :
    words (c :: cs) = words cs := by
  rw [words, pieces, if_pos h, List.filter_cons_of_neg (by decide)]
  rfl

theorem words_cons {c : Char} (hc : isBlank c = false) {cs w : List Char} {ws : List (List Char)}
    (h : pieces isBlank cs = w :: ws) : words (c :: cs) = (c :: w) :: ws.filter (!·.isEmpty) := by
  rw [words, pieces, if_neg (by rw [hc]; decide), h]
  exact List.filter_cons_of_pos rfl

theorem words_ne_nil {c : Char} (hc : isBlank c = false) {cs : List Char} (h : c ∈ cs) :
    words cs ≠ [] := by
  induction cs with
  | nil => cases h
  | cons d cs ih =>
      cases hd : isBlank d with
      | true =>
          rw [words_cons_blank hd]
          refine ih ((List.mem_cons.mp h).resolve_left ?_)
          rintro rfl
          cases hc.symm.trans hd
      | false =>
          obtain ⟨w, ws, hpieces⟩ := exists_pieces isBlank cs
          rw [words_cons hd hpieces]
          exact List.cons_ne_nil _ _

theorem joinWith_cons_cons (separator : List Char) (c : Char) (w : List Char)
    (ws : List (List Char)) :
    joinWith separator ((c :: w) :: ws) = c :: joinWith separator (w :: ws) := by
  cases ws <;> rfl

theorem joinWith_cons (separator part : List Char) {parts : List (List Char)} (h : parts ≠ []) :
    joinWith separator (part :: parts) = part ++ (separator ++ joinWith separator parts) := by
  cases parts with
  | nil => exact absurd rfl h
  | cons part' parts => rfl

theorem exists_append_joinWith (separator part : List Char) (parts : List (List Char)) :
    ∃ more, joinWith separator (part :: parts) = part ++ more := by
  cases parts with
  | nil => exact ⟨[], by simp [joinWith]⟩
  | cons part' parts => exact ⟨_, rfl⟩

theorem forall_mem_joinWith {P : Char → Prop} {separator : List Char} (hsep : ∀ c ∈ separator, P c)
    {parts : List (List Char)} (h : ∀ part ∈ parts, ∀ c ∈ part, P c) :
    ∀ c ∈ joinWith separator parts, P c := by
  induction parts with
  | nil => exact nofun
  | cons part parts ih =>
      rw [List.forall_mem_cons] at h
      cases parts with
      | nil => simpa [joinWith] using h.1
      | cons part' parts =>
          rw [joinWith_cons _ _ (List.cons_ne_nil _ _)]
          simp only [List.forall_mem_append]
          exact ⟨h.1, hsep, ih h.2⟩

theorem exists_joinWith_append {separator : List Char} {parts : List (List Char)} {last : List Char}
    (h : parts.getLast? = some last) : ∃ before, joinWith separator parts = before ++ last := by
  induction parts with
  | nil => cases h
  | cons part parts ih =>
      cases parts with
      | nil =>
          cases h
          exact ⟨[], by simp [joinWith]⟩
      | cons part' parts =>
          rw [List.getLast?_cons_cons] at h
          obtain ⟨before, hbefore⟩ := ih h
          refine ⟨part ++ (separator ++ before), ?_⟩
          rw [joinWith_cons _ _ (List.cons_ne_nil _ _), hbefore, List.append_assoc,
            List.append_assoc]

/-- One more character in front of a text: it begins a word of its own where a blank follows. -/
theorem collapse_cons {c : Char} (hc : isBlank c = false) {cs : List Char}
    (hcs : cs.head?.any isBlank = true → words cs ≠ []) :
    collapse (c :: cs) = c :: ((if cs.head?.any isBlank then [' '] else []) ++ collapse cs) := by
  cases cs with
  | nil =>
      have hnone : pieces isBlank [] = [] :: [] := rfl
      rw [collapse, words_cons hc hnone]
      rfl
  | cons d cs =>
      obtain ⟨w, ws, hpieces⟩ := exists_pieces isBlank cs
      rw [List.head?_cons, Option.any_some] at hcs ⊢
      cases hd : isBlank d with
      | true =>
          have hwords : words (c :: d :: cs) = [c] :: words (d :: cs) := by
            have hrow : pieces isBlank (d :: cs) = [] :: (w :: ws) := by
              rw [pieces, if_pos hd, hpieces]
            rw [words_cons hc hrow, words_cons_blank hd, words, hpieces]
          rw [collapse, collapse, hwords]
          cases hrest : words (d :: cs) with
          | nil => exact absurd hrest (hcs hd)
          | cons next later => rfl
      | false =>
          have hrow : pieces isBlank (d :: cs) = (d :: w) :: ws := by
            rw [pieces, if_neg (by rw [hd]; decide), hpieces]
          rw [collapse, collapse, words_cons hc hrow, words_cons hd hpieces, joinWith_cons_cons]
          rfl

/-- **Collapsing squeezes the blanks** of a text that does not end in one. -/
theorem squeeze_eq {cs : List Char} (h : ∀ c ∈ cs.getLast?, isBlank c = false) :
    squeeze cs = (if cs.head?.any isBlank then [' '] else []) ++ collapse cs := by
  induction cs with
  | nil => rfl
  | cons c cs ih =>
      cases cs with
      | nil =>
          have hc : isBlank c = false := h c rfl
          rw [squeeze_cons hc, collapse_cons hc fun hnil => (by cases hnil), List.head?_cons,
            Option.any_some, hc]
          rfl
      | cons d cs =>
          rw [List.getLast?_cons_cons] at h
          specialize ih h
          cases hc : isBlank c with
          | true =>
              rw [squeeze, hc, collapse, words_cons_blank hc, ← collapse, ih]
              cases (d :: cs).head?.any isBlank <;> simp [hc]
          | false =>
              obtain ⟨last, hlast⟩ : ∃ last, (d :: cs).getLast? = some last :=
                ⟨_, List.getLast?_eq_some_getLast (List.cons_ne_nil _ _)⟩
              have hwords : words (d :: cs) ≠ [] :=
                words_ne_nil (h last hlast) (List.mem_of_getLast? hlast)
              rw [squeeze_cons hc, collapse_cons hc fun _ => hwords, ih]
              simp [hc]

/-- **Collapsing a trimmed text squeezes its blanks.** -/
theorem collapse_eq_squeeze {cs : List Char} (h : strip cs = cs) : collapse cs = squeeze cs := by
  have hlast : ∀ c ∈ cs.getLast?, isBlank c = false := by
    intro c hc
    rw [← h] at hc
    exact not_isBlank_of_getLast?_strip hc
  have hfirst : Firm cs := h ▸ firm_strip cs
  rw [squeeze_eq hlast, hfirst.any_head?]
  rfl

theorem strip_collapse {cs : List Char} (h : strip cs = cs) :
    strip (collapse cs) = collapse cs := by
  rw [collapse_eq_squeeze h, strip_squeeze h]

theorem collapse_collapse {cs : List Char} (h : strip cs = cs) :
    collapse (collapse cs) = collapse cs := by
  rw [collapse_eq_squeeze (strip_collapse h), collapse_eq_squeeze h, squeeze_squeeze]

end TokenCatalog.Text
