import TokenCatalog.Proofs.Text.Pieces
import TokenCatalog.Proofs.Text.Search
import TokenCatalog.Stylesheet.Marker

/-!
# The words of an annotation

An annotation gives a label behind the opening word and a name behind the presenter's. Blanks around
them are not read, and neither of them can be taken for anything else. Main statements:

* `presenter?_presenterWord`: the name is what stands behind the presenter's word;
* `readMarker_oneLine` and `readMarker_ownLines`: with both words, on one line or on a line each, a
  comment opens the scope of the label and the name;
* `readMarker_label` and `readMarker_name`: with the opening word alone it opens a scope without a
  presenter, with the presenter's word alone it marks nothing.
-/

namespace TokenCatalog.Stylesheet

open TokenCatalog.Text (isBlank isWordOrHyphen OnLine Firm EndsFirm strip dropRightWhile)

/-! ## Labels and names -/

def IsGap (cs : List Char) : Prop :=
  ∀ c ∈ cs, isBlank c = true ∧ Text.isLineBreak c = false

/-- What can be given as a category. -/
structure IsLabel (label : List Char) : Prop where
  onLine : OnLine label
  unmarked : '@' ∉ label
  unstarred : '*' ∉ label

/-- What can be given as a presenter. -/
structure IsName (name : List Char) : Prop where
  ne_nil : name ≠ []
  word : ∀ c ∈ name, isWordOrHyphen c = true

instance (cs : List Char) : Decidable (IsGap cs) :=
  List.decidableBAll (fun c => isBlank c = true ∧ Text.isLineBreak c = false) cs

instance (label : List Char) : Decidable (IsLabel label) :=
  decidable_of_iff (OnLine label ∧ '@' ∉ label ∧ '*' ∉ label)
    ⟨fun ⟨honLine, hunmarked, hunstarred⟩ => ⟨honLine, hunmarked, hunstarred⟩,
      fun h => ⟨h.onLine, h.unmarked, h.unstarred⟩⟩

instance (name : List Char) : Decidable (IsName name) :=
  decidable_of_iff (name ≠ [] ∧ name.all isWordOrHyphen = true)
    ⟨fun ⟨hne, hword⟩ => ⟨hne, List.all_eq_true.mp hword⟩,
      fun h => ⟨h.ne_nil, List.all_eq_true.mpr h.word⟩⟩

inductive GivesLabel (label : List Char) : List Char → Prop
  | intro {gap gap' : List Char} (hgap : IsGap gap) (hne : gap ≠ []) (hgap' : IsGap gap') :
      GivesLabel label (openWord ++ (gap ++ (label ++ gap')))

inductive GivesName (name : List Char) : List Char → Prop
  | intro {gap gap' : List Char} (hgap : ∀ c ∈ gap, isInlineBlank c = true) (hne : gap ≠ [])
      (hgap' : IsGap gap') : GivesName name (presenterWord ++ (gap ++ (name ++ gap')))

theorem isWordOrHyphen_of_isBlank {c : Char} (h : isBlank c = true) : isWordOrHyphen c = false := by
  have hblanks : ∀ r ∈ Text.blankRanges, ∀ n ∈ List.range' r.1 (r.2 + 1 - r.1),
      isWordOrHyphen (Char.ofNat n) = false := by decide +kernel
  obtain ⟨r, hr, hc⟩ := List.any_eq_true.mp h
  rw [Bool.and_eq_true, decide_eq_true_eq, decide_eq_true_eq] at hc
  have hc := hblanks r hr c.toNat (List.mem_range'_1.mpr (by omega))
  rwa [Char.ofNat_toNat] at hc

theorem IsGap.onLine {gap : List Char} (h : IsGap gap) : OnLine gap :=
  fun c hc => (h c hc).2

theorem IsGap.isBlank {gap : List Char} (h : IsGap gap) : ∀ c ∈ gap, Text.isBlank c = true :=
  fun c hc => (h c hc).1

theorem isGap_of_inline {gap : List Char} (h : ∀ c ∈ gap, isInlineBlank c = true) : IsGap gap := by
  intro c hc
  have hc := h c hc
  rw [isInlineBlank, Bool.or_eq_true, beq_iff_eq, beq_iff_eq] at hc
  rcases hc with rfl | rfl <;> decide

theorem IsGap.not_mem {gap : List Char} (h : IsGap gap) {c : Char} (hc : Text.isBlank c = false) :
    c ∉ gap := by
  intro hmem
  rw [h.isBlank c hmem] at hc
  cases hc

theorem IsName.not_mem {name : List Char} (h : IsName name) {c : Char}
    (hc : isWordOrHyphen c = false) :
    c ∉ name := by
  intro hmem
  rw [h.word c hmem] at hc
  cases hc

theorem IsName.not_isBlank {name : List Char} (h : IsName name) {c : Char} (hc : c ∈ name) :
    Text.isBlank c = false :=
  Bool.eq_false_iff.mpr fun hblank => h.not_mem (isWordOrHyphen_of_isBlank hblank) hc

theorem IsName.endsFirm {name : List Char} (h : IsName name) : EndsFirm name :=
  fun _ hc => h.not_isBlank (List.mem_of_getLast? hc)

theorem IsName.onLine {name : List Char} (h : IsName name) : OnLine name :=
  Text.onLine_of_blanks fun c hc hblank => absurd hblank (by rw [h.not_isBlank hc]; decide)

/-! ## Searching -/

theorem openWord_eq : openWord = '@' :: "tokens".toList := by decide

theorem presenterWord_eq : presenterWord = '@' :: "presenter".toList := by decide

/-- No word that begins with a character is in what does not hold that character. -/
theorem occursIn_append {c : Char} {word xs : List Char} (h : c ∉ xs) (ys : List Char) :
    Text.occursIn (c :: word) (xs ++ ys) = Text.occursIn (c :: word) ys := by
  induction xs with
  | nil => rfl
  | cons d xs ih =>
      obtain ⟨hd, hxs⟩ := not_or.mp (List.mem_cons.not.mp h)
      have hhere : (c :: word).isPrefixOf (d :: (xs ++ ys)) = false := by
        rw [List.isPrefixOf_cons_cons, beq_eq_false_iff_ne.mpr hd, Bool.false_and]
      rw [List.cons_append, Text.occursIn, hhere, Bool.false_or, ih hxs]

theorem presenter?_of_not_here {c : Char} {cs : List Char} (h : presenterHere? (c :: cs) = none) :
    presenter? (c :: cs) = presenter? cs := by
  rw [presenter?, h]

theorem presenter?_of_here {cs name : List Char} (h : presenterHere? cs = some name) :
    presenter? cs = some name := by
  cases cs with
  | nil => cases h
  | cons c cs => rw [presenter?, h]

theorem presenter?_append {xs : List Char} (h : '@' ∉ xs) (ys : List Char) :
    presenter? (xs ++ ys) = presenter? ys := by
  induction xs with
  | nil => rfl
  | cons c xs ih =>
      obtain ⟨hc, hxs⟩ := not_or.mp (List.mem_cons.not.mp h)
      have hhere : presenterHere? (c :: (xs ++ ys)) = none := by
        rw [presenterHere?, presenterWord_eq, Text.after?, if_neg hc]
        rfl
      rw [List.cons_append, presenter?_of_not_here hhere, ih hxs]

/-- Neither of the two words begins what begins with the other. -/
theorem openWord_ne_presenterWord (xs ys : List Char) : openWord ++ xs ≠ presenterWord ++ ys := by
  intro h
  have hfront := congrArg (List.take 7) h
  rw [List.take_append_of_le_length (by decide), List.take_append_of_le_length (by decide)]
    at hfront
  exact absurd hfront (by decide)

theorem presenter?_openWord (cs : List Char) : presenter? (openWord ++ cs) = presenter? cs := by
  have hafter : Text.after? presenterWord (openWord ++ cs) = none :=
    Option.eq_none_iff_forall_ne_some.mpr fun rest hrest =>
      openWord_ne_presenterWord cs rest (Text.after?_eq_some_iff.mp hrest)
  have hhere : presenterHere? (openWord ++ cs) = none := by
    rw [presenterHere?, hafter]
    rfl
  rw [openWord_eq, List.cons_append] at hhere ⊢
  rw [presenter?_of_not_here hhere, presenter?_append (by decide)]

/-- **The name is what stands behind the presenter's word.** -/
theorem presenter?_presenterWord {gap name : List Char} (hgap : ∀ c ∈ gap, isInlineBlank c = true)
    (hne : gap ≠ []) (hname : IsName name) {tail : List Char}
    (htail : tail.head?.any isWordOrHyphen = false) :
    presenter? (presenterWord ++ (gap ++ (name ++ tail))) = some name := by
  have hfirst : (gap ++ (name ++ tail)).head?.any isInlineBlank = true := by
    obtain ⟨c, gap, rfl⟩ := List.exists_cons_of_ne_nil hne
    exact hgap c List.mem_cons_self
  have hdrop : (name ++ tail).dropWhile isInlineBlank = name ++ tail := by
    obtain ⟨c, name, rfl⟩ := List.exists_cons_of_ne_nil hname.ne_nil
    refine List.dropWhile_cons_of_neg fun hc => ?_
    have hgap : IsGap [c] := isGap_of_inline (by simpa using hc)
    exact hname.not_mem (isWordOrHyphen_of_isBlank (hgap.isBlank c (by simp))) List.mem_cons_self
  have htake : (name ++ tail).takeWhile isWordOrHyphen = name := by
    rw [List.takeWhile_append_of_pos hname.word]
    cases tail with
    | nil => simp
    | cons d tail => rw [List.takeWhile_cons_of_neg (by simpa using htail), List.append_nil]
  refine presenter?_of_here ?_
  rw [presenterHere?, Text.after?_eq_some_iff.mpr rfl]
  show (if ((gap ++ (name ++ tail)).head?.any isInlineBlank && !(((gap ++ (name ++ tail)).dropWhile
    isInlineBlank).takeWhile isWordOrHyphen).isEmpty) then some _ else none) = _
  rw [hfirst, List.dropWhile_append_of_pos hgap, hdrop, htake, if_pos (by simpa using hname.ne_nil)]

/-! ## Lines of a comment -/

/-- What stands behind the opening word of a label: the label, and nothing that could be read as
anything else. -/
structure Labels (label tail : List Char) : Prop where
  unmarked : '@' ∉ tail
  onLine : OnLine tail
  apart : tail.head?.any isWordOrHyphen = false
  strip : strip tail = strip label

theorem Labels.dropRightWhile {label tail : List Char} (h : Labels label tail) :
    Labels label (dropRightWhile isBlank tail) := by
  have hprefix : Text.dropRightWhile isBlank tail <+: tail := List.rdropWhile_prefix isBlank tail
  obtain ⟨gone, hgone⟩ := hprefix
  have hmem : ∀ c ∈ Text.dropRightWhile isBlank tail, c ∈ tail :=
    fun c hc => hgone ▸ List.mem_append_left gone hc
  refine ⟨fun hat => h.unmarked (hmem _ hat), fun c hc => h.onLine c (hmem c hc), ?_, ?_⟩
  · cases hcut : Text.dropRightWhile isBlank tail with
    | nil => rfl
    | cons c more =>
        have hapart := h.apart
        rw [← hgone, hcut] at hapart
        exact hapart
  · rw [Text.strip_dropRightWhile, h.strip]

theorem labels_of_gaps {label gap gap' : List Char} (h : IsLabel label) (hgap : IsGap gap)
    (hne : gap ≠ []) (hgap' : IsGap gap') : Labels label (gap ++ (label ++ gap')) where
  unmarked := by
    simp only [List.mem_append, not_or]
    exact ⟨hgap.not_mem (by decide), h.unmarked, hgap'.not_mem (by decide)⟩
  onLine := hgap.onLine.append (h.onLine.append hgap'.onLine)
  apart := by
    obtain ⟨c, gap, rfl⟩ := List.exists_cons_of_ne_nil hne
    exact isWordOrHyphen_of_isBlank (hgap.isBlank c List.mem_cons_self)
  strip := by
    rw [Text.strip_append_of_blank hgap.isBlank, ← Text.strip_dropRightWhile,
      Text.dropRightWhile_append hgap'.isBlank, Text.strip_dropRightWhile]

theorem GivesLabel.exists_labels {label tokens : List Char} (h : GivesLabel label tokens)
    (hlabel : IsLabel label) : ∃ tail, tokens = openWord ++ tail ∧ Labels label tail := by
  cases h with
  | intro hgap hne hgap' => exact ⟨_, rfl, labels_of_gaps hlabel hgap hne hgap'⟩

theorem firm_openWord (rest : List Char) : Firm (openWord ++ rest) := by
  rw [openWord_eq]
  exact Text.firm_cons.mpr (by decide)

theorem firm_presenterWord (rest : List Char) : Firm (presenterWord ++ rest) := by
  rw [presenterWord_eq]
  exact Text.firm_cons.mpr (by decide)

theorem endsFirm_openWord : EndsFirm openWord := by
  have hlast : openWord.getLast? = some 's' := by decide
  intro c hc
  rw [hlast] at hc
  cases hc
  decide

theorem strip_openWord (tail : List Char) :
    strip (openWord ++ tail) = openWord ++ dropRightWhile isBlank tail :=
  Text.strip_append (firm_openWord []) endsFirm_openWord (by decide) tail

/-- Behind a name blanks are trimmed. -/
theorem strip_name {xs name gap : List Char} (hfirst : Firm (xs ++ name)) (hname : IsName name)
    (hgap : IsGap gap) : strip (xs ++ (name ++ gap)) = xs ++ name := by
  have hgone : dropRightWhile isBlank gap = [] := Text.dropRightWhile_append hgap.isBlank []
  rw [← List.append_assoc, Text.strip_append hfirst (hname.endsFirm.append hname.ne_nil xs)
    (by simp [hname.ne_nil]), hgone, List.append_nil]

theorem Labels.apart_append {label tail : List Char} (h : Labels label tail) {rest : List Char}
    (hrest : rest.head?.any isWordOrHyphen = false) :
    (tail ++ rest).head?.any isWordOrHyphen = false := by
  cases tail with
  | nil => exact hrest
  | cons c tail => exact h.apart

theorem label?_openWord {label tail : List Char} (h : Labels label tail) {rest : List Char}
    (hrest : ∀ c ∈ rest.head?, c = '@') :
    label? (openWord ++ (tail ++ rest)) = some (strip label) := by
  have hapart : (tail ++ rest).head?.any isWordOrHyphen = false := by
    refine h.apart_append ?_
    cases rest with
    | nil => rfl
    | cons c rest =>
        obtain rfl := hrest c rfl
        exact (by decide : isWordOrHyphen '@' = false)
  have hstay : ∀ c ∈ tail, (c != '@' && c != '\n') = true := by
    intro c hc
    have hat : c ≠ '@' := fun heq => h.unmarked (heq ▸ hc)
    have hfeed : c ≠ '\n' := by
      rintro rfl
      exact absurd (h.onLine _ hc) (by decide)
    rw [bne_iff_ne.mpr hat, bne_iff_ne.mpr hfeed, Bool.and_self]
  have htake : (tail ++ rest).takeWhile (fun c => c != '@' && c != '\n') = tail := by
    rw [List.takeWhile_append_of_pos hstay]
    cases rest with
    | nil => simp
    | cons c rest =>
        obtain rfl := hrest c rfl
        rw [List.takeWhile_cons_of_neg (by decide), List.append_nil]
  rw [label?, Text.after?_eq_some_iff.mpr rfl]
  show (if (tail ++ rest).head?.any isWordOrHyphen then none
    else some (strip ((tail ++ rest).takeWhile fun c => c != '@' && c != '\n'))) = _
  rw [if_neg (by rw [hapart]; decide), htake, h.strip]

theorem label?_labels {label tail : List Char} (h : Labels label tail) :
    label? (openWord ++ tail) = some (strip label) := by
  have hfound : label? (openWord ++ (tail ++ [])) = some (strip label) :=
    label?_openWord h (by simp)
  rwa [List.append_nil] at hfound

/-- **A comment with the opening word opens a scope**, if the word is not that which closes one. -/
theorem readMarker_opens {comment label between rest : List Char}
    (hlabel : (plainLines comment).findSome? label? = some label)
    (htext : Text.joinWith ['\n'] (plainLines comment) = openWord ++ (between ++ rest))
    (hbetween : '@' ∉ between) (hapart : (between ++ rest).head?.any isWordOrHyphen = false)
    (hrest : Text.occursIn closeWord rest = false) :
    readMarker comment = some (.opens ⟨nonEmpty? label, (presenter? rest).map String.ofList⟩) := by
  have hclose : closeWord = openWord ++ '-' :: "end".toList := by decide
  have hprefix : ¬ closeWord <+: openWord ++ (between ++ rest) := by
    rw [hclose, List.prefix_append_right_inj]
    rintro ⟨more, hmore⟩
    rw [← hmore] at hapart
    exact absurd hapart (by decide : ¬ isWordOrHyphen '-' = false)
  have hopen : Text.occursIn closeWord (openWord ++ (between ++ rest)) = false := by
    have hword : closeWord = '@' :: "tokens-end".toList := by decide
    rw [hword] at hprefix hrest ⊢
    rw [openWord_eq, List.cons_append] at hprefix ⊢
    rw [Text.occursIn, occursIn_append (by decide), occursIn_append hbetween, hrest, Bool.or_false]
    exact Bool.eq_false_iff.mpr fun h => hprefix (List.isPrefixOf_iff_prefix.mp h)
  rw [readMarker, htext, if_neg (by rw [hopen]; decide), hlabel, Option.map_some,
    presenter?_openWord, presenter?_append hbetween]

/-- A comment without the opening word in front of a line marks nothing, unless it closes a
scope. -/
theorem readMarker_eq_none {comment : List Char}
    (hlabel : (plainLines comment).findSome? label? = none)
    (hclose : Text.occursIn closeWord (Text.joinWith ['\n'] (plainLines comment)) = false) :
    readMarker comment = none := by
  rw [readMarker, if_neg (by rw [hclose]; decide), hlabel]
  rfl

theorem occursIn_presenterWord {rest : List Char} (h : '@' ∉ rest) :
    Text.occursIn closeWord (presenterWord ++ rest) = false := by
  have hword : closeWord = '@' :: "tokens-end".toList := by decide
  have hprefix : ¬ closeWord <+: presenterWord ++ rest := by
    have hclose : closeWord = openWord ++ '-' :: "end".toList := by decide
    rw [hclose]
    rintro ⟨more, hmore⟩
    rw [List.append_assoc] at hmore
    exact openWord_ne_presenterWord _ _ hmore
  rw [hword] at hprefix ⊢
  rw [presenterWord_eq, List.cons_append] at hprefix ⊢
  have hrest : Text.occursIn ('@' :: "tokens-end".toList) (rest ++ []) = false :=
    occursIn_append h []
  rw [List.append_nil] at hrest
  rw [Text.occursIn, occursIn_append (by decide), hrest]
  rw [Bool.eq_false_iff.mpr fun h => hprefix (List.isPrefixOf_iff_prefix.mp h)]
  rfl

theorem label?_presenterWord (rest : List Char) : label? (presenterWord ++ rest) = none := by
  have hafter : Text.after? openWord (presenterWord ++ rest) = none :=
    Option.eq_none_iff_forall_ne_some.mpr fun more hmore =>
      openWord_ne_presenterWord more rest (Text.after?_eq_some_iff.mp hmore).symm
  rw [label?, hafter]
  rfl

theorem any_head?_presenterWord (rest : List Char) :
    (presenterWord ++ rest).head?.any isWordOrHyphen = false := by
  rw [presenterWord_eq]
  exact (by decide : isWordOrHyphen '@' = false)

/-- What stands behind the presenter's word of a name. -/
structure Names (name rest : List Char) : Prop where
  unmarked : '@' ∉ rest
  presenter : presenter? (presenterWord ++ rest) = some name

theorem GivesName.exists_names {name presenter : List Char} (h : GivesName name presenter)
    (hname : IsName name) : ∃ rest, Names name rest ∧
      ∀ xs, Firm (xs ++ presenterWord) →
        strip (xs ++ presenter) = xs ++ (presenterWord ++ rest) := by
  cases h with
  | @intro gap gap' hgap hne hgap' =>
      refine ⟨gap ++ name, ⟨?_, ?_⟩, fun xs hxs => ?_⟩
      · rw [List.mem_append, not_or]
        exact ⟨(isGap_of_inline hgap).not_mem (by decide), hname.not_mem (by decide)⟩
      · have hfound : presenter? (presenterWord ++ (gap ++ (name ++ []))) = some name :=
          presenter?_presenterWord hgap hne hname rfl
        rwa [List.append_nil] at hfound
      · have hfirst : Firm (xs ++ (presenterWord ++ gap) ++ name) := by
          intro c hc
          refine hxs c ?_
          cases xs with
          | nil => exact hc
          | cons d xs => exact hc
        have hstrip := strip_name hfirst hname hgap'
        simpa only [List.append_assoc] using hstrip

theorem GivesName.exists_strip {name presenter : List Char} (h : GivesName name presenter)
    (hname : IsName name) : ∃ rest, Names name rest ∧ strip presenter = presenterWord ++ rest := by
  obtain ⟨rest, hrest, hstrip⟩ := h.exists_names hname
  exact ⟨rest, hrest, hstrip [] (firm_presenterWord [])⟩

section

variable {comment label name tokens presenter : List Char}

/-- A label and a name on one line. -/
theorem readMarker_oneLine (hlabel : IsLabel label) (hname : IsName name)
    (htokens : GivesLabel label tokens) (hpresenter : GivesName name presenter)
    (hlines : plainLines comment = [strip (tokens ++ presenter)]) :
    readMarker comment = some (.opens ⟨nonEmpty? (strip label), some (String.ofList name)⟩) := by
  obtain ⟨tail, rfl, htail⟩ := htokens.exists_labels hlabel
  obtain ⟨rest, hrest, hstrip⟩ := hpresenter.exists_names hname
  rw [hstrip _ (by rw [List.append_assoc]; exact firm_openWord _), List.append_assoc] at hlines
  have hlabeled : (plainLines comment).findSome? label? = some (strip label) := by
    rw [hlines, List.findSome?_cons, label?_openWord htail (by rw [presenterWord_eq]; simp)]
  have htext : Text.joinWith ['\n'] (plainLines comment) =
      openWord ++ (tail ++ (presenterWord ++ rest)) := by
    rw [hlines]
    simp [Text.joinWith]
  have hread := readMarker_opens hlabeled htext htail.unmarked
    (htail.apart_append (any_head?_presenterWord rest)) (occursIn_presenterWord hrest.unmarked)
  rwa [hrest.presenter] at hread

/-- A label and a name on lines of their own. -/
theorem readMarker_ownLines (hlabel : IsLabel label) (hname : IsName name)
    (htokens : GivesLabel label tokens) (hpresenter : GivesName name presenter)
    (hlines : plainLines comment = [strip tokens, strip presenter]) :
    readMarker comment = some (.opens ⟨nonEmpty? (strip label), some (String.ofList name)⟩) := by
  obtain ⟨tail, rfl, htail⟩ := htokens.exists_labels hlabel
  obtain ⟨rest, hrest, hstrip⟩ := hpresenter.exists_strip hname
  rw [hstrip, strip_openWord] at hlines
  have htail := htail.dropRightWhile
  generalize dropRightWhile isBlank tail = tail at hlines htail
  have hlabeled : (plainLines comment).findSome? label? = some (strip label) := by
    rw [hlines, List.findSome?_cons, label?_labels htail]
  have htext : Text.joinWith ['\n'] (plainLines comment) =
      openWord ++ (tail ++ ['\n'] ++ (presenterWord ++ rest)) := by
    rw [hlines]
    simp [Text.joinWith]
  have hbetween : '@' ∉ tail ++ ['\n'] := by simpa using htail.unmarked
  have hapart : (tail ++ (['\n'] ++ (presenterWord ++ rest))).head?.any isWordOrHyphen = false :=
    htail.apart_append (by decide : isWordOrHyphen '\n' = false)
  rw [← List.append_assoc] at hapart
  have hread := readMarker_opens hlabeled htext hbetween hapart
      (occursIn_presenterWord hrest.unmarked)
  rwa [hrest.presenter] at hread

/-- A label alone. -/
theorem readMarker_label (hlabel : IsLabel label) (htokens : GivesLabel label tokens)
    (hlines : plainLines comment = [strip tokens]) :
    readMarker comment = some (.opens ⟨nonEmpty? (strip label), none⟩) := by
  obtain ⟨tail, rfl, htail⟩ := htokens.exists_labels hlabel
  rw [strip_openWord] at hlines
  have htail := htail.dropRightWhile
  generalize dropRightWhile isBlank tail = tail at hlines htail
  have hlabeled : (plainLines comment).findSome? label? = some (strip label) := by
    rw [hlines, List.findSome?_cons, label?_labels htail]
  have htext : Text.joinWith ['\n'] (plainLines comment) = openWord ++ (tail ++ []) := by
    rw [hlines]
    simp [Text.joinWith]
  exact readMarker_opens hlabeled htext htail.unmarked (htail.apart_append rfl) (by decide)

/-- A name alone. -/
theorem readMarker_name (hname : IsName name) (hpresenter : GivesName name presenter)
    (hlines : plainLines comment = [strip presenter]) : readMarker comment = none := by
  obtain ⟨rest, hrest, hstrip⟩ := hpresenter.exists_strip hname
  rw [hstrip] at hlines
  refine readMarker_eq_none ?_ ?_
  · rw [hlines, List.findSome?_cons, label?_presenterWord]
    rfl
  · have htext : Text.joinWith ['\n'] [presenterWord ++ rest] = presenterWord ++ rest := by
      simp [Text.joinWith]
    rw [hlines, htext, occursIn_presenterWord hrest.unmarked]

end

end TokenCatalog.Stylesheet
