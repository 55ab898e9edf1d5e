import Mathlib.Data.List.Forall2
import TokenCatalog.Proofs.Text.Search
import TokenCatalog.Proofs.Value.Recognized

/-!
# Flags at the end of a value

Flags are taken off the end one at a time until none is left, so that what stands before them
decides alone how a value is classified. Main statements:

* `Flag`: an exclamation mark and a word in any letter case, with any blanks around both;
* `beforeAnyFlag?_eq_some_iff`: what one pass takes off is exactly a flag, with the blanks before
  it;
* `stripFlags_append`: flags behind a text do not change what is left of it;
* `not_endsInFlag_stripFlags` and `stripFlags_of_bare`: what is left ends in no flag, and a text
  that does so is left as it is.
-/

namespace TokenCatalog.Value

open Text (isBlank)

/-! ## Words in any letter case -/

/-- Characters spell a word, each letter in either case. -/
def Spells (word cs : List Char) : Prop :=
  List.Forall₂ (fun letter c => isLetterOf letter c = true) word cs

theorem afterLetters?_eq_some_iff {word cs rest : List Char} :
    afterLetters? word cs = some rest ↔ ∃ spelled, Spells word spelled ∧ cs = spelled ++ rest := by
  induction word generalizing cs with
  | nil => simp [afterLetters?, Spells]
  | cons letter word ih =>
      cases cs with
      | nil => simp [afterLetters?, Spells, List.forall₂_cons_left_iff]
      | cons c cs =>
          rw [afterLetters?]
          split
          · next hletter =>
              rw [ih]
              constructor
              · rintro ⟨spelled, hspelled, rfl⟩
                exact ⟨c :: spelled, .cons hletter hspelled, rfl⟩
              · rintro ⟨spelled, hspelled, heq⟩
                obtain ⟨d, ds, -, hds, rfl⟩ := List.forall₂_cons_left_iff.mp hspelled
                exact ⟨ds, hds, (List.cons.inj heq).2⟩
          · next hletter =>
              refine iff_of_false (Option.some_ne_none rest).symm ?_
              rintro ⟨spelled, hspelled, heq⟩
              obtain ⟨d, ds, hd, -, rfl⟩ := List.forall₂_cons_left_iff.mp hspelled
              rw [(List.cons.inj heq).1] at hletter
              exact hletter hd

/-- Every character of a spelled word stands for one of its letters. -/
theorem Spells.exists_letter {word spelled : List Char} (h : Spells word spelled) {c : Char}
    (hc : c ∈ spelled) : ∃ letter ∈ word, isLetterOf letter c = true := by
  unfold Spells at h
  induction h with
  | nil => cases hc
  | cons hhere _ ih =>
      rcases List.mem_cons.mp hc with rfl | hc
      · exact ⟨_, List.mem_cons_self, hhere⟩
      · obtain ⟨letter, hletter, hspelled⟩ := ih hc
        exact ⟨letter, List.mem_cons_of_mem _ hletter, hspelled⟩

/-- The letters of a flag are neither blanks nor exclamation marks. -/
theorem isBlank_of_spells {word : String} (hword : word ∈ flagWords) {spelled : List Char}
    (h : Spells word.toList spelled) : ∀ c ∈ spelled, isBlank c = false ∧ c ≠ '!' := by
  have hletters : ∀ word ∈ flagWords,
      word.toList.any isBlank = false ∧ word.toList.any (isLetterOf · '!') = false := by
    decide
  have hmarks : isBlank '\u0130' = false ∧ isBlank '\u0131' = false := by decide
  intro c hc
  obtain ⟨letter, hletter, hspelled⟩ := h.exists_letter hc
  have hblank := List.any_eq_false.mp (hletters word hword).1 letter hletter
  have hmark := List.any_eq_false.mp (hletters word hword).2 letter hletter
  constructor
  · refine Bool.eq_false_iff.mpr fun hc => ?_
    rw [isLetterOf, Text.toLower_of_isBlank hc] at hspelled
    simp only [Bool.or_eq_true, Bool.and_eq_true, beq_iff_eq] at hspelled
    rcases hspelled with rfl | ⟨-, rfl | rfl⟩
    · exact hblank hc
    · rw [hmarks.1] at hc
      cases hc
    · rw [hmarks.2] at hc
      cases hc
  · rintro rfl
    exact hmark hspelled

/-! ## Flags -/

/-- A flag: an exclamation mark and one of three words in any letter case, with any blanks before,
between and after. -/
structure Flag where
  before : List Char
  between : List Char
  spelled : List Char
  after : List Char
  blank : ∀ c ∈ before ++ between ++ after, isBlank c = true
  isWord : ∃ word ∈ flagWords, Spells word.toList spelled

namespace Flag

variable (f : Flag)

def tail : List Char := f.between ++ f.spelled ++ f.after

/-- The text of a flag. -/
def text : List Char := f.before ++ '!' :: f.tail

theorem blank_before : ∀ c ∈ f.before, isBlank c = true :=
  fun c hc => f.blank c (by simp [hc])

theorem blank_between : ∀ c ∈ f.between, isBlank c = true :=
  fun c hc => f.blank c (by simp [hc])

theorem blank_after : ∀ c ∈ f.after, isBlank c = true :=
  fun c hc => f.blank c (by simp [hc])

theorem spelled_ne_nil : f.spelled ≠ [] := by
  intro hnil
  obtain ⟨word, hword, hspelled⟩ := f.isWord
  rw [hnil, Spells, List.forall₂_nil_right_iff, String.toList_eq_nil_iff] at hspelled
  exact absurd hword (hspelled ▸ by decide)

theorem mark_not_mem_tail : '!' ∉ f.tail := by
  have hmark : isBlank '!' = false := by decide
  obtain ⟨word, hword, hspelled⟩ := f.isWord
  rw [tail, List.mem_append, List.mem_append]
  rintro ((hbetween | hspelled') | hafter)
  · cases hmark.symm.trans (f.blank_between _ hbetween)
  · exact (isBlank_of_spells hword hspelled _ hspelled').2 rfl
  · cases hmark.symm.trans (f.blank_after _ hafter)

end Flag

structure IsBarrier (c : Char) : Prop where
  blank : isBlank c = false
  mark : c ≠ '!'
  letter : ∀ word ∈ flagWords, word.toList.any (isLetterOf · c) = false

theorem IsBarrier.not_mem_text {c : Char} (h : IsBarrier c) (f : Flag) : c ∉ f.text := by
  have hblanks : ∀ {blanks : List Char}, (∀ d ∈ blanks, isBlank d = true) → c ∉ blanks := by
    intro blanks hall hmem
    cases h.blank.symm.trans (hall c hmem)
  have hspelled : c ∉ f.spelled := by
    intro hmem
    obtain ⟨word, hword, hspelled⟩ := f.isWord
    obtain ⟨letter, hletter, hc⟩ := hspelled.exists_letter hmem
    exact List.any_eq_false.mp (h.letter word hword) letter hletter hc
  simp only [Flag.text, Flag.tail, List.mem_append, List.mem_cons, not_or]
  exact ⟨hblanks f.blank_before, h.mark, ⟨hblanks f.blank_between, hspelled⟩,
    hblanks f.blank_after⟩

/-- A text ends in a flag. -/
def EndsInFlag (cs : List Char) : Prop :=
  ∃ front, ∃ f : Flag, cs = front ++ f.text

theorem not_endsInFlag_of_not_mem {cs : List Char} (h : '!' ∉ cs) : ¬ EndsInFlag cs := by
  rintro ⟨front, f, rfl⟩
  exact h (List.mem_append_right front (by simp [Flag.text]))

/-- A flag at the end of a text stands behind every character that stands in no flag. -/
theorem endsInFlag_of_barrier {c : Char} (hc : IsBarrier c) {xs ys : List Char}
    (h : EndsInFlag (xs ++ c :: ys)) : EndsInFlag ys := by
  obtain ⟨front, f, heq⟩ := h
  rcases List.append_eq_append_iff.mp heq with ⟨more, -, hmore⟩ | ⟨more, -, hmore⟩
  · cases more with
    | nil =>
        rw [List.nil_append] at hmore
        exact absurd (hmore ▸ List.mem_cons_self) (hc.not_mem_text f)
    | cons d more => exact ⟨more, f, (List.cons.inj hmore).2⟩
  · exact absurd (hmore ▸ List.mem_append_right more List.mem_cons_self) (hc.not_mem_text f)

theorem dropWhile_blank_append {blanks : List Char} (h : ∀ c ∈ blanks, isBlank c = true)
    (cs : List Char) : (blanks.reverse ++ cs).dropWhile isBlank = cs.dropWhile isBlank :=
  List.dropWhile_append_of_pos fun c hc => h c (List.mem_reverse.mp hc)

/-! ## One pass -/

theorem exists_of_beforeFlag? {word : String} (hword : word ∈ flagWords) {cs rest : List Char}
    (h : beforeFlag? cs.reverse word = some rest) :
    ∃ front, ∃ f : Flag, cs = front ++ f.text ∧ rest = front.reverse.dropWhile isBlank := by
  unfold beforeFlag? at h
  split at h
  · next mid hmid =>
      obtain ⟨spelled, hspelled, hwhole⟩ := afterLetters?_eq_some_iff.mp hmid
      split at h
      · next front hfront =>
          cases h
          have hcs : cs.reverse = cs.reverse.takeWhile isBlank ++
              (spelled ++ (mid.takeWhile isBlank ++ '!' :: front)) := by
            rw [← hfront, List.takeWhile_append_dropWhile, ← hwhole,
              List.takeWhile_append_dropWhile]
          refine ⟨front.reverse, ⟨[], (mid.takeWhile isBlank).reverse, spelled.reverse,
            (cs.reverse.takeWhile isBlank).reverse, ?_, word, hword, ?_⟩, ?_, ?_⟩
          · intro c hc
            rw [List.nil_append, List.mem_append, List.mem_reverse, List.mem_reverse] at hc
            exact hc.elim List.mem_takeWhile_imp List.mem_takeWhile_imp
          · exact List.forall₂_reverse_iff.mp (by rwa [List.reverse_reverse])
          · have hback := congrArg List.reverse hcs
            rw [List.reverse_reverse] at hback
            rw [Flag.text, Flag.tail]
            exact hback.trans (by simp)
          · rw [List.reverse_reverse]
      · cases h
  · cases h

theorem beforeFlag?_of_flag (front : List Char) (f : Flag) :
    ∃ word ∈ flagWords,
      beforeFlag? (front ++ f.text).reverse word = some (front.reverse.dropWhile isBlank) := by
  obtain ⟨word, hword, hspelled⟩ := f.isWord
  refine ⟨word, hword, ?_⟩
  have hreversed : (front ++ f.text).reverse = f.after.reverse ++ (f.spelled.reverse ++
      (f.between.reverse ++ '!' :: (f.before.reverse ++ front.reverse))) := by
    rw [Flag.text, Flag.tail]
    simp
  -- the word begins with a letter, which ends the blanks behind the flag
  have hletter : ∀ cs, (f.spelled.reverse ++ cs).dropWhile isBlank = f.spelled.reverse ++ cs := by
    intro cs
    obtain ⟨c, spelled, hcons⟩ :=
      List.exists_cons_of_ne_nil (mt List.reverse_eq_nil_iff.mp f.spelled_ne_nil)
    have hc : c ∈ f.spelled := List.mem_reverse.mp (hcons ▸ List.mem_cons_self)
    rw [hcons, List.cons_append, List.dropWhile_cons_of_neg]
    rw [(isBlank_of_spells hword hspelled c hc).1]
    exact Bool.false_ne_true
  have hword : ∀ cs, afterLetters? word.toList.reverse (f.spelled.reverse ++ cs) = some cs :=
    fun cs => afterLetters?_eq_some_iff.mpr ⟨_, List.forall₂_reverse_iff.mpr hspelled, rfl⟩
  have hmark : ∀ cs, ('!' :: cs).dropWhile isBlank = '!' :: cs :=
    fun cs => List.dropWhile_cons_of_neg (by decide)
  simp only [beforeFlag?, hreversed, dropWhile_blank_append f.blank_after, hletter, hword,
    dropWhile_blank_append f.blank_between, hmark, dropWhile_blank_append f.blank_before]

/-- A text is cut in only one way at the last occurrence of a character. -/
theorem cut_unique {mark : Char} {xs ys us vs : List Char} (h : xs ++ mark :: us = ys ++ mark :: vs)
    (hus : mark ∉ us) (hvs : mark ∉ vs) : xs = ys := by
  rcases List.append_eq_append_iff.mp h with ⟨more, rfl, heq⟩ | ⟨more, rfl, heq⟩
  · cases more with
    | nil => rw [List.append_nil]
    | cons c more =>
        obtain ⟨rfl, rfl⟩ := List.cons.inj heq
        exact absurd (by simp) hus
  · cases more with
    | nil => rw [List.append_nil]
    | cons c more =>
        obtain ⟨rfl, rfl⟩ := List.cons.inj heq
        exact absurd (by simp) hvs

/-- **One pass takes exactly a flag off the end**, and the blanks before it. -/
theorem beforeAnyFlag?_eq_some_iff {cs rest : List Char} :
    beforeAnyFlag? cs.reverse = some rest ↔
      ∃ front, ∃ f : Flag, cs = front ++ f.text ∧ rest = front.reverse.dropWhile isBlank := by
  have hsound : ∀ {rest}, beforeAnyFlag? cs.reverse = some rest →
      ∃ front, ∃ f : Flag, cs = front ++ f.text ∧ rest = front.reverse.dropWhile isBlank := by
    intro rest h
    obtain ⟨word, hword, hbefore⟩ := List.exists_of_findSome?_eq_some h
    exact exists_of_beforeFlag? hword hbefore
  refine ⟨hsound, ?_⟩
  rintro ⟨front, f, rfl, rfl⟩
  obtain ⟨word, hword, hbefore⟩ := beforeFlag?_of_flag front f
  obtain ⟨found, hfound⟩ : ∃ found, beforeAnyFlag? (front ++ f.text).reverse = some found := by
    rw [← Option.isSome_iff_exists, beforeAnyFlag?, List.findSome?_isSome_iff]
    exact ⟨word, hword, by rw [hbefore]; rfl⟩
  rw [hfound]
  -- whichever word is found, the flag begins at the last exclamation mark
  obtain ⟨front', f', heq, rfl⟩ := hsound hfound
  rw [Flag.text, Flag.text, ← List.append_assoc, ← List.append_assoc] at heq
  have hfront := congrArg List.reverse (cut_unique heq f.mark_not_mem_tail f'.mark_not_mem_tail)
  rw [List.reverse_append, List.reverse_append] at hfront
  rw [← dropWhile_blank_append f.blank_before front.reverse, hfront,
    dropWhile_blank_append f'.blank_before]

/-! ## All passes -/

def unflagged (cs : List Char) : List Char :=
  (dropFlags cs.reverse).reverse

/-- The text after one pass: without the flag that it ends in, if it does. -/
def dropFlag (cs : List Char) : List Char :=
  ((beforeAnyFlag? cs.reverse).getD cs.reverse).reverse

theorem endsInFlag_iff {cs : List Char} :
    EndsInFlag cs ↔ ∃ rest, beforeAnyFlag? cs.reverse = some rest := by
  simp only [beforeAnyFlag?_eq_some_iff, EndsInFlag]
  constructor
  · rintro ⟨front, f, heq⟩
    exact ⟨_, front, f, heq, rfl⟩
  · rintro ⟨rest, front, f, heq, -⟩
    exact ⟨front, f, heq⟩

theorem dropFlags_of_none {reversed : List Char} (h : beforeAnyFlag? reversed = none) :
    dropFlags reversed = reversed := by
  rw [dropFlags]
  split
  · next hsome => cases h.symm.trans hsome
  · rfl

theorem dropFlags_of_some {reversed rest : List Char} (h : beforeAnyFlag? reversed = some rest) :
    dropFlags reversed = dropFlags rest := by
  rw [dropFlags]
  split
  · next hsome =>
      cases h.symm.trans hsome
      rfl
  · next hnone => cases h.symm.trans hnone

theorem unflagged_of_not_endsInFlag {cs : List Char} (h : ¬ EndsInFlag cs) : unflagged cs = cs := by
  rw [endsInFlag_iff, not_exists] at h
  rw [unflagged, dropFlags_of_none (Option.eq_none_iff_forall_ne_some.mpr h), List.reverse_reverse]

/-- A text with a flag behind it loses the flag and the blanks before it. -/
theorem unflagged_append (front : List Char) (f : Flag) :
    unflagged (front ++ f.text) = unflagged (Text.dropRightWhile isBlank front) := by
  have hbefore := beforeAnyFlag?_eq_some_iff.mpr ⟨front, f, rfl, rfl⟩
  rw [unflagged, dropFlags_of_some hbefore, unflagged, Text.dropRightWhile, List.reverse_reverse]

/-- A text with a flag behind it is longer than what is left of it after one pass. -/
theorem length_dropRightWhile_lt (front : List Char) (f : Flag) :
    (Text.dropRightWhile isBlank front).length < (front ++ f.text).length := by
  have hle := length_dropBlank_le front.reverse
  rw [List.length_reverse] at hle
  rw [Text.dropRightWhile, List.length_reverse, Flag.text, List.length_append, List.length_append,
    List.length_cons]
  omega

/-- Blanks at the end do not keep a flag from being found. -/
theorem beforeAnyFlag?_dropWhile (reversed : List Char) :
    beforeAnyFlag? (reversed.dropWhile isBlank) = beforeAnyFlag? reversed := by
  have hbefore : beforeFlag? (reversed.dropWhile isBlank) = beforeFlag? reversed := by
    funext word
    rw [beforeFlag?, List.dropWhile_idempotent, beforeFlag?]
  rw [beforeAnyFlag?, hbefore, beforeAnyFlag?]

theorem strip_unflagged_dropRightWhile (cs : List Char) :
    Text.strip (unflagged (Text.dropRightWhile isBlank cs)) = Text.strip (unflagged cs) := by
  cases hbefore : beforeAnyFlag? cs.reverse with
  | some rest =>
      have hshort := (beforeAnyFlag?_dropWhile cs.reverse).trans hbefore
      rw [unflagged, unflagged, Text.dropRightWhile, List.reverse_reverse,
        dropFlags_of_some hshort, dropFlags_of_some hbefore]
  | none =>
      have hshort := (beforeAnyFlag?_dropWhile cs.reverse).trans hbefore
      rw [unflagged, unflagged, Text.dropRightWhile, List.reverse_reverse,
        dropFlags_of_none hshort, dropFlags_of_none hbefore, List.reverse_reverse]
      exact Text.strip_dropRightWhile cs

/-! ## What is left -/

/-- **A flag behind a text does not change what is left of it.** -/
theorem stripFlags_append (cs : List Char) (f : Flag) :
    stripFlags (cs ++ f.text) = stripFlags cs := by
  change Text.strip (unflagged (cs ++ f.text)) = Text.strip (unflagged cs)
  rw [unflagged_append, strip_unflagged_dropRightWhile]

theorem stripFlags_append_flags (cs : List Char) (flags : List Flag) :
    stripFlags (cs ++ flags.flatMap Flag.text) = stripFlags cs := by
  induction flags generalizing cs with
  | nil => rw [List.flatMap_nil, List.append_nil]
  | cons f flags ih => rw [List.flatMap_cons, ← List.append_assoc, ih, stripFlags_append]

/-- Blanks before a text bring no flag about. -/
theorem endsInFlag_of_blank_append {blanks cs : List Char}
    (hblanks : ∀ c ∈ blanks, isBlank c = true) (h : EndsInFlag (blanks ++ cs)) : EndsInFlag cs := by
  have hmark : '!' ∉ blanks := fun hmem => absurd (hblanks _ hmem) (by decide)
  obtain ⟨front, f, heq⟩ := h
  rw [Flag.text, ← List.append_assoc] at heq
  have hbare : ∀ more, EndsInFlag (more ++ '!' :: f.tail) := fun more =>
    ⟨more, { f with
      before := []
      blank := fun c hc => f.blank c (by simp at hc ⊢; tauto) }, rfl⟩
  rcases List.append_eq_append_iff.mp heq with ⟨more, -, rfl⟩ | ⟨more, rfl, hmore⟩
  · exact hbare more
  · cases more with
    | nil =>
        rw [List.nil_append] at hmore
        exact hmore ▸ hbare []
    | cons c more =>
        obtain ⟨rfl, -⟩ := List.cons.inj hmore
        exact absurd (by simp) hmark

theorem stripFlags_blank_append {blanks : List Char} (hblanks : ∀ c ∈ blanks, isBlank c = true)
    (cs : List Char) : stripFlags (blanks ++ cs) = stripFlags cs := by
  induction hlength : cs.length using Nat.strongRecOn generalizing cs with
  | ind n ih =>
      by_cases hends : EndsInFlag cs
      · obtain ⟨front, f, rfl⟩ := hends
        have hshort : front.length < n := by
          rw [← hlength, Flag.text, List.length_append, List.length_append, List.length_cons]
          omega
        rw [← List.append_assoc, stripFlags_append, stripFlags_append, ih _ hshort front rfl]
      · have hends' : ¬ EndsInFlag (blanks ++ cs) :=
          fun h => hends (endsInFlag_of_blank_append hblanks h)
        change Text.strip (unflagged (blanks ++ cs)) = Text.strip (unflagged cs)
        rw [unflagged_of_not_endsInFlag hends, unflagged_of_not_endsInFlag hends',
          Text.strip_append_of_blank hblanks]

/-- Blanks around a text do not matter for what is left of it. -/
theorem stripFlags_strip (cs : List Char) : stripFlags (Text.strip cs) = stripFlags cs := by
  have hblanks : ∀ c ∈ cs.takeWhile isBlank, isBlank c = true := fun c hc =>
    List.mem_takeWhile_imp hc
  have hfront := stripFlags_blank_append hblanks (cs.dropWhile isBlank)
  rw [List.takeWhile_append_dropWhile] at hfront
  rw [hfront]
  exact strip_unflagged_dropRightWhile _

theorem bareText_eq (raw : List Char) : bareText raw = stripFlags raw :=
  stripFlags_strip raw

theorem not_endsInFlag_unflagged (cs : List Char) : ¬ EndsInFlag (unflagged cs) := by
  induction hlength : cs.length using Nat.strongRecOn generalizing cs with
  | ind n ih =>
      by_cases hends : EndsInFlag cs
      · obtain ⟨front, f, rfl⟩ := hends
        rw [unflagged_append]
        exact ih _ (hlength ▸ length_dropRightWhile_lt front f) _ rfl
      · rwa [unflagged_of_not_endsInFlag hends]

/-- **What is left ends in no flag.** -/
theorem not_endsInFlag_stripFlags (cs : List Char) : ¬ EndsInFlag (stripFlags cs) := by
  rintro ⟨front, f, heq⟩
  obtain ⟨left, right, -, hright, hwhole⟩ := Text.exists_of_strip (unflagged cs)
  refine not_endsInFlag_unflagged cs ⟨left ++ front, { f with
    after := f.after ++ right
    blank := fun c hc => ?_ }, ?_⟩
  · have hcases : c ∈ f.before ++ f.between ++ f.after ∨ c ∈ right := by
      simp only [List.mem_append] at hc ⊢
      tauto
    exact hcases.elim (f.blank c) (hright c)
  · rw [hwhole, show Text.strip (unflagged cs) = front ++ f.text from heq]
    simp [Flag.text, Flag.tail]

/-- **A trimmed text that ends in no flag is left as it is.** -/
theorem stripFlags_of_bare {cs : List Char} (htrimmed : Text.strip cs = cs)
    (hends : ¬ EndsInFlag cs) : stripFlags cs = cs := by
  change Text.strip (unflagged cs) = cs
  rw [unflagged_of_not_endsInFlag hends, htrimmed]

theorem strip_stripFlags (cs : List Char) : Text.strip (stripFlags cs) = stripFlags cs :=
  Text.strip_strip _

theorem stripFlags_stripFlags (cs : List Char) : stripFlags (stripFlags cs) = stripFlags cs :=
  stripFlags_of_bare (strip_stripFlags cs) (not_endsInFlag_stripFlags cs)

/-! ## The number of passes -/

theorem dropFlag_append (front : List Char) (f : Flag) :
    dropFlag (front ++ f.text) = Text.dropRightWhile isBlank front := by
  have hbefore := beforeAnyFlag?_eq_some_iff.mpr ⟨front, f, rfl, rfl⟩
  rw [dropFlag, hbefore]
  rfl

theorem dropFlag_of_not_endsInFlag {cs : List Char} (h : ¬ EndsInFlag cs) : dropFlag cs = cs := by
  rw [endsInFlag_iff, not_exists] at h
  rw [dropFlag, Option.eq_none_iff_forall_ne_some.mpr h]
  exact List.reverse_reverse cs

/-- **No more passes are needed than there are characters.** -/
theorem exists_iterate_dropFlag (cs : List Char) :
    ∃ n ≤ cs.length, dropFlag^[n] cs = unflagged cs := by
  induction hlength : cs.length using Nat.strongRecOn generalizing cs with
  | ind size ih =>
      by_cases hends : EndsInFlag cs
      · obtain ⟨front, f, rfl⟩ := hends
        have hshort := length_dropRightWhile_lt front f
        obtain ⟨n, hn, hiterate⟩ := ih _ (hlength ▸ hshort) _ rfl
        refine ⟨n + 1, by omega, ?_⟩
        rw [Function.iterate_succ_apply, dropFlag_append, hiterate, unflagged_append]
      · exact ⟨0, Nat.zero_le _, (unflagged_of_not_endsInFlag hends).symm⟩

/-! ## Classification -/

/-- Two values are classified alike, but for the text of one that is not recognized. -/
def Classified.Agrees (a b : Classified) : Prop :=
  a.kind = b.kind ∧ (b.kind ≠ .other → a.value = b.value)

theorem agrees_orOther (found : Option Classified) (text text' : List Char) :
    Classified.Agrees (orOther text found) (orOther text' found) := by
  cases found with
  | some c => exact ⟨rfl, fun _ => rfl⟩
  | none => exact ⟨rfl, fun h => absurd rfl h⟩

/-- Texts that are the same without their flags are classified alike. -/
theorem classify_agrees {raw raw' : List Char} (h : bareText raw = bareText raw')
    (name : Option (List Char)) :
    (∀ fault, classify raw name = .error fault ↔ classify raw' name = .error fault) ∧
      ∀ c, classify raw name = .ok c →
        ∃ c', classify raw' name = .ok c' ∧ Classified.Agrees c' c := by
  rw [classify_eq, classify_eq, h]
  cases recognize (bareText raw') (Text.asciiLower (name.getD [])) with
  | error fault => exact ⟨fun _ => Iff.rfl, nofun⟩
  | ok found =>
      refine ⟨fun fault => iff_of_false nofun nofun, fun c hc => ?_⟩
      cases hc
      exact ⟨_, rfl, agrees_orOther found _ _⟩

/-- **Flags behind a value never affect how it is classified**, whatever their letter case and the
blanks in and around them: what is left of the text is the same, and so is the result but for the
text of a value that is not recognized. Taking flags off ends, after no more passes than there are
characters; what is left ends in no flag, and nothing more is taken off it. -/
theorem flags_never_matter (cs : List Char) (flags : List Flag) (name : Option (List Char)) :
    stripFlags (cs ++ flags.flatMap Flag.text) = stripFlags cs ∧
      (∀ fault, classify cs name = .error fault ↔
        classify (cs ++ flags.flatMap Flag.text) name = .error fault) ∧
      (∀ c, classify cs name = .ok c →
        ∃ c', classify (cs ++ flags.flatMap Flag.text) name = .ok c' ∧ Classified.Agrees c' c) ∧
      (∃ n ≤ cs.length, stripFlags cs = Text.strip (dropFlag^[n] cs) ∧
        dropFlag (dropFlag^[n] cs) = dropFlag^[n] cs) ∧
      stripFlags (stripFlags cs) = stripFlags cs ∧ ¬ EndsInFlag (stripFlags cs) := by
  have hbare : bareText cs = bareText (cs ++ flags.flatMap Flag.text) := by
    rw [bareText_eq, bareText_eq, stripFlags_append_flags]
  obtain ⟨n, hn, hpasses⟩ := exists_iterate_dropFlag cs
  refine ⟨stripFlags_append_flags cs flags, (classify_agrees hbare name).1,
    (classify_agrees hbare name).2, ⟨n, hn, ?_, ?_⟩, stripFlags_stripFlags cs,
    not_endsInFlag_stripFlags cs⟩
  · rw [hpasses]
    rfl
  · rw [hpasses]
    exact dropFlag_of_not_endsInFlag (not_endsInFlag_unflagged cs)

end TokenCatalog.Value
