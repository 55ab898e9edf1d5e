import Mathlib.Data.List.DropRight
import Mathlib.Data.List.Infix
import TokenCatalog.Text.Blank
import TokenCatalog.Text.Lines

/-!
# Words in a text

What a search finds, and words that are in a text because they are in what was made of it. Main
statements:

* `occursIn_iff`: a search finds exactly the words that stand in the text in one piece;
* `Retouched.contains`: changes to a text that write none of a word's letters bring no such word
  about;
* `infix_of_mem_lines` and `strip_isInfix`: lines and trimmed texts are pieces of the text;
* `strip_strip`: trimming twice is trimming once.
-/

namespace TokenCatalog.Text

/-! ## Searching -/

theorem occursIn_iff {word cs : List Char} : occursIn word cs = true ↔ word <:+: cs := by
  induction cs with
  | nil => rw [occursIn, List.isEmpty_iff, List.infix_nil]
  | cons c cs ih =>
      rw [occursIn, Bool.or_eq_true, ih, List.isPrefixOf_iff_prefix, List.infix_cons_iff]

theorem after?_eq_some_iff {word cs rest : List Char} :
    after? word cs = some rest ↔ cs = word ++ rest := by
  induction word generalizing cs with
  | nil =>
      rw [after?, Option.some_inj]
      rfl
  | cons w word ih =>
      cases cs with
      | nil => simp [after?]
      | cons c cs =>
          rw [after?]
          split
          · next h => rw [ih, h, List.cons_append, List.cons_inj_right]
          · next h =>
              refine iff_of_false nofun fun heq => h ?_
              exact (List.cons.inj heq).1.symm

/-! ## Retouched texts -/

/-- A text was made from another one by changes that write no letters: a character that is no letter
may stand for any others, also for none. -/
inductive Retouched (letter : Char → Bool) : List Char → List Char → Prop
  | nil : Retouched letter [] []
  | same (c : Char) {new old : List Char} (h : Retouched letter new old) :
      Retouched letter (c :: new) (c :: old)
  | mark {c : Char} (hc : letter c = false) (gone : List Char) {new old : List Char}
      (h : Retouched letter new old) : Retouched letter (c :: new) (gone ++ old)

section

variable {letter : Char → Bool} {word new old out : List Char}

/-- Some marks in place of other characters, or of none. -/
theorem Retouched.write (h : Retouched letter new old) (hout : ∀ c ∈ out, letter c = false)
    (hne : out ≠ []) (gone : List Char) : Retouched letter (out ++ new) (gone ++ old) := by
  induction out generalizing gone with
  | nil => exact absurd rfl hne
  | cons c out ih =>
      rw [List.forall_mem_cons] at hout
      cases out with
      | nil => exact .mark hout.1 gone h
      | cons d out => exact .mark hout.1 gone (ih hout.2 (List.cons_ne_nil _ _) [])

theorem Retouched.begins (h : Retouched letter new old) (hword : ∀ c ∈ word, letter c = true)
    (hnew : word <+: new) : word <+: old := by
  induction h generalizing word with
  | nil => exact hnew
  | same c h ih =>
      cases word with
      | nil => exact List.nil_prefix
      | cons w word =>
          rw [List.cons_prefix_cons] at hnew ⊢
          exact ⟨hnew.1, ih (List.forall_mem_cons.mp hword).2 hnew.2⟩
  | mark hc gone h ih =>
      cases word with
      | nil => exact List.nil_prefix
      | cons w word =>
          -- a word does not begin with a mark
          rw [List.cons_prefix_cons] at hnew
          rw [← hnew.1, (List.forall_mem_cons.mp hword).1] at hc
          cases hc

/-- **Retouching brings no word about.** -/
theorem Retouched.contains (h : Retouched letter new old) (hword : ∀ c ∈ word, letter c = true)
    (hnew : word <:+: new) : word <:+: old := by
  induction h with
  | nil => exact hnew
  | same c h ih =>
      rcases List.infix_cons_iff.mp hnew with hhere | hlater
      · exact ((h.same c).begins hword hhere).isInfix
      · exact List.infix_cons (ih hlater)
  | mark hc gone h ih =>
      rcases List.infix_cons_iff.mp hnew with hhere | hlater
      · exact ((h.mark hc gone).begins hword hhere).isInfix
      · exact (ih hlater).trans (List.suffix_append gone _).isInfix

end

/-! ## Blanks -/

/-- Blanks are the same in either letter case. -/
theorem toLower_of_isBlank {c : Char} (h : isBlank c = true) : c.toLower = c := by
  simp only [isBlank, Ranges.holds, blankRanges, List.any_cons, List.any_nil,
    Bool.or_false, Bool.or_eq_true, Bool.and_eq_true, decide_eq_true_eq] at h
  refine dif_neg ?_
  rintro ⟨hlow, hhigh⟩
  rw [ge_iff_le, UInt32.le_iff_toNat_le] at hlow
  rw [UInt32.le_iff_toNat_le] at hhigh
  have hlow : 65 ≤ c.toNat := hlow
  have hhigh : c.toNat ≤ 90 := hhigh
  omega

/-! ## Pieces of a text -/

theorem infix_of_mem_linesFrom {start cs line : List Char} (h : line ∈ linesFrom start cs) :
    line <:+: start.reverse ++ cs := by
  induction start, cs using linesFrom.induct with
  | case1 start hstart =>
      rw [linesFrom, if_pos hstart] at h
      cases h
  | case2 start hstart =>
      rw [linesFrom, if_neg hstart, List.mem_singleton] at h
      exact h ▸ (List.prefix_append _ _).isInfix
  | case3 start cs ih =>
      rw [linesFrom, List.mem_cons] at h
      rcases h with rfl | h
      · exact (List.prefix_append _ _).isInfix
      · exact (ih h).trans ⟨start.reverse ++ ['\r', '\n'], [], by simp⟩
  | case4 start c cs hne hbreak ih =>
      rw [linesFrom, if_pos hbreak, List.mem_cons] at h
      · rcases h with rfl | h
        · exact (List.prefix_append _ _).isInfix
        · exact (ih h).trans ⟨start.reverse ++ [c], [], by simp⟩
      · exact hne
  | case5 start c cs hne hbreak ih =>
      rw [linesFrom, if_neg hbreak] at h
      · simpa using ih h
      · exact hne

theorem infix_of_mem_lines {cs line : List Char} (h : line ∈ lines cs) : line <:+: cs :=
  infix_of_mem_linesFrom h

theorem stripBy_isInfix (p : Char → Bool) (cs : List Char) : stripBy p cs <:+: cs := by
  have hright : dropRightWhile p (cs.dropWhile p) <+: cs.dropWhile p := by
    rw [dropRightWhile, ← List.reverse_suffix, List.reverse_reverse]
    exact List.dropWhile_suffix p
  exact hright.isInfix.trans (List.dropWhile_suffix p).isInfix

theorem strip_isInfix (cs : List Char) : strip cs <:+: cs :=
  stripBy_isInfix isBlank cs

theorem strip_append_of_blank {blanks : List Char} (h : ∀ c ∈ blanks, isBlank c = true)
    (cs : List Char) : strip (blanks ++ cs) = strip cs := by
  rw [strip, stripBy, List.dropWhile_append_of_pos h]
  rfl

theorem mem_dropWhile {p : Char → Bool} {c : Char} {cs : List Char} (h : c ∈ cs)
    (hc : p c = false) : c ∈ cs.dropWhile p := by
  rw [← List.takeWhile_append_dropWhile (p := p) (l := cs), List.mem_append] at h
  refine h.resolve_left fun htake => ?_
  rw [List.mem_takeWhile_imp htake] at hc
  cases hc

/-- Only blanks are trimmed. -/
theorem mem_strip {c : Char} {cs : List Char} (h : c ∈ cs) (hc : isBlank c = false) :
    c ∈ strip cs := by
  have hfront : c ∈ cs.dropWhile isBlank := mem_dropWhile h hc
  exact List.mem_reverse.mpr (mem_dropWhile (List.mem_reverse.mpr hfront) hc)

/-- Trimming takes blanks off both ends. -/
theorem exists_of_strip (cs : List Char) :
    ∃ left right, (∀ c ∈ left, isBlank c = true) ∧ (∀ c ∈ right, isBlank c = true) ∧
      cs = left ++ (strip cs ++ right) := by
  refine ⟨cs.takeWhile isBlank, ((cs.dropWhile isBlank).reverse.takeWhile isBlank).reverse,
    fun c hc => List.mem_takeWhile_imp hc,
    fun c hc => List.mem_takeWhile_imp (List.mem_reverse.mp hc), ?_⟩
  rw [strip, stripBy, dropRightWhile, ← List.reverse_append, List.takeWhile_append_dropWhile,
    List.reverse_reverse, List.takeWhile_append_dropWhile]

/-- A trimmed text is trimmed. -/
theorem strip_strip (cs : List Char) : strip (strip cs) = strip cs := by
  have hfront : (strip cs).dropWhile isBlank = strip cs := by
    cases hstrip : strip cs with
    | nil => rfl
    | cons c rest =>
        -- what is trimmed at the end does not touch the first character
        obtain ⟨gone, hgone⟩ := List.dropWhile_suffix (l := (cs.dropWhile isBlank).reverse) isBlank
        have hfirst : cs.dropWhile isBlank = c :: (rest ++ gone.reverse) := by
          rw [← List.reverse_reverse (cs.dropWhile isBlank), ← hgone, List.reverse_append]
          exact congrArg (· ++ gone.reverse) hstrip
        have hnot := List.head?_dropWhile_not isBlank cs
        rw [hfirst] at hnot
        exact List.dropWhile_cons_of_neg (by simpa using hnot)
  have hback : dropRightWhile isBlank (strip cs) = strip cs :=
    List.rdropWhile_idempotent isBlank (cs.dropWhile isBlank)
  rw [strip, stripBy, hfront, hback]

/-- A trimmed text does not end in a blank. -/
theorem not_isBlank_of_getLast?_strip {cs : List Char} {c : Char}
    (h : (strip cs).getLast? = some c) : isBlank c = false := by
  rw [strip, stripBy, dropRightWhile, List.getLast?_reverse] at h
  have hnot := List.head?_dropWhile_not isBlank (cs.dropWhile isBlank).reverse
  rw [h] at hnot
  simpa using hnot

theorem strip_of_plain {cs : List Char} (h : ∀ c ∈ cs, isBlank c = false) : strip cs = cs := by
  have hnone : ∀ xs : List Char, (∀ c ∈ xs, isBlank c = false) → xs.dropWhile isBlank = xs := by
    intro xs hxs
    cases xs with
    | nil => rfl
    | cons c xs => exact List.dropWhile_cons_of_neg (by rw [hxs c List.mem_cons_self]; decide)
  rw [strip, stripBy, hnone cs h, dropRightWhile,
    hnone _ fun c hc => h c (List.mem_reverse.mp hc), List.reverse_reverse]

/-- What is trimmed at the end may be there or not. -/
theorem dropRightWhile_append {p : Char → Bool} {tail : List Char} (h : ∀ c ∈ tail, p c = true)
    (cs : List Char) : dropRightWhile p (cs ++ tail) = dropRightWhile p cs := by
  rw [dropRightWhile, List.reverse_append,
    List.dropWhile_append_of_pos fun c hc => h c (List.mem_reverse.mp hc)]
  rfl

theorem dropRightWhile_eq_self {p : Char → Bool} {cs : List Char}
    (h : ∀ c ∈ cs.getLast?, p c = false) : dropRightWhile p cs = cs := by
  refine List.rdropWhile_eq_self_iff.mpr fun hne => ?_
  rw [h _ (List.getLast?_eq_some_getLast hne)]
  decide

/-- Nothing is trimmed in front of what stays. -/
theorem dropRightWhile_append_of_last {p : Char → Bool} {xs : List Char}
    (h : ∀ c ∈ xs.getLast?, p c = false) (ys : List Char) :
    dropRightWhile p (xs ++ ys) = xs ++ dropRightWhile p ys := by
  have hfront : xs.reverse.dropWhile p = xs.reverse := by
    rw [← List.reverse_eq_iff]
    exact dropRightWhile_eq_self h
  rw [dropRightWhile, dropRightWhile, List.reverse_append, List.dropWhile_append]
  split
  · next hempty =>
      rw [List.isEmpty_iff.mp hempty, hfront, List.reverse_reverse, List.reverse_nil,
        List.append_nil]
  · rw [List.reverse_append, List.reverse_reverse]

/-- Trimming the end first makes no difference. -/
theorem strip_dropRightWhile (cs : List Char) : strip (dropRightWhile isBlank cs) = strip cs := by
  have hright : ∀ xs : List Char, ∃ blanks, (∀ c ∈ blanks, isBlank c = true) ∧
      xs = dropRightWhile isBlank xs ++ blanks := by
    intro xs
    refine ⟨(xs.reverse.takeWhile isBlank).reverse,
      fun c hc => List.mem_takeWhile_imp (List.mem_reverse.mp hc), ?_⟩
    rw [dropRightWhile, ← List.reverse_append, List.takeWhile_append_dropWhile,
      List.reverse_reverse]
  obtain ⟨blanks, hblanks, heq⟩ := hright cs
  generalize dropRightWhile isBlank cs = front at heq
  subst heq
  rw [strip, strip, stripBy, stripBy, List.dropWhile_append]
  split
  · next hempty =>
      rw [List.isEmpty_iff.mp hempty, List.dropWhile_eq_nil_iff.mpr hblanks]
  · rw [dropRightWhile_append hblanks]

end TokenCatalog.Text
