import TokenCatalog.Proofs.Text.Squeeze
import TokenCatalog.Text.Lines

/-!
# Pieces and lines of a text

A text is cut at its separators, and parts that hold none of them are put together with a separator
between neighbours. Lines that hold no line break are read back alike. Main statements:

* `flatten_pieces`: the pieces of a text hold everything but the separators;
* `pieces_append_cons`: what stands before the first separator is the first piece;
* `pieces_joinWith`: cutting gives back the parts that were put together;
* `endsFirm_collapse` and `mem_collapse`: what a text is when its words are put together again;
* `lines_append_feed`: a line that a line feed ends is the first one;
* `lines_flatMap_feed`: lines that are ended by a line feed each are the lines of the text.
-/

namespace TokenCatalog.Text

variable {p : Char → Bool}

/-- The pieces of a text hold everything but the separators. -/
theorem flatten_pieces (p : Char → Bool) (cs : List Char) :
    (pieces p cs).flatten = cs.filter (!p ·) := by
  induction cs with
  | nil => rfl
  | cons c cs ih =>
      obtain ⟨w, ws, hpieces⟩ := exists_pieces p cs
      rw [hpieces] at ih
      by_cases hc : p c = true
      · simpa [pieces, hc, hpieces] using ih
      · simpa [pieces, hc, hpieces] using ih

theorem pieces_of_forall {cs : List Char} (h : ∀ c ∈ cs, p c = false) : pieces p cs = [cs] := by
  induction cs with
  | nil => rfl
  | cons c cs ih =>
      rw [List.forall_mem_cons] at h
      simp [pieces, h.1, ih h.2]

theorem pieces_append_cons {front : List Char} (h : ∀ c ∈ front, p c = false) {c : Char}
    (hc : p c = true) (cs : List Char) : pieces p (front ++ c :: cs) = front :: pieces p cs := by
  induction front with
  | nil => simp [pieces, hc]
  | cons d front ih =>
      rw [List.forall_mem_cons] at h
      simp [pieces, h.1, ih h.2]

/-- **Cutting gives back the parts that were put together.** -/
theorem pieces_joinWith {c : Char} (hc : p c = true) {parts : List (List Char)} (hne : parts ≠ [])
    (h : ∀ part ∈ parts, ∀ d ∈ part, p d = false) : pieces p (joinWith [c] parts) = parts := by
  induction parts with
  | nil => exact absurd rfl hne
  | cons part parts ih =>
      rw [List.forall_mem_cons] at h
      cases parts with
      | nil => simpa [joinWith] using pieces_of_forall h.1
      | cons part' parts =>
          rw [joinWith_cons _ _ (List.cons_ne_nil _ _), List.singleton_append,
            pieces_append_cons h.1 hc, ih (List.cons_ne_nil _ _) h.2]

/-! ## Words put together -/

def EndsFirm (cs : List Char) : Prop :=
  ∀ c ∈ cs.getLast?, isBlank c = false

theorem endsFirm_of_strip {cs : List Char} (h : strip cs = cs) : EndsFirm cs := by
  intro c hc
  rw [← h] at hc
  exact not_isBlank_of_getLast?_strip hc

theorem EndsFirm.append {ys : List Char} (h : EndsFirm ys) (hne : ys ≠ []) (xs : List Char) :
    EndsFirm (xs ++ ys) := by
  intro c hc
  rw [List.getLast?_append_of_ne_nil xs hne] at hc
  exact h c hc

/-- Behind what begins and ends with no blank only the end is trimmed. -/
theorem strip_append {xs : List Char} (hfirst : Firm xs) (hlast : EndsFirm xs) (hne : xs ≠ [])
    (ys : List Char) : strip (xs ++ ys) = xs ++ dropRightWhile isBlank ys := by
  obtain ⟨c, xs, rfl⟩ := List.exists_cons_of_ne_nil hne
  have hfront : (c :: (xs ++ ys)).dropWhile isBlank = c :: (xs ++ ys) :=
    List.dropWhile_cons_of_neg (by rw [firm_cons.mp hfirst]; decide)
  rw [List.cons_append, strip, stripBy, hfront, ← List.cons_append,
    dropRightWhile_append_of_last hlast]

theorem strip_cons {c : Char} (hc : isBlank c = false) (cs : List Char) :
    strip (c :: cs) = c :: dropRightWhile isBlank cs := by
  have hlast : EndsFirm [c] := fun d hd => by rwa [← Option.some.inj hd]
  exact strip_append (firm_cons.mpr hc) hlast (List.cons_ne_nil _ _) cs

/-- A word is made of the characters of the text that are no blanks. -/
theorem mem_of_mem_words {cs word : List Char} {c : Char} (hword : word ∈ words cs)
    (hc : c ∈ word) :
    c ∈ cs ∧ isBlank c = false := by
  have hflat : c ∈ (pieces isBlank cs).flatten :=
    List.mem_flatten.mpr ⟨word, (List.mem_filter.mp hword).1, hc⟩
  rw [flatten_pieces, List.mem_filter, Bool.not_eq_true'] at hflat
  exact hflat

/-- Blanks in front of a text are lost. -/
theorem collapse_append_of_blank {blanks : List Char} (h : ∀ c ∈ blanks, isBlank c = true)
    (cs : List Char) : collapse (blanks ++ cs) = collapse cs := by
  induction blanks with
  | nil => rfl
  | cons c blanks ih =>
      obtain ⟨hc, hblanks⟩ := List.forall_mem_cons.mp h
      rw [List.cons_append, collapse, words_cons_blank hc, ← collapse, ih hblanks]

theorem endsFirm_collapse (cs : List Char) : EndsFirm (collapse cs) := by
  cases hlast : (words cs).getLast? with
  | none =>
      rw [collapse, List.getLast?_eq_none_iff.mp hlast]
      intro c hc
      cases hc
  | some word =>
      have hword := List.mem_of_getLast? hlast
      have hne : word ≠ [] := by
        rintro rfl
        cases (List.mem_filter.mp hword).2
      obtain ⟨before, hbefore⟩ := @exists_joinWith_append [' '] _ _ hlast
      rw [collapse, hbefore]
      refine EndsFirm.append (fun c hc => ?_) hne before
      exact (mem_of_mem_words hword (List.mem_of_getLast? hc)).2

/-- A collapsed text holds spaces, and otherwise only characters of the text that are no blanks. -/
theorem mem_collapse {cs : List Char} {c : Char} (h : c ∈ collapse cs) :
    c = ' ' ∨ c ∈ cs ∧ isBlank c = false :=
  forall_mem_joinWith (P := fun c => c = ' ' ∨ c ∈ cs ∧ isBlank c = false) (by simp)
    (fun _ hword _ hc => .inr (mem_of_mem_words hword hc)) c h

/-! ## Lines -/

/-- A text that stays on its line. -/
def OnLine (cs : List Char) : Prop :=
  ∀ c ∈ cs, isLineBreak c = false

instance (cs : List Char) : Decidable (OnLine cs) :=
  List.decidableBAll (isLineBreak · = false) cs

theorem OnLine.append {xs ys : List Char} (hx : OnLine xs) (hy : OnLine ys) : OnLine (xs ++ ys) :=
  List.forall_mem_append.mpr ⟨hx, hy⟩

/-- What ends a line is a blank. -/
theorem isBlank_of_isLineBreak {c : Char} (h : isLineBreak c = true) : isBlank c = true := by
  simp only [isLineBreak, Bool.or_eq_true, Bool.and_eq_true, decide_eq_true_eq, beq_iff_eq] at h
  simp only [isBlank, Ranges.holds, blankRanges, List.any_cons, List.any_nil, Bool.or_false,
    Bool.or_eq_true, Bool.and_eq_true, decide_eq_true_eq]
  omega

/-- What is no blank stays on its line, and so does a space. -/
theorem onLine_of_blanks {cs : List Char} (h : ∀ c ∈ cs, isBlank c = true → c = ' ') :
    OnLine cs := by
  intro c hc
  refine Bool.eq_false_iff.mpr fun hbreak => ?_
  have hspace := h c hc (isBlank_of_isLineBreak hbreak)
  subst hspace
  revert hbreak
  decide

theorem linesFrom_of_onLine {cs : List Char} (h : OnLine cs) (start rest : List Char) :
    linesFrom start (cs ++ rest) = linesFrom (cs.reverse ++ start) rest := by
  induction cs generalizing start with
  | nil => rfl
  | cons c cs ih =>
      obtain ⟨hc, hcs⟩ := List.forall_mem_cons.mp h
      have hreturn : ∀ more, c = '\r' → cs ++ rest = '\n' :: more → False := by
        rintro more rfl -
        revert hc
        decide
      rw [List.cons_append, linesFrom.eq_3 _ _ _ hreturn, if_neg (by rw [hc]; decide), ih hcs,
        List.reverse_cons, List.append_assoc, List.singleton_append]

/-- **A line that a line feed ends is the first one.** -/
theorem lines_append_feed {line : List Char} (h : OnLine line) (rest : List Char) :
    lines (line ++ '\n' :: rest) = line :: lines rest := by
  have hfeed : ∀ more, '\n' = '\r' → rest = '\n' :: more → False :=
    fun _ hc => absurd hc (by decide)
  rw [lines, linesFrom_of_onLine h, linesFrom.eq_3 _ _ _ hfeed, if_pos (by decide), List.append_nil,
    List.reverse_reverse]
  rfl

/-- A last line needs no end, unless nothing is on it. -/
theorem lines_of_onLine {line : List Char} (h : OnLine line) :
    lines line = if line.isEmpty then [] else [line] := by
  have hlines := linesFrom_of_onLine h [] []
  rw [List.append_nil, List.append_nil] at hlines
  rw [lines, hlines, linesFrom, List.reverse_reverse]
  cases line <;> simp

/-- **Lines that are ended by a line feed each are the lines of the text.** -/
theorem lines_flatMap_feed {all : List (List Char)} (h : ∀ line ∈ all, OnLine line) :
    lines (all.flatMap (· ++ ['\n'])) = all := by
  induction all with
  | nil => rfl
  | cons line all ih =>
      obtain ⟨hline, hall⟩ := List.forall_mem_cons.mp h
      rw [List.flatMap_cons, List.append_assoc, List.singleton_append, lines_append_feed hline,
        ih hall]

end TokenCatalog.Text
