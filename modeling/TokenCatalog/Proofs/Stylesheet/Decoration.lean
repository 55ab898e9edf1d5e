import TokenCatalog.Proofs.Stylesheet.Filler
import TokenCatalog.Proofs.Stylesheet.Wording

/-!
# Decorated lines

The lines of a block comment may begin with blanks and a star, and some may be nothing else. None of
that is read: what a comment says is what stands on its lines behind the decoration. Main
statements:

* `plainLines_decorated`: decoration is not read;
* `Decorated.broken` and `Decorated.uniform`: decorated lines are the text of one comment, and are
  decorated lines once its line ends are uniform.
-/

namespace TokenCatalog.Stylesheet

open TokenCatalog.Css (uniform)
open TokenCatalog.Text (isBlank OnLine strip dropRightWhile joinWith)

/-! ## Decoration -/

/-- What may stand on a line in front of what it says: blanks, and a star. -/
inductive Decoration : List Char → Prop
  | blanks {gap : List Char} (hgap : IsGap gap) : Decoration gap
  | star {gap gap' : List Char} (hgap : IsGap gap) (hgap' : IsGap gap') :
      Decoration (gap ++ '*' :: gap')

structure IsContent (content : List Char) : Prop where
  head : content.head? = some '@'
  onLine : OnLine content
  unstarred : '*' ∉ content

/-- The lines of a comment that says this, line by line, and nothing else. -/
inductive Decorated : List (List Char) → List (List Char) → Prop
  | nil : Decorated [] []
  | bare {line : List Char} (hline : Decoration line) {contents lines : List (List Char)}
      (h : Decorated contents lines) : Decorated contents (line :: lines)
  | content {decoration content : List Char} (hdecoration : Decoration decoration)
      (hcontent : IsContent content) {contents lines : List (List Char)}
        (h : Decorated contents lines) :
      Decorated (content :: contents) ((decoration ++ content) :: lines)

theorem Decoration.onLine {decoration : List Char} (h : Decoration decoration) :
    OnLine decoration := by
  cases h with
  | blanks hgap => exact hgap.onLine
  | star hgap hgap' =>
      exact hgap.onLine.append (List.forall_mem_cons.mpr ⟨by decide, hgap'.onLine⟩)

theorem Decorated.onLine {contents lines : List (List Char)} (h : Decorated contents lines) :
    ∀ line ∈ lines, OnLine line := by
  induction h with
  | nil => nofun
  | bare hline _ ih => exact List.forall_mem_cons.mpr ⟨hline.onLine, ih⟩
  | content hdecoration hcontent _ ih =>
      exact List.forall_mem_cons.mpr ⟨hdecoration.onLine.append hcontent.onLine, ih⟩

theorem plainLine_decoration {decoration : List Char} (h : Decoration decoration) :
    plainLine decoration = [] := by
  cases h with
  | blanks hgap =>
      have hgone : strip decoration = [] := by
        have h := Text.strip_append_of_blank hgap.isBlank []
        rwa [List.append_nil] at h
      rw [plainLine, hgone]
      rfl
  | @star gap gap' hgap hgap' =>
      have hgone : dropRightWhile isBlank gap' = [] := Text.dropRightWhile_append hgap'.isBlank []
      rw [plainLine, Text.strip_append_of_blank hgap.isBlank, Text.strip_cons (by decide), hgone]
      rfl

/-- **Behind the decoration is what the line says.** -/
theorem plainLine_content {decoration content : List Char} (h : Decoration decoration)
    (hcontent : content.head? = some '@') : plainLine (decoration ++ content) = strip content := by
  obtain ⟨rest, rfl⟩ := List.head?_eq_some_iff.mp hcontent
  cases h with
  | blanks hgap =>
      have hstrip := Text.strip_cons (by decide : isBlank '@' = false) rest
      rw [plainLine, Text.strip_append_of_blank hgap.isBlank, hstrip,
        List.dropWhile_cons_of_neg (by decide), ← hstrip, Text.strip_strip]
  | @star gap gap' hgap hgap' =>
      -- behind the star stands a blank or what the line says, and neither is a star
      have hhead : (gap' ++ '@' :: rest).head? ≠ some '*' := by
        cases gap' with
        | nil => exact fun hat => absurd (Option.some.inj hat) (by decide)
        | cons c gap' =>
            rintro ⟨⟩
            exact absurd (hgap'.isBlank '*' List.mem_cons_self) (by decide)
      have hkeep : (dropRightWhile isBlank (gap' ++ '@' :: rest)).dropWhile (· == '*') =
          dropRightWhile isBlank (gap' ++ '@' :: rest) := by
        have hprefix : dropRightWhile isBlank (gap' ++ '@' :: rest) <+: gap' ++ '@' :: rest :=
          List.rdropWhile_prefix isBlank _
        obtain ⟨gone, hgone⟩ := hprefix
        cases hcut : dropRightWhile isBlank (gap' ++ '@' :: rest) with
        | nil => rfl
        | cons d more =>
            rw [← hgone, hcut] at hhead
            exact List.dropWhile_cons_of_neg (by simpa using hhead)
      rw [plainLine, List.append_assoc, Text.strip_append_of_blank hgap.isBlank, List.cons_append,
        Text.strip_cons (by decide), List.dropWhile_cons_of_pos (by decide), hkeep,
        Text.strip_dropRightWhile, Text.strip_append_of_blank hgap'.isBlank]

theorem plainLines_joinWith {lines : List (List Char)} (h : ∀ line ∈ lines, OnLine line) :
    plainLines (joinWith ['\n'] lines) = (lines.map plainLine).filter (!·.isEmpty) := by
  induction lines with
  | nil => rfl
  | cons line lines ih =>
      obtain ⟨hline, hlines⟩ := List.forall_mem_cons.mp h
      by_cases hne : lines = []
      · subst hne
        have hjoin : joinWith ['\n'] [line] = line := by simp [joinWith]
        rw [hjoin, plainLines, Text.lines_of_onLine hline]
        -- a last line with nothing on it is none, and says nothing
        cases line <;> rfl
      · rw [Text.joinWith_cons _ _ hne, List.singleton_append, plainLines,
          Text.lines_append_feed hline, List.map_cons, List.map_cons, List.filter_cons,
          List.filter_cons, ← plainLines, ih hlines]

/-- **Decoration is not read.** -/
theorem plainLines_decorated {contents lines : List (List Char)} (h : Decorated contents lines) :
    plainLines (joinWith ['\n'] lines) = contents.map strip := by
  rw [plainLines_joinWith h.onLine]
  induction h with
  | nil => rfl
  | bare hline _ ih =>
      rw [List.map_cons, plainLine_decoration hline]
      exact ih
  | content hdecoration hcontent _ ih =>
      obtain ⟨rest, rfl⟩ := List.head?_eq_some_iff.mp hcontent.head
      rw [List.map_cons, plainLine_content hdecoration hcontent.head, List.map_cons,
        Text.strip_cons (by decide), ← ih]
      rfl

/-! ## One comment -/

theorem broken_append {xs : List Char} (h : '*' ∉ xs) (ys : List Char) :
    broken (xs ++ ys) = xs ++ broken ys := by
  induction xs with
  | nil => rfl
  | cons c xs ih =>
      obtain ⟨hc, hxs⟩ := not_or.mp (List.mem_cons.not.mp h)
      rw [List.cons_append, broken_cons fun _ hstar _ => hc hstar.symm, ih hxs, List.cons_append]

theorem IsGap.unstarred {gap : List Char} (h : IsGap gap) : '*' ∉ gap :=
  h.not_mem (by decide)

/-- The star of a decoration closes no comment. -/
theorem Decoration.broken_append {decoration : List Char} (h : Decoration decoration)
    {ys : List Char}
    (hys : ys.head? ≠ some '/') : broken (decoration ++ ys) = decoration ++ broken ys := by
  cases h with
  | blanks hgap => exact Stylesheet.broken_append hgap.unstarred ys
  | @star gap gap' hgap hgap' =>
      have hopen : ∀ more, '*' = '*' → gap' ++ ys = '/' :: more → False := by
        intro more _ hmore
        cases gap' with
        | nil => exact hys (by rw [← List.nil_append ys, hmore]; rfl)
        | cons c gap' =>
            obtain ⟨rfl, -⟩ := List.cons.inj hmore
            exact absurd (hgap'.isBlank '/' List.mem_cons_self) (by decide)
      rw [List.append_assoc, Stylesheet.broken_append hgap.unstarred, List.cons_append,
        broken_cons hopen, Stylesheet.broken_append hgap'.unstarred]
      simp

def IsLineEnd (feed : List Char) : Prop :=
  feed = ['\n'] ∨ feed = ['\r', '\n']

theorem IsLineEnd.unstarred {feed : List Char} (h : IsLineEnd feed) : '*' ∉ feed := by
  rcases h with rfl | rfl <;> decide

theorem IsLineEnd.head_append {feed : List Char} (h : IsLineEnd feed) (rest : List Char) :
    (feed ++ rest).head? ≠ some '/' := by
  rcases h with rfl | rfl <;> exact fun hslash => absurd (Option.some.inj hslash) (by decide)

/-- **Decorated lines are the text of one comment.** -/
theorem Decorated.broken {contents lines : List (List Char)} (h : Decorated contents lines)
    {feed : List Char} (hfeed : IsLineEnd feed) :
    Stylesheet.broken (joinWith feed lines) = joinWith feed lines := by
  have hnext : ∀ (line : List Char) (rest : List (List Char)),
      (∀ ys : List Char, ys.head? ≠ some '/' →
        Stylesheet.broken (line ++ ys) = line ++ Stylesheet.broken ys) →
      Stylesheet.broken (joinWith feed rest) = joinWith feed rest →
      Stylesheet.broken (joinWith feed (line :: rest)) = joinWith feed (line :: rest) := by
    intro line rest hline ih
    by_cases hne : rest = []
    · subst hne
      have hlast := hline [] (by simp)
      have hjoin : joinWith feed [line] = line ++ [] := by simp [joinWith]
      rw [hjoin, hlast]
      rfl
    · rw [Text.joinWith_cons _ _ hne, hline _ (hfeed.head_append _),
        Stylesheet.broken_append hfeed.unstarred, ih]
  induction h with
  | nil => rfl
  | bare hline _ ih => exact hnext _ _ (fun ys hys => hline.broken_append hys) ih
  | @content decoration content hdecoration hcontent _ _ _ ih =>
      refine hnext _ _ (fun ys hys => ?_) ih
      have hhead : (content ++ ys).head? ≠ some '/' := by
        obtain ⟨rest, rfl⟩ := List.head?_eq_some_iff.mp hcontent.head
        exact fun hslash => absurd (Option.some.inj hslash) (by decide)
      rw [List.append_assoc, hdecoration.broken_append hhead,
        Stylesheet.broken_append hcontent.unstarred, List.append_assoc]

/-! ## Uniform line ends -/

theorem uniform_onLine {xs : List Char} (h : OnLine xs) (ys : List Char) :
    uniform (xs ++ ys) = uniform xs ++ uniform ys := by
  refine Css.uniform_append fun hlast => ?_
  exact absurd (h '\r' (List.mem_of_getLast? hlast)) (by decide)

/-- Off the line ends only NUL is written otherwise. -/
theorem mem_uniform {xs : List Char} (h : OnLine xs) {c : Char} (hc : c ∈ uniform xs) :
    c ∈ xs ∨ c = '\ufffd' := by
  induction xs with
  | nil => cases hc
  | cons d xs ih =>
      obtain ⟨hd, hxs⟩ := List.forall_mem_cons.mp h
      have hone : uniform ([d] ++ xs) = uniform [d] ++ uniform xs :=
        uniform_onLine (by simpa [OnLine] using hd) xs
      rw [List.singleton_append] at hone
      rw [hone, List.mem_append] at hc
      rcases hc with hc | hc
      · have hfirst : uniform [d] = [if d = '\r' || d = '\x0c' then '\n' else
            if d = '\x00' then '\ufffd' else d] := Css.uniform.eq_3 d [] (by simp)
        have hbreak : (d = '\r' || d = '\x0c') = false := by
          refine Bool.eq_false_iff.mpr fun heq => ?_
          rcases Bool.or_eq_true_iff.mp heq with heq | heq <;>
            exact absurd (of_decide_eq_true heq ▸ hd) (by decide)
        rw [hfirst, hbreak, List.mem_singleton] at hc
        split at hc
        · contradiction
        · split at hc
          · exact .inr hc
          · exact .inl (by simp [hc])
      · exact (ih hxs hc).imp_left (List.mem_cons_of_mem d)

theorem onLine_uniform {xs : List Char} (h : OnLine xs) : OnLine (uniform xs) := by
  intro c hc
  rcases mem_uniform h hc with hmem | rfl
  · exact h c hmem
  · decide

theorem not_mem_uniform {xs : List Char} (h : OnLine xs) {c : Char} (hc : c ≠ '\ufffd')
    (hmem : c ∉ xs) : c ∉ uniform xs :=
  fun hin => (mem_uniform h hin).elim hmem hc

theorem IsLabel.uniform {label : List Char} (h : IsLabel label) : IsLabel (uniform label) where
  onLine := onLine_uniform h.onLine
  unmarked := not_mem_uniform h.onLine (by decide) h.unmarked
  unstarred := not_mem_uniform h.onLine (by decide) h.unstarred

/-- On a line only NUL is not uniform. -/
theorem uniform_eq_self {xs : List Char} (h : OnLine xs) (hnul : '\x00' ∉ xs) :
    uniform xs = xs := by
  refine Css.uniform_of_clean fun c hc => ⟨?_, ?_, ?_⟩
  · rintro rfl
    exact absurd (h _ hc) (by decide)
  · rintro rfl
    exact absurd (h _ hc) (by decide)
  · rintro rfl
    exact hnul hc

theorem IsGap.uniform {gap : List Char} (h : IsGap gap) : Css.uniform gap = gap :=
  uniform_eq_self h.onLine (h.not_mem (by decide))

theorem IsName.uniform {name : List Char} (h : IsName name) : Css.uniform name = name :=
  uniform_eq_self h.onLine (h.not_mem (by decide))

theorem Decoration.uniform {decoration : List Char} (h : Decoration decoration) :
    Css.uniform decoration = decoration := by
  refine uniform_eq_self h.onLine ?_
  cases h with
  | blanks hgap => exact hgap.not_mem (by decide)
  | star hgap hgap' =>
      simp only [List.mem_append, List.mem_cons, not_or]
      exact ⟨hgap.not_mem (by decide), by decide, hgap'.not_mem (by decide)⟩

theorem onLine_openWord : OnLine openWord := by
  decide

theorem onLine_presenterWord : OnLine presenterWord := by
  decide

theorem GivesLabel.uniform {label tokens : List Char} (h : GivesLabel label tokens)
    (hlabel : IsLabel label) : GivesLabel (Css.uniform label) (Css.uniform tokens) := by
  cases h with
  | intro hgap hne hgap' =>
      rw [uniform_onLine onLine_openWord, uniform_onLine hgap.onLine, uniform_onLine hlabel.onLine,
        hgap.uniform, hgap'.uniform, uniform_eq_self onLine_openWord (by decide)]
      exact .intro hgap hne hgap'

theorem GivesName.uniform {name presenter : List Char} (h : GivesName name presenter)
    (hname : IsName name) : Css.uniform presenter = presenter := by
  cases h with
  | intro hgap hne hgap' =>
      have hgap := isGap_of_inline hgap
      rw [uniform_onLine onLine_presenterWord, uniform_onLine hgap.onLine,
        uniform_onLine hname.onLine, hgap.uniform, hgap'.uniform, hname.uniform,
        uniform_eq_self onLine_presenterWord (by decide)]

theorem IsContent.uniform {content : List Char} (h : IsContent content) :
    IsContent (Css.uniform content) where
  head := by
    obtain ⟨rest, rfl⟩ := List.head?_eq_some_iff.mp h.head
    rfl
  onLine := onLine_uniform h.onLine
  unstarred := not_mem_uniform h.onLine (by decide) h.unstarred

/-- **Uniform decorated lines are decorated lines.** -/
theorem Decorated.uniform {contents lines : List (List Char)} (h : Decorated contents lines) :
    Decorated (contents.map Css.uniform) (lines.map Css.uniform) := by
  induction h with
  | nil => exact .nil
  | bare hline _ ih =>
      refine .bare ?_ ih
      rwa [hline.uniform]
  | content hdecoration hcontent _ ih =>
      rw [List.map_cons, List.map_cons, uniform_onLine hdecoration.onLine, hdecoration.uniform]
      exact .content hdecoration hcontent.uniform ih

theorem uniform_joinWith {feed : List Char} (hfeed : IsLineEnd feed) {lines : List (List Char)}
    (h : ∀ line ∈ lines, OnLine line) :
    uniform (joinWith feed lines) = joinWith ['\n'] (lines.map uniform) := by
  have hend : ∀ cs, Css.uniform (feed ++ cs) = '\n' :: Css.uniform cs := by
    intro cs
    rcases hfeed with rfl | rfl <;> rfl
  induction lines with
  | nil => rfl
  | cons line lines ih =>
      obtain ⟨hline, hlines⟩ := List.forall_mem_cons.mp h
      by_cases hne : lines = []
      · subst hne
        simp [joinWith]
      · rw [Text.joinWith_cons _ _ hne, List.map_cons, Text.joinWith_cons _ _ (by simpa using hne),
          uniform_onLine hline, hend, ih hlines]
        rfl

/-- **What is read of a comment on decorated lines.** -/
theorem Decorated.plainLines_uniform {contents lines : List (List Char)}
    (h : Decorated contents lines) {feed : List Char} (hfeed : IsLineEnd feed) :
    plainLines (Css.uniform (joinWith feed lines)) =
      contents.map fun content => strip (Css.uniform content) := by
  rw [uniform_joinWith hfeed h.onLine, plainLines_decorated h.uniform, List.map_map]
  rfl

end TokenCatalog.Stylesheet
