import Mathlib.Data.List.Infix
import TokenCatalog.Proofs.Css.Uniform
import TokenCatalog.Stylesheet.LineComment

/-!
# Places in a text with its line comments rewritten

A literal is located in the text that is read, after line comments have become block comments and
line ends uniform. What is written for the text before a place depends on that text alone, so the
two places can be compared. Line comments end at a line feed only, and the closing mark is put in
front of it: between the two halves of CR LF, if a line comment ends in one. Main statements:

* `placeAfter_rewritten`: a place moves down by one line for each CR LF torn apart before it, and to
  the right only inside a line comment;
* `exists_origin`: every place of the text that is read comes from a place of the text;
* `Origin.line_eq_iff`: places on one line are still on one line.
-/

namespace TokenCatalog.Stylesheet

open TokenCatalog.Css (Position uniform)

/-! ## A part of the text -/

namespace Region

/-- The region after a part of a text. -/
def after (region : Region) (cs : List Char) : Region :=
  cs.foldl (fun region c => (region.step c).2) region

/-- What is written for a part of a text. -/
def written (region : Region) : List Char → List Char
  | [] => []
  | c :: cs => (region.step c).1 ++ (region.step c).2.written cs

/-- Whether a region lies in a line comment. -/
def inLine : Region → Bool
  | line => true
  | lineStar => true
  | _ => false

/-- What can be written for a character: itself, or the marks of a line comment. -/
theorem step_cases (region : Region) (c : Char) :
    (region.step c).1 = [c] ∨
      c = '/' ∧ region.step c = (['*'], .line) ∨
      region.inLine = true ∧ c = '\n' ∧ region.step c = (['*', '/', '\n'], .code true) ∨
      region.inLine = true ∧ c = '/' ∧ region.step c = ([' ', '/'], .line) := by
  cases region with
  | slash opens =>
      rw [step]
      split
      · next hstar =>
          left
          rw [hstar]
      · split
        · next hslash =>
            split
            · exact .inr (.inl ⟨hslash, rfl⟩)
            · left
              rw [hslash]
        · exact .inl rfl
  | line =>
      rw [step]
      split
      · next hfeed => exact .inr (.inr (.inl ⟨rfl, hfeed, rfl⟩))
      · exact .inl rfl
  | lineStar =>
      rw [step]
      split
      · next hfeed => exact .inr (.inr (.inl ⟨rfl, hfeed, rfl⟩))
      · split
        · next hslash => exact .inr (.inr (.inr ⟨rfl, hslash, rfl⟩))
        · exact .inl rfl
  | _ => exact .inl rfl

/-- Only a line feed ends a line comment. -/
theorem inLine_step {region : Region} (h : region.inLine = true) {c : Char} (hc : c ≠ '\n') :
    (region.step c).2.inLine = true := by
  cases region with
  | line =>
      rw [step, if_neg hc]
      show (if c = '*' then lineStar else line).inLine = true
      split <;> rfl
  | lineStar =>
      rw [step, if_neg hc]
      split
      · rfl
      · show (if c = '*' then lineStar else line).inLine = true
        split <;> rfl
  | _ => cases h

theorem inLine_afterCode (c : Char) : (afterCode c).inLine = false := by
  rw [afterCode]
  split <;> rfl

/-- Only a slash begins a line comment. -/
theorem inLine_of_step {region : Region} {c : Char} (hc : c ≠ '/')
    (h : (region.step c).2.inLine = true) : region.inLine = true := by
  cases region with
  | code opens =>
      rw [step, if_neg hc, inLine_afterCode] at h
      cases h
  | slash opens =>
      rw [step, if_neg hc] at h
      split at h
      · cases h
      · rw [inLine_afterCode] at h
        cases h
  | string quote =>
      rw [step] at h
      dsimp only at h
      split at h
      · cases h
      · split at h <;> cases h
  | escaped quote => cases h
  | block =>
      rw [step] at h
      dsimp only at h
      split at h <;> cases h
  | blockStar =>
      rw [step, if_neg hc] at h
      dsimp only at h
      split at h <;> cases h
  | line => rfl
  | lineStar => rfl

theorem after_append (region : Region) (xs ys : List Char) :
    region.after (xs ++ ys) = (region.after xs).after ys :=
  List.foldl_append

theorem blockCommentsFrom_append (region : Region) (xs ys : List Char) :
    blockCommentsFrom region (xs ++ ys) =
      region.written xs ++ blockCommentsFrom (region.after xs) ys := by
  induction xs generalizing region with
  | nil => rfl
  | cons c xs ih =>
      rw [List.cons_append, blockCommentsFrom, written, ih, List.append_assoc]
      rfl

theorem step_feed_inLine {region : Region} (h : region.inLine = true) :
    region.step '\n' = (['*', '/', '\n'], .code true) := by
  cases region with
  | line => rfl
  | lineStar => rfl
  | _ => cases h

/-- A line feed is written first only for a line feed outside line comments. -/
theorem head_written {region : Region} {cs : List Char}
    (h : (region.written cs).head? = some '\n') :
    cs.head? = some '\n' ∧ region.inLine = false := by
  cases cs with
  | nil => cases h
  | cons c cs =>
      rw [written] at h
      rcases region.step_cases c with hsame | ⟨-, hstep⟩ | ⟨-, -, hstep⟩ | ⟨-, -, hstep⟩
      · rw [hsame] at h
        cases h
        refine ⟨rfl, ?_⟩
        cases hline : region.inLine with
        | false => rfl
        | true =>
            rw [step_feed_inLine hline] at hsame
            cases hsame
      all_goals
        rw [hstep] at h
        cases h

theorem last_step {region : Region} {c : Char}
    (h : (region.step c).1.getLast? = some '\r') : c = '\r' := by
  rcases region.step_cases c with hsame | ⟨-, hstep⟩ | ⟨-, -, hstep⟩ | ⟨-, -, hstep⟩
  · rw [hsame] at h
    exact Option.some.inj h
  all_goals
    rw [hstep] at h
    cases h

/-- What is written for a character and for what follows it are uniform on their own, unless they
are a CR LF outside line comments. -/
theorem uniform_written_cons {region : Region} {c : Char} {cs : List Char}
    (h : c = '\r' → cs.head? = some '\n' → region.inLine = true) :
    uniform (region.written (c :: cs)) =
      uniform (region.step c).1 ++ uniform ((region.step c).2.written cs) := by
  refine Css.uniform_append fun hlast hhead => ?_
  have hc := last_step hlast
  obtain ⟨hfeed, hline⟩ := head_written hhead
  rw [inLine_step (h hc hfeed) (by rw [hc]; decide)] at hline
  cases hline

theorem step_return (region : Region) : (region.step '\r').1 = ['\r'] := by
  rcases region.step_cases '\r' with hsame | ⟨hc, -⟩ | ⟨-, hc, -⟩ | ⟨-, hc, -⟩
  · exact hsame
  all_goals cases hc

theorem step_feed {region : Region} (h : region.inLine = false) :
    (region.step '\n').1 = ['\n'] := by
  rcases region.step_cases '\n' with hsame | ⟨hc, -⟩ | ⟨hline, -, -⟩ | ⟨-, hc, -⟩
  · exact hsame
  · cases hc
  · rw [h] at hline
    cases hline
  · cases hc

/-- The line feed of a CR LF outside line comments is written as it is. -/
theorem uniform_written_crlf {region : Region} (h : region.inLine = false) (cs : List Char) :
    uniform (region.written ('\r' :: '\n' :: cs)) =
      '\n' :: uniform ((region.after ['\r', '\n']).written cs) := by
  have hnext : (region.step '\r').2.inLine = false := by
    rw [← Bool.not_eq_true]
    intro hline
    rw [inLine_of_step (by decide) hline] at h
    cases h
  rw [written, written, step_return, step_feed hnext]
  rfl

end Region

/-! ## How far places move -/

/-- How many CR LF are torn apart: the line comment ends between their halves. -/
def splitEndsFrom (region : Region) : List Char → Nat
  | [] => 0
  | c :: cs =>
    (if region.inLine && c == '\r' && cs.head? == some '\n' then 1 else 0) +
      splitEndsFrom (region.step c).2 cs

def endsLine (c : Char) : Bool :=
  c == '\n' || c == '\r' || c == '\x0c'

/-- How many characters have been added in front of a place on its line. -/
def addedFrom (region : Region) (added : Nat) : List Char → Nat
  | [] => added
  | c :: cs =>
    addedFrom (region.step c).2
      (if endsLine c then 0 else added + ((region.step c).1.length - 1)) cs

theorem splitEndsFrom_crlf (region : Region) (cs : List Char) :
    splitEndsFrom region ('\r' :: '\n' :: cs) =
      (if region.inLine then 1 else 0) + splitEndsFrom (region.after ['\r', '\n']) cs := by
  rw [splitEndsFrom, splitEndsFrom]
  simp [Region.after]

theorem splitEndsFrom_cons {region : Region} {c : Char} {cs : List Char}
    (h : c = '\r' → cs.head? ≠ some '\n') :
    splitEndsFrom region (c :: cs) = splitEndsFrom (region.step c).2 cs := by
  rw [splitEndsFrom, if_neg, Nat.zero_add]
  rw [Bool.and_eq_true, Bool.and_eq_true, beq_iff_eq, beq_iff_eq]
  exact fun ⟨⟨_, hc⟩, hcs⟩ => h hc hcs

theorem head_of_no_crlf {c : Char} {cs : List Char}
    (h : ∀ more, c = '\r' → cs = '\n' :: more → False) : c = '\r' → cs.head? ≠ some '\n' := by
  intro hc hhead
  obtain ⟨more, hcs⟩ := List.head?_eq_some_iff.mp hhead
  exact h more hc hcs

theorem exists_uniform_singleton (c : Char) :
    ∃ d, uniform [c] = [d] ∧ (d = '\n' ↔ endsLine c = true) := by
  have huniform := Css.uniform.eq_3 c [] fun cs _ hcs => by cases hcs
  refine ⟨_, huniform, ?_⟩
  simp only [endsLine, Bool.or_eq_true, decide_eq_true_eq, beq_iff_eq]
  constructor
  · intro h
    split at h
    · next hend => exact or_assoc.mpr (.inr hend)
    · split at h
      · cases h
      · exact .inl (.inl h)
  · rintro ((rfl | rfl) | rfl) <;> rfl

theorem after_step (region : Region) (p : Position) (lines columns : Nat) (c : Char) :
    Position.after ⟨p.line + lines, p.column + columns⟩ (uniform (region.step c).1) =
      ⟨(p.after (uniform [c])).line + lines,
        (p.after (uniform [c])).column +
          if endsLine c then 0 else columns + ((region.step c).1.length - 1)⟩ := by
  rcases region.step_cases c with hsame | ⟨rfl, hstep⟩ | ⟨-, rfl, hstep⟩ | ⟨-, rfl, hstep⟩
  · obtain ⟨d, hd, hends⟩ := exists_uniform_singleton c
    rw [hsame, hd]
    show Position.advance _ d = ⟨(p.advance d).line + lines, (p.advance d).column + _⟩
    cases hend : endsLine c with
    | true =>
        rw [Position.advance, Position.advance, if_pos (hends.mpr hend), if_pos (hends.mpr hend)]
        simp only [if_true, Position.mk.injEq, and_true]
        omega
    | false =>
        have hfeed : d ≠ '\n' := by
          intro hfeed
          rw [hends.mp hfeed] at hend
          cases hend
        rw [Position.advance, Position.advance, if_neg hfeed, if_neg hfeed]
        simp only [Bool.false_eq_true, if_false, List.length_singleton, Position.mk.injEq, true_and]
        omega
  -- the marks of a line comment: one character, a whole line end, or one more character
  · rw [hstep]
    show (⟨p.line + lines, p.column + columns + 1⟩ : Position) =
      ⟨p.line + lines, p.column + 1 + columns⟩
    rw [Nat.add_right_comm]
  · rw [hstep]
    show (⟨p.line + lines + 1, 1⟩ : Position) = ⟨p.line + 1 + lines, 1⟩
    rw [Nat.add_right_comm]
  · rw [hstep]
    show (⟨p.line + lines, p.column + columns + 1 + 1⟩ : Position) =
      ⟨p.line + lines, p.column + 1 + (columns + 1)⟩
    rw [Nat.add_right_comm p.column, Nat.add_assoc, Nat.add_assoc]

/-- **Places after a part of the text move as it is written.** -/
theorem after_written (region : Region) (p : Position) (lines columns : Nat) (cs : List Char) :
    Position.after ⟨p.line + lines, p.column + columns⟩ (uniform (region.written cs)) =
      ⟨(p.after (uniform cs)).line + (lines + splitEndsFrom region cs),
        (p.after (uniform cs)).column + addedFrom region columns cs⟩ := by
  induction cs using Css.uniform.induct generalizing region p lines columns with
  | case1 => rfl
  | case2 cs ih =>
      have hplace := ih (region.after ['\r', '\n']) ⟨p.line + 1, 1⟩
        (lines + if region.inLine then 1 else 0) 0
      rw [splitEndsFrom_crlf, ← Nat.add_assoc lines]
      refine Eq.trans ?_ hplace
      -- one line end of the text is two of what is written if it is torn apart
      cases hline : region.inLine with
      | false =>
          rw [Region.uniform_written_crlf hline]
          show Position.after ⟨p.line + lines + 1, 1⟩ _ = _
          rw [Nat.add_right_comm]
          rfl
      | true =>
          have hnext := Region.inLine_step hline (c := '\r') (by decide)
          have hafter : region.after ['\r', '\n'] = .code true :=
            congrArg Prod.snd (Region.step_feed_inLine hnext)
          rw [Region.written, Region.written, Region.step_return, Region.step_feed_inLine hnext,
            hafter]
          show Position.after ⟨p.line + lines + 1 + 1, 1⟩ _ =
              Position.after ⟨p.line + 1 + (lines + 1), 1⟩ _
          rw [Nat.add_right_comm p.line, Nat.add_assoc]
          rfl
  | case3 c cs hreturn ih =>
      have hcs := head_of_no_crlf hreturn
      have hplace := ih (region.step c).2 (p.after (uniform [c])) lines
        (if endsLine c then 0 else columns + ((region.step c).1.length - 1))
      rw [Region.uniform_written_cons fun hc hfeed => absurd hfeed (hcs hc), Position.after_append,
        after_step, hplace, splitEndsFrom_cons hcs, Css.uniform_cons hcs, Position.after_append]
      rfl

/-- Outside line comments nothing has been added to the line. -/
theorem addedFrom_eq_zero {region : Region} {added : Nat} {cs : List Char}
    (hadded : region.inLine = false → added = 0) (h : (region.after cs).inLine = false) :
    addedFrom region added cs = 0 := by
  induction cs generalizing region added with
  | nil => exact hadded h
  | cons c cs ih =>
      refine ih (fun hnext => ?_) h
      cases hend : endsLine c with
      | true => rfl
      | false =>
          rcases region.step_cases c with hsame | ⟨-, hstep⟩ | ⟨-, hc, -⟩ | ⟨-, -, hstep⟩
          · rw [hsame]
            refine hadded ?_
            cases hline : region.inLine with
            | false => rfl
            | true =>
                have hc : c ≠ '\n' := by
                  rintro rfl
                  cases hend
                rw [Region.inLine_step hline hc] at hnext
                cases hnext
          · rw [hstep] at hnext
            cases hnext
          · rw [hc] at hend
            cases hend
          · rw [hstep] at hnext
            cases hnext

theorem splitEndsFrom_append {region : Region} {xs : List Char}
    (h : (region.after xs).inLine = false) (ys : List Char) :
    splitEndsFrom region (xs ++ ys) = splitEndsFrom region xs +
      splitEndsFrom (region.after xs) ys := by
  induction xs generalizing region with
  | nil => rw [splitEndsFrom, Nat.zero_add]; rfl
  | cons c xs ih =>
      rw [List.cons_append, splitEndsFrom, splitEndsFrom, ih h, Nat.add_assoc]
      congr 1
      cases xs with
      | cons d xs => rfl
      | nil =>
          -- the part does not end in a line comment, so neither does it in the half of a CR LF there
          refine (if_neg ?_).trans (if_neg ?_).symm
          · simp only [Bool.and_eq_true, beq_iff_eq, not_and]
            rintro ⟨hline, rfl⟩
            rw [Region.after, List.foldl_cons, List.foldl_nil, Region.inLine_step hline (by decide)]
              at h
            cases h
          · simp

/-- Each CR LF torn apart is a line break of the text. -/
theorem splitEndsFrom_le (region : Region) (cs : List Char) :
    splitEndsFrom region cs ≤ (uniform cs).count '\n' := by
  induction cs using Css.uniform.induct generalizing region with
  | case1 => exact Nat.le_refl _
  | case2 cs ih =>
      rw [splitEndsFrom_crlf, Css.uniform, List.count_cons_self, Nat.add_comm]
      have hcs := ih (region.after ['\r', '\n'])
      split <;> omega
  | case3 c cs hreturn ih =>
      have hcs := head_of_no_crlf hreturn
      rw [splitEndsFrom_cons hcs, Css.uniform_cons hcs, List.count_append]
      exact (ih _).trans (Nat.le_add_left _ _)

theorem splitEndsFrom_eq_zero {region : Region} {cs : List Char} (h : ¬ ['\r', '\n'] <:+: cs) :
    splitEndsFrom region cs = 0 := by
  induction cs generalizing region with
  | nil => rfl
  | cons c cs ih =>
      rw [splitEndsFrom_cons, ih fun hcs => h (List.infix_cons hcs)]
      rintro rfl hhead
      obtain ⟨more, rfl⟩ := List.head?_eq_some_iff.mp hhead
      exact h ⟨[], more, rfl⟩

/-! ## The whole text -/

/-- The region of what follows a part of the text. -/
def regionAfter (before : List Char) : Region :=
  (Region.code true).after before

/-- What is written for a part of the text. -/
def rewritten (before : List Char) : List Char :=
  (Region.code true).written before

/-- The place of what follows a part of the text, as lines are counted in CSS. -/
def placeAfter (before : List Char) : Position :=
  Position.start.after (uniform before)

/-- How many line comments of a part of the text end between the halves of a CR LF. -/
def splitEnds (before : List Char) : Nat :=
  splitEndsFrom (.code true) before

/-- How many characters have been added to the line that a part of the text ends in. -/
def added (before : List Char) : Nat :=
  addedFrom (.code true) 0 before

/-- **Where places move.** -/
theorem placeAfter_rewritten (before : List Char) :
    placeAfter (rewritten before) =
      ⟨(placeAfter before).line + splitEnds before, (placeAfter before).column + added before⟩ := by
  have h := after_written (.code true) Position.start 0 0 before
  rwa [Nat.zero_add] at h

theorem added_eq_zero {before : List Char} (h : (regionAfter before).inLine = false) :
    added before = 0 :=
  addedFrom_eq_zero (fun _ => rfl) h

theorem Region.finish_cases (region : Region) :
    region.finish = [] ∨ region.inLine = true ∧ region.finish = ['*', '/'] := by
  cases region with
  | line => exact .inr ⟨rfl, rfl⟩
  | lineStar => exact .inr ⟨rfl, rfl⟩
  | _ => exact .inl rfl

theorem uniform_withBlockComments (text : List Char) :
    uniform (withBlockComments text) = uniform (rewritten text) ++ (regionAfter text).finish := by
  have htext : withBlockComments text = rewritten text ++ (regionAfter text).finish := by
    have h := Region.blockCommentsFrom_append (.code true) text []
    rwa [List.append_nil] at h
  rcases (regionAfter text).finish_cases with hfinish | ⟨-, hfinish⟩
  · rw [htext, hfinish, List.append_nil, List.append_nil]
  · rw [htext, hfinish, Css.uniform_append fun _ hhead => by cases hhead]
    rfl

/-- **Line breaks are kept**, but for each CR LF torn apart. -/
theorem count_withBlockComments (text : List Char) :
    (uniform (withBlockComments text)).count '\n' =
      (uniform text).count '\n' + splitEnds text := by
  have hplace := congrArg Position.line (placeAfter_rewritten text)
  rw [placeAfter, Position.after_line, placeAfter, Position.after_line] at hplace
  have hfinish : (regionAfter text).finish.count '\n' = 0 := by
    rcases (regionAfter text).finish_cases with h | ⟨-, h⟩ <;> rw [h] <;> rfl
  rw [uniform_withBlockComments, List.count_append, hfinish]
  dsimp only at hplace
  omega

/-- **A character outside line comments is written as it is**, behind what is written for the text
before it. -/
theorem withBlockComments_of_outside {before after : List Char} {c : Char}
    (hbefore : (regionAfter before).inLine = false)
    (hafter : (regionAfter (before ++ [c])).inLine = false) :
    ∃ rest, withBlockComments (before ++ c :: after) = rewritten before ++ c :: rest := by
  refine ⟨blockCommentsFrom ((regionAfter before).step c).2 after, ?_⟩
  rw [regionAfter, Region.after_append] at hafter
  rw [withBlockComments, Region.blockCommentsFrom_append, blockCommentsFrom]
  rcases (regionAfter before).step_cases c with hsame | ⟨-, hstep⟩ | ⟨hline, -, -⟩ | ⟨hline, -, -⟩
  · show _ ++ (((regionAfter before).step c).1 ++ _) = _
    rw [hsame]
    rfl
  · have hnext : ((regionAfter before).step c).2.inLine = false := hafter
    rw [hstep] at hnext
    cases hnext
  · rw [hbefore] at hline
    cases hline
  · rw [hbefore] at hline
    cases hline

/-! ## Where a place comes from -/

/-- What has been read up to a place is what is written for a part of the text, and perhaps some of
the marks that are written next. -/
structure Stems (region : Region) (cs read before : List Char) : Prop where
  isPrefix : before <+: cs
  read : ∃ marks, read = uniform (region.written before) ++ marks ∧ marks.length ≤ 2 ∧
    '\n' ∉ marks ∧ ((region.after before).inLine = false → marks = [])

theorem Stems.nil (region : Region) (cs : List Char) : Stems region cs [] [] where
  isPrefix := List.nil_prefix
  read := ⟨[], rfl, Nat.zero_le 2, List.not_mem_nil, fun _ => rfl⟩

theorem Stems.cons {region : Region} {c : Char} {cs read before : List Char}
    (hc : c = '\r' → cs.head? = some '\n' → region.inLine = true)
    (h : Stems (region.step c).2 cs read before) :
    Stems region (c :: cs) (uniform (region.step c).1 ++ read) (c :: before) := by
  obtain ⟨hpart, marks, rfl, hmarks⟩ := h
  refine ⟨List.cons_prefix_cons.mpr ⟨rfl, hpart⟩, marks, ?_, hmarks⟩
  rw [Region.uniform_written_cons, List.append_assoc]
  intro hreturn hfeed
  refine hc hreturn ?_
  obtain ⟨more, rfl⟩ := hpart
  obtain ⟨front, rfl⟩ := List.head?_eq_some_iff.mp hfeed
  rfl

theorem Stems.crlf {region : Region} {cs read before : List Char} (hline : region.inLine = false)
    (h : Stems (region.after ['\r', '\n']) cs read before) :
    Stems region ('\r' :: '\n' :: cs) ('\n' :: read) ('\r' :: '\n' :: before) := by
  obtain ⟨hpart, marks, rfl, hmarks⟩ := h
  refine ⟨List.cons_prefix_cons.mpr ⟨rfl, List.cons_prefix_cons.mpr ⟨rfl, hpart⟩⟩, marks,
    ?_, hmarks⟩
  rw [Region.uniform_written_crlf hline]
  rfl

theorem exists_marks (region : Region) (c : Char) :
    ∃ marks last, uniform (region.step c).1 = marks ++ [last] ∧ marks.length ≤ 2 ∧ '\n' ∉ marks ∧
      (region.inLine = false → marks = []) := by
  rcases region.step_cases c with hsame | ⟨-, hstep⟩ | ⟨hline, -, hstep⟩ | ⟨hline, -, hstep⟩
  · obtain ⟨d, hd, -⟩ := exists_uniform_singleton c
    exact ⟨[], d, hsame ▸ hd, by decide, by decide, fun _ => rfl⟩
  · exact ⟨[], '*', by rw [hstep]; rfl, by decide, by decide, fun _ => rfl⟩
  · refine ⟨['*', '/'], '\n', by rw [hstep]; rfl, by decide, by decide, fun h => ?_⟩
    rw [h] at hline
    cases hline
  · refine ⟨[' '], '/', by rw [hstep]; rfl, by decide, by decide, fun h => ?_⟩
    rw [h] at hline
    cases hline

/-- A proper part of what is written for one character: nothing, or some of its marks. -/
theorem stems_of_step {region : Region} {c : Char} {cs part rest : List Char}
    (hpart : uniform (region.step c).1 = part ++ rest) (hrest : rest ≠ []) :
    Stems region (c :: cs) part [] := by
  obtain ⟨marks, last, hmarks, hlength, hfeed, hline⟩ := exists_marks region c
  have hbegins : part <+: marks := by
    have hall : part <+: marks ++ [last] := ⟨rest, by rw [← hpart, hmarks]⟩
    refine (List.prefix_concat_iff.mp hall).resolve_left fun heq => hrest ?_
    rw [hmarks, heq] at hpart
    exact List.self_eq_append_right.mp hpart
  refine ⟨List.nil_prefix, part, rfl, hbegins.length_le.trans hlength, fun h =>
    hfeed (hbegins.subset h), fun h => ?_⟩
  rw [hline h] at hbegins
  exact List.prefix_nil.mp hbegins

/-- Reading breaks off either within what is written for one character or behind it. -/
theorem exists_stems_cons {region : Region} {c : Char} {cs : List Char}
    (hc : c = '\r' → cs.head? = some '\n' → region.inLine = true)
    (ih : ∀ read rest, uniform ((region.step c).2.written cs) = read ++ rest →
      ∃ before, Stems (region.step c).2 cs read before)
    {read rest : List Char} (h : uniform (region.written (c :: cs)) = read ++ rest) :
    ∃ before, Stems region (c :: cs) read before := by
  rw [Region.uniform_written_cons hc] at h
  rcases List.append_eq_append_iff.mp h with ⟨later, rfl, hlater⟩ | ⟨part, hpart, hlater⟩
  · obtain ⟨before, hbefore⟩ := ih later rest hlater
    exact ⟨c :: before, hbefore.cons hc⟩
  · cases part with
    | nil =>
        obtain ⟨before, hbefore⟩ := ih [] rest hlater.symm
        rw [List.append_nil] at hpart
        have hall := hbefore.cons hc
        rw [List.append_nil, hpart] at hall
        exact ⟨c :: before, hall⟩
    | cons d part => exact ⟨[], stems_of_step hpart (List.cons_ne_nil d part)⟩

theorem exists_stems {region : Region} {cs read rest : List Char}
    (h : uniform (region.written cs) = read ++ rest) : ∃ before, Stems region cs read before := by
  induction cs using Css.uniform.induct generalizing region read rest with
  | case1 =>
      obtain ⟨rfl, -⟩ := List.append_eq_nil_iff.mp h.symm
      exact ⟨[], .nil region []⟩
  | case2 cs ih =>
      cases hline : region.inLine with
      | false =>
          rw [Region.uniform_written_crlf hline] at h
          rcases List.cons_eq_append_iff.mp h with ⟨rfl, -⟩ | ⟨later, rfl, hlater⟩
          · exact ⟨[], .nil region _⟩
          · obtain ⟨before, hbefore⟩ := ih hlater
            exact ⟨_, hbefore.crlf hline⟩
      | true =>
          -- torn apart, the halves are written one by one
          refine exists_stems_cons (fun _ _ => hline) (fun read rest h => ?_) h
          exact exists_stems_cons (fun hc => by cases hc) (fun read rest h => ih h) h
  | case3 c cs hreturn ih =>
      have hcs := head_of_no_crlf hreturn
      exact exists_stems_cons (fun hc hfeed => absurd hfeed (hcs hc)) (fun read rest h => ih h) h

/-- The part of a text that the part of it read so far comes from, and with it the place of what
follows. -/
structure Origin (text read before : List Char) : Prop where
  isPrefix : before <+: text
  line : (Position.start.after read).line = (placeAfter before).line + splitEnds before
  /-- Outside line comments the column is that of the text. -/
  column : (regionAfter before).inLine = false →
    (Position.start.after read).column = (placeAfter before).column
  /-- Inside a line comment some of the marks written next can have been read. -/
  read : ∃ marks, read = uniform (rewritten before) ++ marks ∧ marks.length ≤ 2 ∧
    ((regionAfter before).inLine = false → marks = []) ∧
    (Position.start.after read).column = (placeAfter before).column + added before + marks.length

theorem Stems.origin {text read before : List Char} (h : Stems (.code true) text read before) :
    Origin text read before := by
  obtain ⟨hpart, marks, hread, hlength, hfeed, houtside⟩ := h
  have hplace : Position.start.after read =
      ⟨(placeAfter before).line + splitEnds before,
        (placeAfter before).column + added before + marks.length⟩ := by
    have hwritten := placeAfter_rewritten before
    rw [placeAfter] at hwritten
    rw [hread, Position.after_append, Position.after_of_no_feed hfeed]
    show (⟨(Position.start.after (uniform (rewritten before))).line, _⟩ : Position) = _
    rw [show (Region.code true).written before = rewritten before from rfl, hwritten]
  refine ⟨hpart, by rw [hplace], fun h => ?_, marks, hread, hlength, houtside, by rw [hplace]⟩
  rw [hplace, added_eq_zero h, houtside h]
  rfl

/-- **Every place of the text that is read comes from a place of the text.** -/
theorem exists_origin {text read rest : List Char}
    (h : uniform (withBlockComments text) = read ++ rest) : ∃ before, Origin text read before := by
  rw [uniform_withBlockComments] at h
  rcases List.append_eq_append_iff.mp h with ⟨marks, rfl, hmarks⟩ | ⟨later, hlater, -⟩
  · have hstems : Stems (.code true) text (uniform (rewritten text) ++ marks) text := by
      refine ⟨List.prefix_rfl, marks, rfl, ?_⟩
      rcases (regionAfter text).finish_cases with hfinish | ⟨hline, hfinish⟩
      · rw [hfinish] at hmarks
        obtain ⟨rfl, -⟩ := List.append_eq_nil_iff.mp hmarks.symm
        exact ⟨Nat.zero_le 2, List.not_mem_nil, fun _ => rfl⟩
      · have hpart : marks <+: ['*', '/'] := ⟨rest, by rw [← hmarks, hfinish]⟩
        refine ⟨hpart.length_le, fun hfeed => ?_, fun houtside => ?_⟩
        · exact absurd (hpart.subset hfeed) (by decide)
        · rw [regionAfter] at hline
          rw [houtside] at hline
          cases hline
    exact ⟨text, hstems.origin⟩
  · obtain ⟨before, hbefore⟩ := exists_stems hlater
    exact ⟨before, hbefore.origin⟩

theorem lines_append {before : List Char} (h : (regionAfter before).inLine = false)
    (more : List Char) : ∃ torn, splitEnds (before ++ more) = splitEnds before + torn ∧
      (placeAfter before).line + torn ≤ (placeAfter (before ++ more)).line := by
  refine ⟨splitEndsFrom (regionAfter before) more, splitEndsFrom_append h more, ?_⟩
  rw [placeAfter, Position.after_line, placeAfter, Position.after_line, Nat.add_assoc]
  refine Nat.add_le_add_left ?_ _
  by_cases hreturn : before.getLast? = some '\r' ∧ more.head? = some '\n'
  · obtain ⟨hlast, hhead⟩ := hreturn
    obtain ⟨later, rfl⟩ := List.head?_eq_some_iff.mp hhead
    rw [Css.uniform_append_torn hlast, List.count_append, splitEndsFrom_cons fun hc => by cases hc]
    exact Nat.add_le_add_left (splitEndsFrom_le _ later) _
  · rw [Css.uniform_append fun hlast hhead => hreturn ⟨hlast, hhead⟩, List.count_append]
    exact Nat.add_le_add_left (splitEndsFrom_le _ more) _

theorem lines_eq_iff_of_isPrefix {before later : List Char} (hpart : before <+: later)
    (h : (regionAfter before).inLine = false) :
    (placeAfter before).line + splitEnds before = (placeAfter later).line + splitEnds later ↔
      (placeAfter before).line = (placeAfter later).line := by
  obtain ⟨more, rfl⟩ := hpart
  obtain ⟨torn, hsplit, hlines⟩ := lines_append h more
  rw [hsplit]
  constructor
  · intro heq
    omega
  · intro heq
    omega

/-- **Places outside line comments that stand on one line of the text are on one line of what is
read**, and conversely. -/
theorem Origin.line_eq_iff {text read read' before before' : List Char}
    (h : Origin text read before) (h' : Origin text read' before')
    (houtside : (regionAfter before).inLine = false)
    (houtside' : (regionAfter before').inLine = false) :
    (Position.start.after read).line = (Position.start.after read').line ↔
      (placeAfter before).line = (placeAfter before').line := by
  rw [h.line, h'.line]
  rcases List.prefix_or_prefix_of_prefix h.isPrefix h'.isPrefix with hpart | hpart
  · exact lines_eq_iff_of_isPrefix hpart houtside
  · rw [eq_comm, eq_comm (a := (placeAfter before).line)]
    exact lines_eq_iff_of_isPrefix hpart houtside'

end TokenCatalog.Stylesheet
