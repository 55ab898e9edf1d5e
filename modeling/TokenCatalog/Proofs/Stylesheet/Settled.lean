import TokenCatalog.Proofs.Css.Comment
import TokenCatalog.Proofs.Stylesheet.Passages

/-!
# One pass over the line comments is enough

A text that was rewritten is divided into passages as the text it was written for, with a block
comment in the place of every line comment. Nothing in it can be taken for a line comment any more.
Main statements:

* `Divides.settled`: what is written for a text is divided as the text is;
* `withBlockComments_of_no_line`: a text without line comments is left as it is;
* `rewriting_settles`: the two together, and where the new block comments stand.
-/

namespace TokenCatalog.Stylesheet

/-! ## Closing marks in the text of a comment -/

theorem broken_cons {c : Char} {cs : List Char} (h : ∀ more, c = '*' → cs = '/' :: more → False) :
    broken (c :: cs) = c :: broken cs :=
  broken.eq_3 c cs h

/-- A slash comes first only if it came first. -/
theorem head?_broken (cs : List Char) : (broken cs).head? = cs.head? := by
  cases cs using broken.induct with
  | case1 => rfl
  | case2 cs => rfl
  | case3 c cs hmarks _ => rw [broken_cons hmarks, List.head?_cons, List.head?_cons]

/-- **The first closing mark behind a broken text is the one that is put there.** -/
theorem takeComment_broken (body rest : List Char) :
    Css.takeComment (broken body ++ '*' :: '/' :: rest) = (broken body, true) := by
  induction body using broken.induct with
  | case1 => rfl
  | case2 cs ih =>
      have hspace := Css.takeComment.eq_3 ' ' ('/' :: (broken cs ++ '*' :: '/' :: rest)) (by simp)
      have hslash := Css.takeComment.eq_3 '/' (broken cs ++ '*' :: '/' :: rest) (by simp)
      have hstar := Css.takeComment.eq_3 '*' (' ' :: '/' :: (broken cs ++ '*' :: '/' :: rest))
          (by simp)
      simp only [broken, List.cons_append, hstar, hspace, hslash, ih]
  | case3 c cs hmarks ih =>
      have hopen : ∀ more, c = '*' → broken cs ++ '*' :: '/' :: rest = '/' :: more → False := by
        intro more hc hmore
        have hhead := congrArg List.head? hmore
        rw [List.head?_append, head?_broken] at hhead
        cases cs with
        | nil => simp at hhead
        | cons d cs =>
            obtain rfl : d = '/' := by simpa using hhead
            exact hmarks cs hc rfl
      rw [broken_cons hmarks, List.cons_append, Css.takeComment.eq_3 _ _ hopen, ih]

/-- The text of a comment holds no closing mark to break up. -/
theorem broken_takeComment (cs : List Char) :
    broken (Css.takeComment cs).1 = (Css.takeComment cs).1 := by
  induction cs using Css.takeComment.induct with
  | case1 => rfl
  | case2 cs => rfl
  | case3 c cs hmarks _ _ _ ih =>
      rw [Css.takeComment.eq_3 _ _ hmarks]
      have hopen : ∀ more, c = '*' → (Css.takeComment cs).1 = '/' :: more → False := by
        intro more hc hmore
        obtain ⟨behind, hcs⟩ := Css.takeComment_isPrefix cs
        rw [hmore] at hcs
        exact hmarks (more ++ behind) hc hcs.symm
      rw [broken_cons hopen, ih]

theorem count_broken {c : Char} (hc : c ≠ ' ') (body : List Char) :
    (broken body).count c = body.count c := by
  induction body using broken.induct with
  | case1 => rfl
  | case2 cs ih => simp [broken, List.count_cons, ih, hc.symm]
  | case3 d cs hmarks ih => rw [broken_cons hmarks, List.count_cons, List.count_cons, ih]

/-! ## The division of what is written -/

namespace Passage

/-- What a passage is in the text that is written: a line comment is a block comment there. -/
def settled : Passage → Passage
  | line body => block ('/' :: '*' :: broken body ++ ['*', '/'])
  | p => p

/-- Whether a passage is a line comment. -/
def isLine : Passage → Bool
  | line _ => true
  | _ => false

@[simp] theorem source_settled (p : Passage) : p.settled.source = p.written := by
  cases p <;> rfl

@[simp] theorem isLine_settled (p : Passage) : p.settled.isLine = false := by
  cases p <;> rfl

theorem settled_of_not_isLine {p : Passage} (h : p.isLine = false) : p.settled = p := by
  cases p with
  | line body => cases h
  | _ => rfl

theorem written_of_not_isLine {p : Passage} (h : p.isLine = false) : p.written = p.source := by
  rw [← source_settled, settled_of_not_isLine h]

theorem head?_written (p : Passage) : p.written.head? = p.source.head? := by
  cases p <;> rfl

/-- A line comment takes no line break with it and gets none. -/
theorem count_written (p : Passage) : p.written.count '\n' = p.source.count '\n' := by
  cases p with
  | line body => simp [written, source, count_broken]
  | _ => rfl

end Passage

theorem count_flatMap_written (ps : List Passage) :
    (ps.flatMap Passage.written).count '\n' = (ps.flatMap Passage.source).count '\n' := by
  induction ps with
  | nil => rfl
  | cons p ps ih =>
      rw [List.flatMap_cons, List.flatMap_cons, List.count_append, List.count_append, ih,
        p.count_written]

theorem flatMap_source_settled (ps : List Passage) :
    (ps.map Passage.settled).flatMap Passage.source = ps.flatMap Passage.written := by
  rw [List.flatMap_map]
  simp

/-- What is written for passages begins as they do. -/
theorem head?_flatMap_written (ps : List Passage) :
    (ps.flatMap Passage.written).head? = (ps.flatMap Passage.source).head? := by
  induction ps with
  | nil => rfl
  | cons p ps ih =>
      rw [List.flatMap_cons, List.flatMap_cons, List.head?_append, List.head?_append, ih,
        p.head?_written]

/-- A block comment begins a text that it is taken from. -/
theorem Begins.block_of_takeComment (previous : Option Char) {text rest : List Char} {closed : Bool}
    (htake : Css.takeComment (text ++ closingMarks closed ++ rest) = (text, closed))
    (hend : closed = false → rest = []) :
    Begins previous (.block ('/' :: '*' :: text ++ closingMarks closed)) rest := by
  have h := @Begins.block previous (text ++ closingMarks closed ++ rest) rest
  rw [htake] at h
  exact h rfl hend

/-- **What a passage has become begins what is written**, as long as what follows begins alike. The
character before matters only to a slash. -/
theorem Begins.settled {previous previous' : Option Char} {p : Passage} {rest rest' : List Char}
    (h : Begins previous p rest) (hprevious : p.source.head? = some '/' → previous' = previous)
    (hrest : rest'.head? = rest.head?) : Begins previous' p.settled rest' := by
  have hnil : rest = [] → rest' = [] := by
    rintro rfl
    exact List.head?_eq_none_iff.mp hrest
  cases h with
  | string hquote htext hopen =>
      exact .string hquote htext fun hclosed => hnil (hopen hclosed)
  | @block cs _ hcs hopen =>
      refine .block_of_takeComment previous' ?_ fun hclosed => hnil (hopen hclosed)
      cases hclosed : (Css.takeComment cs).2 with
      | true =>
          have htake := takeComment_broken (Css.takeComment cs).1 rest'
          rw [broken_takeComment] at htake
          simpa [closingMarks] using htake
      | false =>
          have htext := Css.takeComment_of_open hclosed
          rw [hnil (hopen hclosed), htext]
          simpa [closingMarks] using Prod.ext htext hclosed
  | @line hopens body _ hbody hfeed =>
      have htake : Css.takeComment (broken body ++ closingMarks true ++ rest') =
          (broken body, true) := by
        simpa [closingMarks] using takeComment_broken body rest'
      exact .block_of_takeComment previous' htake fun hopen => absurd hopen.symm Bool.false_ne_true
  | @code c hdouble hsingle _ hblock hline =>
      refine .code hdouble hsingle ?_ ?_
      · intro hc
        rw [hrest]
        exact hblock hc
      · rintro rfl
        rw [hrest, hprevious rfl]
        exact hline rfl

/-- A line comment ends in front of a line feed, or with the text. -/
theorem Begins.head?_of_isLine {previous : Option Char} {p : Passage} {rest : List Char}
    (h : Begins previous p rest) (hline : p.isLine = true) : ∀ c ∈ rest.head?, c = '\n' := by
  cases h with
  | line hopens hbody hrest => exact hrest
  | _ => cases hline

theorem Divides.settled_from {previous previous' : Option Char} {text : List Char}
    {ps : List Passage} (h : Divides previous text ps)
    (hprevious : text.head? = some '/' → previous' = previous) :
    Divides previous' (ps.flatMap Passage.written) (ps.map Passage.settled) := by
  induction h generalizing previous' with
  | nil => exact .nil previous'
  | @cons previous p rest ps h hrest ih =>
      have hhead : (ps.flatMap Passage.written).head? = rest.head? := by
        rw [head?_flatMap_written, hrest.flatMap_source]
      have hfirst : p.source.head? = some '/' → previous' = previous := by
        intro hslash
        refine hprevious ?_
        rw [List.head?_append, hslash]
        rfl
      have hnext : rest.head? = some '/' → p.settled.source.getLast? = p.source.getLast? := by
        intro hslash
        cases hline : p.isLine with
        | false => rw [Passage.settled_of_not_isLine hline]
        | true => cases h.head?_of_isLine hline '/' hslash
      rw [List.flatMap_cons, List.map_cons, ← Passage.source_settled]
      exact .cons (h.settled hfirst hhead) (ih hnext)

/-- **What is written for a text is divided as the text is**, with block comments for line
comments. -/
theorem Divides.settled {text : List Char} {ps : List Passage} (h : Divides none text ps) :
    Divides none (withBlockComments text) (ps.map Passage.settled) := by
  have hwritten : withBlockComments text = ps.flatMap Passage.written := h.blockCommentsFrom_eq
  rw [hwritten]
  exact h.settled_from fun _ => rfl

/-- **A text without line comments is left as it is.** -/
theorem withBlockComments_of_no_line {text : List Char} {ps : List Passage}
    (h : Divides none text ps) (hnone : ∀ p ∈ ps, p.isLine = false) :
    withBlockComments text = text := by
  calc withBlockComments text = ps.flatMap Passage.written := h.blockCommentsFrom_eq
    _ = ps.flatMap Passage.source :=
        List.flatMap_congr fun p hp => Passage.written_of_not_isLine (hnone p hp)
    _ = text := h.flatMap_source

theorem not_isLine_of_mem_settled {ps : List Passage} :
    ∀ p ∈ ps.map Passage.settled, p.isLine = false := by
  intro p hp
  obtain ⟨q, -, rfl⟩ := List.mem_map.mp hp
  exact q.isLine_settled

/-- Each passage of a division begins what it and the passages behind it are read from. -/
theorem Divides.begins_of_append {previous : Option Char} {text : List Char} {ps qs : List Passage}
    {p : Passage} (h : Divides previous text (ps ++ p :: qs)) :
    ∃ c, Begins c p (qs.flatMap Passage.source) := by
  induction ps generalizing previous text with
  | nil =>
      cases h with
      | cons h hrest =>
          rw [hrest.flatMap_source]
          exact ⟨_, h⟩
  | cons q ps ih =>
      cases h with
      | cons h hrest => exact ih hrest

/-! ## Rewriting twice -/

/-- **Rewriting is complete after one pass.** A text that was rewritten is not changed any more: it
is divided, in exactly one way, as the text it was written for, with a block comment in the place of
each line comment and no line comment left. What is between the marks of that block comment holds no
closing mark, so the comment ends at its last character: on the line on which the line comment
ended, in front of the same line feed or at the end of the text. -/
theorem rewriting_settles (text : List Char) :
    withBlockComments (withBlockComments text) = withBlockComments text ∧
      ∃ ps, Divides none text ps ∧ (∀ qs, Divides none text qs → qs = ps) ∧
        Divides none (withBlockComments text) (ps.map Passage.settled) ∧
        (∀ qs, Divides none (withBlockComments text) qs → qs = ps.map Passage.settled) ∧
        (∀ p ∈ ps.map Passage.settled, p.isLine = false) ∧
        ∀ before body after, ps = before ++ .line body :: after →
          ∃ head behind,
            head = (before.map Passage.settled).flatMap Passage.source ∧
            behind = (after.map Passage.settled).flatMap Passage.source ∧
            withBlockComments text = head ++ ('/' :: '*' :: broken body ++ ['*', '/']) ++ behind ∧
            Css.takeComment (broken body ++ '*' :: '/' :: behind) = (broken body, true) ∧
            behind.head? = (after.flatMap Passage.source).head? ∧ (∀ c ∈ behind.head?, c = '\n') ∧
            (head ++ ('/' :: '*' :: broken body ++ ['*', '/'])).count '\n' =
              (before.flatMap Passage.source ++ '/' :: '/' :: body).count '\n' := by
  obtain ⟨ps, hdivides⟩ := exists_divides none text
  have hsettled := hdivides.settled
  refine ⟨withBlockComments_of_no_line hsettled not_isLine_of_mem_settled, ps, hdivides,
    fun qs hqs => hqs.unique hdivides, hsettled, fun qs hqs => hqs.unique hsettled,
    not_isLine_of_mem_settled, ?_⟩
  rintro before body after rfl
  refine ⟨_, _, rfl, rfl, ?_, takeComment_broken body _, ?_, ?_, ?_⟩
  · rw [← hsettled.flatMap_source]
    simp [Passage.written]
  · rw [flatMap_source_settled, head?_flatMap_written]
  · obtain ⟨previous, hbegins⟩ := hdivides.begins_of_append
    rw [flatMap_source_settled, head?_flatMap_written]
    exact hbegins.head?_of_isLine rfl
  · rw [flatMap_source_settled]
    show (before.flatMap Passage.written ++ (Passage.line body).written).count '\n' =
      (before.flatMap Passage.source ++ (Passage.line body).source).count '\n'
    rw [List.count_append, List.count_append, count_flatMap_written, Passage.count_written]

/-- A comment that holds a closing mark and ends in a star, and behind it a string that the text
ends in. -/
theorem rewriting_settles_closingMark :
    withBlockComments "//*/*\n'//".toList = "/** /**/\n'//".toList ∧
      withBlockComments "/** /**/\n'//".toList = "/** /**/\n'//".toList ∧
      Css.takeComment "* /**/\n'//".toList = ("* /*".toList, true) := by
  have hline : Begins none (.line ['*', '/', '*']) ['\n', '\'', '/', '/'] :=
    .line (by simp) (by decide) (by simp)
  have hstring : Quoted '\'' false ['/', '/'] :=
    .plain (by decide) (by decide) (by decide) (.plain (by decide) (by decide)
      (by decide) .endOfText)
  have hdivides : Divides none ['/', '/', '*', '/', '*', '\n', '\'', '/', '/']
      ([] ++ .line ['*', '/', '*'] :: [.code '\n', .string ['\'', '/', '/']]) :=
    .cons hline <|
      .cons (.code (by decide) (by decide) (by decide) (by simp)) <|
      .cons (.string (.inr rfl) hstring fun _ => rfl) (.nil _)
  obtain ⟨hsame, ps, -, hunique, -, -, -, hcomments⟩ := rewriting_settles "//*/*\n'//".toList
  obtain rfl := hunique _ hdivides
  obtain ⟨_, _, rfl, rfl, hwritten, htake, -⟩ := hcomments [] _ _ rfl
  exact ⟨hwritten, hwritten ▸ hsame, htake⟩

end TokenCatalog.Stylesheet
