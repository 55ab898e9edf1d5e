import TokenCatalog.Proofs.Css.Stop
import TokenCatalog.Proofs.Stylesheet.Reannotated
import TokenCatalog.Proofs.Stylesheet.Settled

/-!
# Blanks and comments as they are written

A row of blanks, block comments and line comments is read as blanks and comments, whatever comes
before it, as long as the comments are outside everything else. What follows is read on as if it
stood there alone, but for two slashes, which a line comment lets open another one. Main statements:

* `Filler`: such a row, with the texts that are read of its comments;
* `Filler.finish`: reading it adds blanks and comments with these texts to the row that is open.
-/

namespace TokenCatalog.Stylesheet

open TokenCatalog.Css (Nesting Position uniform takeComment isSpace)

/-! ## Comments made uniform -/

theorem uniform_crlf (cs : List Char) : uniform ('\r' :: '\n' :: cs) = uniform ('\n' :: cs) :=
  rfl

/-- No mark comes about where line ends are made uniform. -/
theorem head?_of_uniform {cs : List Char} {c : Char} (h : (uniform cs).head? = some c)
    (hc : c ≠ '\n' ∧ c ≠ '\ufffd') : cs.head? = some c := by
  cases cs using Css.uniform.induct with
  | case1 => cases h
  | case2 cs _ => exact absurd (Option.some.inj h).symm hc.1
  | case3 d cs hreturn _ =>
      rw [Css.uniform.eq_3 _ _ hreturn] at h
      have h := Option.some.inj h
      split at h
      · exact absurd h.symm hc.1
      · split at h
        · exact absurd h.symm hc.2
        · exact congrArg some h

/-- Breaking up closing marks and making line ends uniform do not get into each other's way. -/
theorem uniform_broken (body : List Char) : uniform (broken body) = broken (uniform body) := by
  induction body using broken.induct with
  | case1 => rfl
  | case2 cs ih => exact congrArg (['*', ' ', '/'] ++ ·) ih
  | case3 c cs hmarks ih =>
      rw [broken_cons hmarks]
      by_cases hcrlf : c = '\r' ∧ cs.head? = some '\n'
      · obtain ⟨rfl, hhead⟩ := hcrlf
        obtain ⟨more, rfl⟩ := List.head?_eq_some_iff.mp hhead
        rw [uniform_crlf, ← ih]
        rfl
      · have hopen : c = '\r' → cs.head? ≠ some '\n' := fun hc hhead => hcrlf ⟨hc, hhead⟩
        obtain ⟨d, hd, -⟩ := exists_uniform_singleton c
        rw [Css.uniform_cons hopen, Css.uniform_cons (by rwa [head?_broken]), ih, hd]
        refine (broken_cons fun more hstar hslash => ?_).symm
        have hc : [c].head? = some d := head?_of_uniform (congrArg List.head? hd)
            (by rw [hstar]; decide)
        have hcs := head?_of_uniform (congrArg List.head? hslash) (by decide)
        obtain ⟨more, rfl⟩ := List.head?_eq_some_iff.mp hcs
        exact hmarks more ((Option.some.inj hc).trans hstar) rfl

/-- **A comment is closed by the first mark behind its text**, also when its line ends are
uniform. -/
theorem takeComment_uniform (body rest : List Char) :
    takeComment (uniform (broken body) ++ '*' :: '/' :: rest) = (uniform (broken body), true) := by
  rw [uniform_broken]
  exact takeComment_broken _ _

/-- The marks of a comment are uniform text. -/
theorem uniform_comment (text rest : List Char) :
    uniform ('/' :: '*' :: (text ++ '*' :: '/' :: rest)) =
      '/' :: '*' :: (uniform text ++ '*' :: '/' :: uniform rest) := by
  have hopen : uniform ('/' :: '*' :: (text ++ '*' :: '/' :: rest)) =
      '/' :: '*' :: uniform (text ++ '*' :: '/' :: rest) := rfl
  have hclose : uniform ('*' :: '/' :: rest) = '*' :: '/' :: uniform rest := rfl
  rw [hopen, Css.uniform_append (fun _ hhead => by cases hhead), hclose]

/-! ## Rows of blanks and comments -/

def isSheetBlank (c : Char) : Bool :=
  [' ', '\t', '\n', '\r', '\x0c'].contains c

/-- Blanks and comments, with the texts that are read of the comments. The two marks say whether two
slashes open a line comment in front of the row and behind it. -/
inductive Filler : Bool → List Char → List (List Char) → Bool → Prop
  | nil (opens : Bool) : Filler opens [] [] opens
  | blank {opens opens' : Bool} {c : Char} (hc : isSheetBlank c = true) {cs : List Char}
      {texts : List (List Char)} (h : Filler (opensLineComment c) cs texts opens') :
      Filler opens (c :: cs) texts opens'
  | block {opens opens' : Bool} {text : List Char} (htext : broken text = text) {cs : List Char}
      {texts : List (List Char)} (h : Filler false cs texts opens') :
      Filler opens ('/' :: '*' :: (text ++ '*' :: '/' :: cs)) (uniform text :: texts) opens'
  | line {opens' : Bool} {body : List Char} (hbody : '\n' ∉ body) {cs : List Char}
      {texts : List (List Char)} (h : Filler true cs texts opens') :
      Filler true ('/' :: '/' :: (body ++ '\n' :: cs)) (uniform (broken body) :: texts) opens'

theorem Filler.append {opens opens' opens'' : Bool} {cs cs' : List Char}
    {texts texts' : List (List Char)}
    (h : Filler opens cs texts opens') (h' : Filler opens' cs' texts' opens'') :
    Filler opens (cs ++ cs') (texts ++ texts') opens'' := by
  induction h with
  | nil => exact h'
  | blank hc _ ih => exact .blank hc (ih h')
  | block htext _ ih =>
      simp only [List.cons_append, List.append_assoc]
      exact .block htext (ih h')
  | line hbody _ ih =>
      simp only [List.cons_append, List.append_assoc]
      exact .line hbody (ih h')

/-! ## Reading them -/

theorem blockCommentsFrom_blank {c : Char} (hc : isSheetBlank c = true) (opens : Bool)
    (cs : List Char) :
    blockCommentsFrom (.code opens) (c :: cs) =
      c :: blockCommentsFrom (.code (opensLineComment c)) cs := by
  simp only [isSheetBlank, List.contains_eq_mem, decide_eq_true_eq, List.mem_cons, List.not_mem_nil,
    or_false] at hc
  rcases hc with rfl | rfl | rfl | rfl | rfl <;> rfl

theorem blockCommentsFrom_comment {text : List Char} (htext : broken text = text) (opens : Bool)
    (cs : List Char) :
    blockCommentsFrom (.code opens) ('/' :: '*' :: (text ++ '*' :: '/' :: cs)) =
      '/' :: '*' :: (text ++ '*' :: '/' :: blockCommentsFrom (.code false) cs) := by
  have htake : takeComment (text ++ '*' :: '/' :: cs) = (text, true) := by
    have h := takeComment_broken text cs
    rwa [htext] at h
  have hblock := @blockCommentsFrom_block (text ++ '*' :: '/' :: cs) cs
    (by rw [htake]; simp [closingMarks]) (fun hopen => by rw [htake] at hopen; cases hopen)
  rw [htake] at hblock
  refine congrArg ('/' :: '*' :: ·) (hblock.trans ?_)
  simp [closingMarks]

theorem blockCommentsFrom_lineComment {body : List Char} (hbody : '\n' ∉ body) (cs : List Char) :
    blockCommentsFrom (.code true) ('/' :: '/' :: (body ++ '\n' :: cs)) =
      '/' :: '*' :: (broken body ++ '*' :: '/' :: '\n' :: blockCommentsFrom (.code true) cs) := by
  have hline := @blockCommentsFrom_line body ('\n' :: cs) hbody
    (fun c hc => (Option.some.inj hc).symm) true
  refine congrArg ('/' :: '*' :: ·) (hline.trans ?_)
  rw [blockCommentsFrom_blank (by decide), List.append_assoc]
  rfl

theorem dropWhile_uniform_blank {c : Char} (hc : isSheetBlank c = true) (cs : List Char) :
    (uniform (c :: cs)).dropWhile isSpace = (uniform cs).dropWhile isSpace := by
  by_cases hcrlf : c = '\r' ∧ cs.head? = some '\n'
  · obtain ⟨rfl, hhead⟩ := hcrlf
    obtain ⟨more, rfl⟩ := List.head?_eq_some_iff.mp hhead
    rw [uniform_crlf]
  · rw [Css.uniform_cons fun hreturn hhead => hcrlf ⟨hreturn, hhead⟩]
    simp only [isSheetBlank, List.contains_eq_mem, decide_eq_true_eq, List.mem_cons,
      List.not_mem_nil, or_false] at hc
    rcases hc with rfl | rfl | rfl | rfl | rfl <;> rfl

theorem dropWhile_uniform_comment (cs : List Char) :
    (uniform ('/' :: '*' :: cs)).dropWhile isSpace = uniform ('/' :: '*' :: cs) :=
  rfl

/-- Blanks are read as blanks. -/
theorem finish_spaces (n : Nesting) (p : Position) (cs : List Char) :
    ∃ row q, Fills [] row ∧
      n.finish ⟨p, cs⟩ =
        Nesting.finish ⟨n.frames, row.reverse ++ n.current⟩ ⟨q, cs.dropWhile isSpace⟩ := by
  cases cs with
  | nil => exact ⟨[], p, .nil, rfl⟩
  | cons c cs =>
      by_cases hc : isSpace c = true
      · have hblank : ∀ d ∈ c :: cs.takeWhile isSpace, Text.isBlank d = true :=
          List.forall_mem_cons.mpr
            ⟨Css.isBlank_of_isSpace hc, fun d hd =>
              Css.isBlank_of_isSpace (List.mem_takeWhile_imp hd)⟩
        refine ⟨_, p.after (c :: cs.take (cs.takeWhile isSpace).length), .blank p hblank .nil, ?_⟩
        rw [n.finish_cons, Css.scan_space hc, List.dropWhile_cons_of_pos hc,
          ← Css.drop_length_takeWhile]
        rfl
      · exact ⟨[], p, .nil, by rw [List.dropWhile_cons_of_neg hc]; rfl⟩

/-- A comment is read as its text, its line ends made uniform, and the blanks behind it as
blanks. -/
theorem finish_comment (n : Nesting) (p : Position) (body rest : List Char) :
    ∃ row q, Fills [uniform (broken body)] row ∧
      n.finish ⟨p, uniform ('/' :: '*' :: (broken body ++ '*' :: '/' :: rest))⟩ =
        Nesting.finish ⟨n.frames, row.reverse ++ n.current⟩
          ⟨q, (uniform rest).dropWhile isSpace⟩ := by
  have hread : ∃ q, n.finish ⟨p, uniform ('/' :: '*' :: (broken body ++ '*' :: '/' :: rest))⟩ =
      Nesting.finish ⟨n.frames, .leaf p (.comment (uniform (broken body))) :: n.current⟩
        ⟨q, uniform rest⟩ := by
    have hskip : Css.Point.skip ((uniform (broken body)).length + 3 + 1)
        ⟨p, '/' :: '*' :: (uniform (broken body) ++ '*' :: '/' :: uniform rest)⟩ =
        ⟨p.after ('/' :: '*' :: (uniform (broken body) ++ ['*', '/'])), uniform rest⟩ := by
      have htext : '/' :: '*' :: (uniform (broken body) ++ '*' :: '/' :: uniform rest) =
          '/' :: '*' :: (uniform (broken body) ++ ['*', '/']) ++ uniform rest := by simp
      rw [htext, Css.Point.skip_append (by simp), List.take_of_length_le (by simp),
        List.drop_of_length_le (by simp)]
      rfl
    refine ⟨p.after ('/' :: '*' :: (uniform (broken body) ++ ['*', '/'])), ?_⟩
    rw [uniform_comment, n.finish_cons, Css.scan_comment, takeComment_uniform]
    exact congrArg _ hskip
  obtain ⟨q, hq⟩ := hread
  obtain ⟨row, q', hrow, hspaces⟩ :=
    finish_spaces ⟨n.frames, .leaf p (.comment (uniform (broken body))) :: n.current⟩ q
      (uniform rest)
  refine ⟨.leaf p (.comment (uniform (broken body))) :: row, q', .comment p _ hrow, ?_⟩
  rw [hq, hspaces, List.reverse_cons, List.append_assoc]
  rfl

theorem Filler.finish_dropWhile {opens opens' : Bool} {cs : List Char} {texts : List (List Char)}
    (h : Filler opens cs texts opens') (post : List Char) (n : Nesting) (p : Position) :
    ∃ row q, Fills texts row ∧
      n.finish ⟨p, (uniform (blockCommentsFrom (.code opens) (cs ++ post))).dropWhile isSpace⟩ =
        Nesting.finish ⟨n.frames, row.reverse ++ n.current⟩
          ⟨q, (uniform (blockCommentsFrom (.code opens') post)).dropWhile isSpace⟩ := by
  induction h generalizing n p with
  | nil opens => exact ⟨[], p, .nil, rfl⟩
  | blank hc _ ih =>
      rw [List.cons_append, blockCommentsFrom_blank hc, dropWhile_uniform_blank hc]
      exact ih n p
  | block htext _ ih =>
      obtain ⟨row, q, hrow, hq⟩ := finish_comment n p _ (blockCommentsFrom (.code false)
        (_ ++ post))
      obtain ⟨more, q', hmore, hq'⟩ := ih ⟨n.frames, row.reverse ++ n.current⟩ q
      rw [htext] at hrow hq
      refine ⟨row ++ more, q', hrow.append hmore, ?_⟩
      simp only [List.cons_append, List.append_assoc]
      rw [blockCommentsFrom_comment htext, dropWhile_uniform_comment, hq, hq', List.reverse_append,
        List.append_assoc]
  | line hbody _ ih =>
      obtain ⟨row, q, hrow, hq⟩ :=
        finish_comment n p _ ('\n' :: blockCommentsFrom (.code true) (_ ++ post))
      obtain ⟨more, q', hmore, hq'⟩ := ih ⟨n.frames, row.reverse ++ n.current⟩ q
      rw [dropWhile_uniform_blank (by decide)] at hq
      refine ⟨row ++ more, q', hrow.append hmore, ?_⟩
      simp only [List.cons_append, List.append_assoc]
      rw [blockCommentsFrom_lineComment hbody, dropWhile_uniform_comment, hq, hq',
        List.reverse_append, List.append_assoc]

/-- Whether two slashes open a line comment only matters where they stand. -/
theorem blockCommentsFrom_code {cs : List Char} (h : ¬ ['/', '/'] <+: cs) (opens opens' : Bool) :
    blockCommentsFrom (.code opens) cs = blockCommentsFrom (.code opens') cs := by
  cases cs with
  | nil => rfl
  | cons c cs =>
      by_cases hc : c = '/'
      · subst hc
        cases cs with
        | nil => rfl
        | cons d cs =>
            have hd : d ≠ '/' := by
              rintro rfl
              exact h ⟨cs, rfl⟩
            simp [blockCommentsFrom, Region.step, hd]
      · simp [blockCommentsFrom, Region.step, hc]

/-- **Blanks and comments are read as blanks and comments**, and what follows as if it stood there
alone. -/
theorem Filler.finish {opens opens' : Bool} {cs : List Char} {texts : List (List Char)}
    (h : Filler opens cs texts opens') {post : List Char} (hpost : ¬ ['/', '/'] <+: post)
    (n : Nesting) (p : Position) :
    ∃ row q, Fills texts row ∧
      n.finish ⟨p, uniform (blockCommentsFrom (.code opens) (cs ++ post))⟩ =
        Nesting.finish ⟨n.frames, row.reverse ++ n.current⟩
          ⟨q, (uniform (withBlockComments post)).dropWhile isSpace⟩ := by
  obtain ⟨row, q, hrow, hq⟩ :=
    finish_spaces n p (uniform (blockCommentsFrom (.code opens) (cs ++ post)))
  obtain ⟨more, q', hmore, hq'⟩ := h.finish_dropWhile post ⟨n.frames, row.reverse ++ n.current⟩ q
  refine ⟨row ++ more, q', hrow.append hmore, ?_⟩
  rw [hq, hq', blockCommentsFrom_code hpost opens' true, List.reverse_append, List.append_assoc]
  rfl

end TokenCatalog.Stylesheet
