import Mathlib.Data.List.Infix
import TokenCatalog.Proofs.Css.Squeezed
import TokenCatalog.Proofs.Stylesheet.Rewritten

/-!
# Strings, comments and code

A text in which line comments are looked for is divided into passages: strings, block comments, line
comments, and single characters of code. What begins a passage is decided by the text ahead and by
the one character before it. Main statements:

* `Divides`: the rules of the division; `exists_divides` and `Divides.unique`: every text has
  exactly one;
* `Divides.blockCommentsFrom_eq`: rewriting replaces the line comments and keeps everything else;
* `line_comments_only`: the same of a whole text, and when the text between brackets is kept.
-/

namespace TokenCatalog.Stylesheet

/-! ## Passages -/

/-- A passage of a text. -/
inductive Passage where
  | code (c : Char)
  | string (text : List Char)
  | block (text : List Char)
  /-- A line comment, given by what follows its two slashes. -/
  | line (body : List Char)
  deriving DecidableEq, Repr

/-- A comment's text with a space in every closing mark. -/
def broken : List Char → List Char
  | [] => []
  | '*' :: '/' :: cs => '*' :: ' ' :: '/' :: broken cs
  | c :: cs => c :: broken cs

namespace Passage

/-- The text that a passage is read from. -/
def source : Passage → List Char
  | code c => [c]
  | string text => text
  | block text => text
  | line body => '/' :: '/' :: body

/-- The text that is written for a passage. -/
def written : Passage → List Char
  | code c => [c]
  | string text => text
  | block text => text
  | line body => '/' :: '*' :: broken body ++ ['*', '/']

end Passage

/-! ## The rules of the division -/

/-- What follows the opening quote of a string, and whether the string ends there: at the next quote
of its kind, or at a line feed. A backslash takes the next character into the string. -/
inductive Quoted (quote : Char) : Bool → List Char → Prop
  | quote : Quoted quote true [quote]
  | feed : Quoted quote true ['\n']
  | endOfText : Quoted quote false []
  | slash : Quoted quote false ['\\']
  | escaped (c : Char) {closed : Bool} {cs : List Char} (h : Quoted quote closed cs) :
      Quoted quote closed ('\\' :: c :: cs)
  | plain {c : Char} (hquote : c ≠ quote) (hslash : c ≠ '\\') (hfeed : c ≠ '\n') {closed : Bool}
      {cs : List Char} (h : Quoted quote closed cs) : Quoted quote closed (c :: cs)

/-- The marks that close a block comment, unless the text ends in it. -/
def closingMarks (closed : Bool) : List Char :=
  if closed then ['*', '/'] else []

/-- What passage begins a text, given the character before it and the text behind the passage. -/
inductive Begins (previous : Option Char) : Passage → List Char → Prop
  | string {quote : Char} (hquote : quote = '"' ∨ quote = '\'') {closed : Bool}
      {text rest : List Char} (htext : Quoted quote closed text)
      (hrest : closed = false → rest = []) :
      Begins previous (.string (quote :: text)) rest
  | block {cs rest : List Char}
      (hrest : cs = (Css.takeComment cs).1 ++ closingMarks (Css.takeComment cs).2 ++ rest)
      (hend : (Css.takeComment cs).2 = false → rest = []) :
      Begins previous
        (.block ('/' :: '*' :: (Css.takeComment cs).1 ++ closingMarks (Css.takeComment cs).2)) rest
  | line (hopens : ∀ c ∈ previous, opensLineComment c = true) {body rest : List Char}
      (hbody : '\n' ∉ body) (hrest : ∀ c ∈ rest.head?, c = '\n') : Begins previous (.line body) rest
  | code {c : Char} (hdouble : c ≠ '"') (hsingle : c ≠ '\'') {rest : List Char}
      (hblock : c = '/' → rest.head? ≠ some '*')
      (hline : c = '/' → rest.head? = some '/' → ∃ d ∈ previous, opensLineComment d = false) :
      Begins previous (.code c) rest

/-- A text is divided into passages, given the character before it. -/
inductive Divides : Option Char → List Char → List Passage → Prop
  | nil (previous : Option Char) : Divides previous [] []
  | cons {previous : Option Char} {p : Passage} {rest : List Char} {ps : List Passage}
      (h : Begins previous p rest) (hrest : Divides p.source.getLast? rest ps) :
      Divides previous (p.source ++ rest) (p :: ps)

/-! ## What is written for a passage -/

/-- A star in a block comment matters only if a slash follows. -/
theorem blockCommentsFrom_blockStar {cs : List Char} (h : cs.head? ≠ some '/') :
    blockCommentsFrom .blockStar cs = blockCommentsFrom .block cs := by
  cases cs with
  | nil => rfl
  | cons c cs =>
      have hc : c ≠ '/' := fun hc => h (congrArg some hc)
      simp only [blockCommentsFrom, Region.step, if_neg hc]

theorem blockCommentsFrom_lineStar {cs : List Char} (h : cs.head? ≠ some '/') :
    blockCommentsFrom .lineStar cs = blockCommentsFrom .line cs := by
  cases cs with
  | nil => rfl
  | cons c cs =>
      have hc : c ≠ '/' := fun hc => h (congrArg some hc)
      simp only [blockCommentsFrom, Region.step, if_neg hc]

/-- A slash that begins no comment is code like any other. -/
theorem blockCommentsFrom_slash {opens : Bool} {cs : List Char} (hstar : cs.head? ≠ some '*')
    (hslash : cs.head? = some '/' → opens = false) :
    blockCommentsFrom (.slash opens) cs = blockCommentsFrom (.code false) cs := by
  cases cs with
  | nil => rfl
  | cons c cs =>
      have hc : c ≠ '*' := fun hc => hstar (congrArg some hc)
      by_cases hdouble : c = '/'
      · subst hdouble
        rw [hslash rfl]
        rfl
      · simp only [blockCommentsFrom, Region.step, if_neg hc, if_neg hdouble]

namespace Quoted

variable {quote : Char} {text rest : List Char}

theorem ne_nil (h : Quoted quote true text) : text ≠ [] := by
  cases h <;> simp

/-- A string that ends is written as it is, and its last character stands before what follows. -/
theorem blockCommentsFrom_closed (hslash : quote ≠ '\\') (h : Quoted quote true text) :
    blockCommentsFrom (.string quote) (text ++ rest) =
      text ++ blockCommentsFrom (.code (text.getLast?.all opensLineComment)) rest := by
  generalize hclosed : true = closed at h
  induction h with
  | quote => simp [blockCommentsFrom, Region.step, hslash]
  | feed => simp [blockCommentsFrom, Region.step]
  | endOfText => cases hclosed
  | slash => cases hclosed
  | escaped c h ih =>
      subst hclosed
      rw [List.getLast?_cons_cons, List.getLast?_cons_of_ne_nil h.ne_nil]
      simp [blockCommentsFrom, Region.step, ih]
  | plain hquote hslash hfeed h ih =>
      subst hclosed
      rw [List.getLast?_cons_of_ne_nil h.ne_nil]
      simp [blockCommentsFrom, Region.step, ih, hquote, hslash, hfeed]

/-- A string that the text ends in is written as it is. -/
theorem blockCommentsFrom_open (h : Quoted quote false text) :
    blockCommentsFrom (.string quote) text = text := by
  generalize hclosed : false = closed at h
  induction h with
  | quote => cases hclosed
  | feed => cases hclosed
  | endOfText => rfl
  | slash => rfl
  | escaped c h ih =>
      subst hclosed
      simp [blockCommentsFrom, Region.step, ih]
  | plain hquote hslash hfeed h ih =>
      subst hclosed
      simp [blockCommentsFrom, Region.step, ih, hquote, hslash, hfeed]

end Quoted

/-- A block comment is written as it is, and no line comment begins right behind it. -/
theorem blockCommentsFrom_block {cs rest : List Char}
    (h : cs = (Css.takeComment cs).1 ++ closingMarks (Css.takeComment cs).2 ++ rest)
    (hend : (Css.takeComment cs).2 = false → rest = []) :
    blockCommentsFrom .block cs =
      (Css.takeComment cs).1 ++ closingMarks (Css.takeComment cs).2 ++
        blockCommentsFrom (.code false) rest := by
  induction cs using Css.takeComment.induct with
  | case1 =>
      rw [hend rfl]
      rfl
  | case2 cs =>
      have hrest : cs = rest := @List.append_cancel_left _ ['*', '/'] _ _ h
      rw [← hrest]
      rfl
  | case3 c cs hmarks _ _ _ ih =>
      rw [Css.takeComment.eq_3 _ _ hmarks] at h hend ⊢
      have hwritten := ih (List.cons.inj h).2 hend
      have hstar : c = '*' → cs.head? ≠ some '/' := by
        intro hc hhead
        obtain ⟨more, hcs⟩ := List.head?_eq_some_iff.mp hhead
        exact hmarks more hc hcs
      refine congrArg (c :: ·) (Eq.trans ?_ hwritten)
      show blockCommentsFrom (if c = '*' then .blockStar else .block) cs = _
      split
      · next hc => exact blockCommentsFrom_blockStar (hstar hc)
      · rfl

/-- A line comment is written with new marks around it and no closing mark in it. -/
theorem blockCommentsFrom_line {body rest : List Char} (hbody : '\n' ∉ body)
    (hrest : ∀ c ∈ rest.head?, c = '\n') (opens : Bool) :
    blockCommentsFrom .line (body ++ rest) =
      broken body ++ ['*', '/'] ++ blockCommentsFrom (.code opens) rest := by
  induction body using broken.induct with
  | case1 =>
      cases rest with
      | nil => rfl
      | cons c cs =>
          rw [hrest c rfl]
          rfl
  | case2 cs ih =>
      have hwritten := ih fun hfeed => hbody (List.mem_cons_of_mem _ (List.mem_cons_of_mem _ hfeed))
      exact congrArg (['*', ' ', '/'] ++ ·) hwritten
  | case3 c cs hmarks ih =>
      have hc : c ≠ '\n' := fun hc => hbody (hc ▸ List.mem_cons_self)
      have hwritten := ih fun hfeed => hbody (List.mem_cons_of_mem _ hfeed)
      have hstar : c = '*' → (cs ++ rest).head? ≠ some '/' := by
        intro hstar hhead
        cases cs with
        | nil =>
            have hfeed := hrest _ (Option.mem_def.mpr hhead)
            revert hfeed
            decide
        | cons d cs => exact hmarks cs hstar (congrArg (· :: cs) (Option.some.inj hhead))
      rw [broken.eq_3 _ _ hmarks, List.cons_append, blockCommentsFrom, Region.step, if_neg hc]
      refine congrArg (c :: ·) (Eq.trans ?_ hwritten)
      show blockCommentsFrom (if c = '*' then .lineStar else .line) (cs ++ rest) = _
      split
      · next hc => exact blockCommentsFrom_lineStar (hstar hc)
      · rfl

/-- **What is written for a text begins with what is written for its first passage.** -/
theorem Begins.blockCommentsFrom_eq {previous : Option Char} {p : Passage} {rest : List Char}
    (h : Begins previous p rest) :
    blockCommentsFrom (.code (previous.all opensLineComment)) (p.source ++ rest) =
      p.written ++ blockCommentsFrom (.code (p.source.getLast?.all opensLineComment)) rest := by
  cases h with
  | @string quote hquote closed text _ htext hrest =>
      -- a string without its end runs to the end of the text
      have hslash : quote ≠ '\\' := by rcases hquote with rfl | rfl <;> decide
      have hopen : (Region.code (previous.all opensLineComment)).step quote =
          ([quote], .string quote) := by
        rcases hquote with rfl | rfl <;> rfl
      show blockCommentsFrom (.code _) (quote :: (text ++ rest)) = _
      rw [blockCommentsFrom, hopen]
      refine congrArg (quote :: ·) ?_
      cases closed with
      | true =>
          rw [Passage.source, List.getLast?_cons_of_ne_nil htext.ne_nil]
          exact htext.blockCommentsFrom_closed hslash
      | false =>
          rw [hrest rfl, List.append_nil, htext.blockCommentsFrom_open]
          exact (List.append_nil text).symm
  | @block cs _ hrest hend =>
      have hwritten := blockCommentsFrom_block hrest hend
      have hsource := congrArg ('/' :: '*' :: ·) hrest.symm
      show blockCommentsFrom (.code _) ('/' :: '*' :: ((Css.takeComment cs).1 ++ _ ++ rest)) = _
      refine Eq.trans (congrArg (blockCommentsFrom _) hsource) ?_
      refine Eq.trans (congrArg ('/' :: '*' :: ·) hwritten) ?_
      cases hclosed : (Css.takeComment cs).2 with
      | true => simp [Passage.written, Passage.source, closingMarks, List.getLast?_cons,
          opensLineComment]
      | false =>
          rw [hend hclosed]
          simp [Passage.written, blockCommentsFrom, Region.finish]
  | @line hopens body _ hbody hrest =>
      have hall : previous.all opensLineComment = true := by
        rw [Option.all_eq_true]
        exact hopens
      have hwritten := blockCommentsFrom_line hbody hrest
        ((Passage.line body).source.getLast?.all opensLineComment)
      rw [hall]
      exact congrArg ('/' :: '*' :: ·) hwritten
  | @code c hdouble hsingle _ hblock hline =>
      show blockCommentsFrom (.code _) (c :: rest) =
          c :: blockCommentsFrom (.code (opensLineComment c)) rest
      refine congrArg (c :: ·) ?_
      show blockCommentsFrom (if c = '/' then .slash _ else Region.afterCode c) rest = _
      split
      · next hslash =>
          subst hslash
          refine blockCommentsFrom_slash (hblock rfl) fun hhead => ?_
          obtain ⟨d, hd, hopens⟩ := hline rfl hhead
          rw [Option.mem_def.mp hd]
          exact hopens
      · rw [Region.afterCode, if_neg]
        simp [hdouble, hsingle]

/-- **Rewriting line comments keeps every other passage as it is, in order.** -/
theorem Divides.blockCommentsFrom_eq {previous : Option Char} {text : List Char} {ps : List Passage}
    (h : Divides previous text ps) :
    blockCommentsFrom (.code (previous.all opensLineComment)) text =
      ps.flatMap Passage.written := by
  induction h with
  | nil => rfl
  | cons h hrest ih => rw [h.blockCommentsFrom_eq, ih, List.flatMap_cons]

theorem Divides.flatMap_source {previous : Option Char} {text : List Char} {ps : List Passage}
    (h : Divides previous text ps) : ps.flatMap Passage.source = text := by
  induction h with
  | nil => rfl
  | cons h hrest ih => rw [List.flatMap_cons, ih]

/-! ## The division of a text -/

/-- How what follows an opening quote is cut at the end of the string. -/
def Cut (quote : Char) (cs : List Char) : Prop :=
  ∃ closed text rest,
    Quoted quote closed text ∧ (closed = false → rest = []) ∧ cs = text ++ rest

/-- Every text has an end of the string in it, or is in the string as a whole. -/
theorem cut (quote : Char) (cs : List Char) : Cut quote cs ∧ Cut quote ('\\' :: cs) := by
  induction cs with
  | nil =>
      exact ⟨⟨false, [], [], .endOfText, fun _ => rfl, rfl⟩, false, ['\\'], [], .slash,
        fun _ => rfl, rfl⟩
  | cons c cs ih =>
      obtain ⟨⟨closed, text, rest, htext, hrest, rfl⟩, hescape⟩ := ih
      refine ⟨?_, closed, '\\' :: c :: text, rest, .escaped c htext, hrest, rfl⟩
      by_cases hquote : c = quote
      · exact ⟨true, [c], text ++ rest, hquote ▸ .quote, nofun, rfl⟩
      by_cases hslash : c = '\\'
      · rwa [hslash]
      by_cases hfeed : c = '\n'
      · exact ⟨true, [c], text ++ rest, hfeed ▸ .feed, nofun, rfl⟩
      exact ⟨closed, c :: text, rest, .plain hquote hslash hfeed htext, hrest, rfl⟩

theorem block_cut (cs : List Char) :
    ∃ rest, cs = (Css.takeComment cs).1 ++ closingMarks (Css.takeComment cs).2 ++ rest ∧
      ((Css.takeComment cs).2 = false → rest = []) := by
  cases hclosed : (Css.takeComment cs).2 with
  | true =>
      have htake := Css.takeComment_of_closed hclosed
      refine ⟨cs.drop ((Css.takeComment cs).1.length + 2), ?_, nofun⟩
      rw [closingMarks, if_pos rfl, ← htake, List.take_append_drop]
  | false =>
      refine ⟨[], ?_, fun _ => rfl⟩
      rw [Css.takeComment_of_open hclosed]
      simp [closingMarks]

/-- **Every text that is not empty begins with a passage.** -/
theorem exists_first_passage (previous : Option Char) (c : Char) (cs : List Char) :
    ∃ p rest, Begins previous p rest ∧ c :: cs = p.source ++ rest := by
  by_cases hquote : c = '"' ∨ c = '\''
  · obtain ⟨⟨closed, text, rest, htext, hrest, rfl⟩, -⟩ := cut c cs
    exact ⟨.string (c :: text), rest, .string hquote htext hrest, rfl⟩
  by_cases hblock : c = '/' ∧ cs.head? = some '*'
  · obtain ⟨rfl, hhead⟩ := hblock
    obtain ⟨more, rfl⟩ := List.head?_eq_some_iff.mp hhead
    obtain ⟨rest, hmore, hend⟩ := block_cut more
    exact ⟨_, rest, .block hmore hend, congrArg ('/' :: '*' :: ·) hmore⟩
  by_cases hline : c = '/' ∧ cs.head? = some '/' ∧ ∀ d ∈ previous, opensLineComment d = true
  · obtain ⟨rfl, hhead, hopens⟩ := hline
    obtain ⟨more, rfl⟩ := List.head?_eq_some_iff.mp hhead
    refine ⟨.line (more.takeWhile (· ≠ '\n')), more.dropWhile (· ≠ '\n'), .line hopens ?_ ?_, ?_⟩
    · intro hfeed
      have hkept := List.mem_takeWhile_imp hfeed
      simp at hkept
    · intro d hd
      have hdropped := List.head?_dropWhile_not (· ≠ '\n') more
      rw [Option.mem_def.mp hd] at hdropped
      simpa using hdropped
    · exact congrArg ('/' :: '/' :: ·) List.takeWhile_append_dropWhile.symm
  · obtain ⟨hdouble, hsingle⟩ := not_or.mp hquote
    refine ⟨.code c, cs, .code hdouble hsingle ?_ ?_, rfl⟩
    · exact fun hc hhead => hblock ⟨hc, hhead⟩
    · intro hc hhead
      have hprevious := fun hopens => hline ⟨hc, hhead, hopens⟩
      simpa using hprevious

theorem Begins.source_ne_nil {previous : Option Char} {p : Passage} {rest : List Char}
    (h : Begins previous p rest) : p.source ≠ [] := by
  cases h <;> simp [Passage.source]

/-- **Every text is divided into passages.** -/
theorem exists_divides (previous : Option Char) (text : List Char) :
    ∃ ps, Divides previous text ps := by
  induction hlength : text.length using Nat.strong_induction_on generalizing previous text with
  | _ n ih =>
    cases text with
    | nil => exact ⟨[], .nil previous⟩
    | cons c cs =>
        obtain ⟨p, rest, hbegins, htext⟩ := exists_first_passage previous c cs
        have hpos := List.length_pos_iff.mpr hbegins.source_ne_nil
        have hshort : rest.length < n := by
          rw [← hlength, htext, List.length_append]
          omega
        obtain ⟨ps, hps⟩ := ih _ hshort p.source.getLast? rest rfl
        exact ⟨p :: ps, htext ▸ .cons hbegins hps⟩

theorem Quoted.unique {quote : Char} (hquote : quote ≠ '\\') {closed closed' : Bool}
    {text text' rest rest' : List Char} (h : Quoted quote closed text)
    (h' : Quoted quote closed' text') (hrest : closed = false → rest = [])
    (hrest' : closed' = false → rest' = []) (htext : text ++ rest = text' ++ rest') :
    text = text' := by
  induction h generalizing text' with
  | quote => cases h' <;> grind
  | feed => cases h' <;> grind
  | endOfText => cases h' <;> grind
  | slash => cases h' <;> grind
  | escaped c h ih => cases h' <;> grind
  | plain hquote hslash hfeed h ih => cases h' <;> grind

theorem takeWhile_line {body rest : List Char} (hbody : '\n' ∉ body)
    (hrest : ∀ c ∈ rest.head?, c = '\n') : (body ++ rest).takeWhile (· ≠ '\n') = body := by
  rw [List.takeWhile_append_of_pos]
  · cases rest with
    | nil => exact List.append_nil body
    | cons c cs =>
        rw [hrest c rfl]
        exact List.append_nil body
  · intro c hc
    rw [decide_eq_true_eq]
    rintro rfl
    exact hbody hc

/-- **What begins a text is determined.** -/
theorem Begins.unique {previous : Option Char} {p p' : Passage} {rest rest' : List Char}
    (h : Begins previous p rest) (h' : Begins previous p' rest')
    (htext : p.source ++ rest = p'.source ++ rest') : p = p' := by
  cases h with
  | @string quote hquote closed text _ hquoted hrest =>
      cases h' with
      | string hquote' hquoted' hrest' =>
          obtain ⟨rfl, htail⟩ := List.cons.inj htext
          have hslash : quote ≠ '\\' := by rcases hquote with rfl | rfl <;> decide
          rw [hquoted.unique hslash hquoted' hrest hrest' htail]
      | _ => grind [Passage.source]
  | @block cs _ hrest =>
      cases h' with
      | @block cs' _ hrest' =>
          have hcs : cs = cs' := by
            rw [hrest, hrest']
            exact @List.append_cancel_left _ ['/', '*'] _ _ htext
          rw [hcs]
      | _ => grind [Passage.source]
  | @line hopens body _ hbody hrest =>
      cases h' with
      | @line hopens' body' _ hbody' hrest' =>
          have htail : body ++ rest = body' ++ rest' :=
            @List.append_cancel_left _ ['/', '/'] _ _ htext
          rw [← takeWhile_line hbody hrest, htail, takeWhile_line hbody' hrest']
      | _ => grind [Passage.source]
  | code hdouble hsingle hblock hline =>
      cases h' with
      | _ => grind [Passage.source]

/-- **A text is divided into passages in one way only.** -/
theorem Divides.unique {previous : Option Char} {text : List Char} {ps qs : List Passage}
    (h : Divides previous text ps) (h' : Divides previous text qs) : ps = qs := by
  induction h generalizing qs with
  | nil previous =>
      generalize htext : ([] : List Char) = text at h'
      cases h' with
      | nil => rfl
      | cons h' => exact absurd (List.append_eq_nil_iff.mp htext.symm).1 h'.source_ne_nil
  | @cons previous p rest ps h hrest ih =>
      generalize htext : p.source ++ rest = text at h'
      cases h' with
      | nil => exact absurd (List.append_eq_nil_iff.mp htext).1 h.source_ne_nil
      | cons h' hrest' =>
          obtain rfl := h.unique h' htext
          rw [← List.append_cancel_left htext] at hrest'
          rw [ih hrest']

theorem Divides.of_append {previous : Option Char} {text : List Char} {ps qs : List Passage}
    {p : Passage} (h : Divides previous text (ps ++ p :: qs)) :
    Divides p.source.getLast? (qs.flatMap Passage.source) qs := by
  induction ps generalizing previous text with
  | nil =>
      cases h with
      | cons h hrest =>
          rw [hrest.flatMap_source]
          exact hrest
  | cons p ps ih =>
      cases h with
      | cons h hrest => exact ih hrest

/-! ## Slashes between brackets -/

/-- Two slashes in a part of a text stand where they open a line comment, given the character before
that part. -/
def HasOpenSlashes (previous : Option Char) (body : List Char) : Prop :=
  ∃ front back, body = front ++ '/' :: '/' :: back ∧
    ∀ c ∈ (previous.toList ++ front).getLast?, opensLineComment c = true

theorem hasOpenSlashes_cons {previous : Option Char} {c : Char} {cs : List Char} :
    HasOpenSlashes previous (c :: cs) ↔
      (c = '/' ∧ cs.head? = some '/' ∧ ∀ d ∈ previous, opensLineComment d = true) ∨
        HasOpenSlashes (some c) cs := by
  constructor
  · rintro ⟨front, back, hbody, hopens⟩
    cases front with
    | nil =>
        obtain ⟨rfl, rfl⟩ := List.cons.inj hbody
        refine .inl ⟨rfl, rfl, ?_⟩
        cases previous with
        | none => nofun
        | some d => simpa using hopens
    | cons d front =>
        obtain ⟨rfl, rfl⟩ := List.cons.inj hbody
        refine .inr ⟨front, back, rfl, ?_⟩
        simpa [List.getLast?_append, List.getLast?_cons] using hopens
  · rintro (⟨rfl, hhead, hopens⟩ | ⟨front, back, rfl, hopens⟩)
    · obtain ⟨more, rfl⟩ := List.head?_eq_some_iff.mp hhead
      refine ⟨[], more, rfl, ?_⟩
      cases previous with
      | none => nofun
      | some d => simpa using hopens
    · refine ⟨c :: front, back, rfl, ?_⟩
      simpa [List.getLast?_append, List.getLast?_cons] using hopens

/-- What the machine knows outside line comments: two slashes may open a comment only behind a
character that lets them, and a slash behind such a character is not followed by another one. -/
structure Region.Guards (region : Region) (previous : Option Char) (body : List Char) : Prop where
  outside : region.inLine = false
  code : region = .code true → ∀ c ∈ previous, opensLineComment c = true
  slash : region = .slash true → body.head? ≠ some '/'

theorem Region.guards_afterCode (c : Char) (cs : List Char) :
    (Region.afterCode c).Guards (some c) cs := by
  constructor
  · exact inLine_afterCode c
  · intro h
    rw [afterCode] at h
    split at h
    · cases h
    · simpa using h
  · intro h
    rw [afterCode] at h
    split at h <;> cases h

/-- Whether a region is outside line comments, and no slash in it opens one. -/
def Region.isInert : Region → Bool
  | .code opens => !opens
  | .slash opens => !opens
  | .line => false
  | .lineStar => false
  | _ => true

theorem Region.guards_of_isInert {region : Region} (h : region.isInert = true)
    {previous : Option Char} {body : List Char} : region.Guards previous body := by
  have hcode : region ≠ .code true := by
    rintro rfl
    cases h
  have hslash : region ≠ .slash true := by
    rintro rfl
    cases h
  constructor
  · cases region with
    | line => cases h
    | lineStar => cases h
    | _ => rfl
  · exact fun heq => absurd heq hcode
  · exact fun heq => absurd heq hslash

theorem Region.Guards.step {region : Region} {previous : Option Char} {c : Char} {cs : List Char}
    (h : region.Guards previous (c :: cs)) (hbody : ¬ HasOpenSlashes previous (c :: cs)) :
    (region.step c).1 = [c] ∧ (region.step c).2.Guards (some c) cs := by
  -- only in code can two slashes open a line comment, and the body has no two that would
  have hpair : ¬ (c = '/' ∧ cs.head? = some '/' ∧ ∀ d ∈ previous, opensLineComment d = true) :=
    fun hpair => hbody (hasOpenSlashes_cons.mpr (.inl hpair))
  obtain ⟨houtside, hcode, hslash⟩ := h
  cases region with
  | code opens =>
      refine ⟨rfl, ?_⟩
      show (if c = '/' then Region.slash opens else afterCode c).Guards (some c) cs
      split
      · next hc =>
          constructor
          · rfl
          · intro hopens
            cases hopens
          · intro hopens hhead
            refine hpair ⟨hc, hhead, hcode ?_⟩
            rw [Region.slash.inj hopens]
      · exact guards_afterCode c cs
  | slash opens =>
      rw [Region.step]
      split
      · next hc => exact ⟨by rw [hc], guards_of_isInert rfl⟩
      · split
        · next hc =>
            have hopens : opens = false := by
              rw [← Bool.not_eq_true]
              rintro rfl
              exact hslash rfl (congrArg some hc)
            rw [hopens]
            exact ⟨by rw [hc]; rfl, guards_of_isInert rfl⟩
        · exact ⟨rfl, guards_afterCode c cs⟩
  | string quote =>
      refine ⟨rfl, ?_⟩
      rw [Region.step]
      dsimp only
      split
      · exact guards_of_isInert rfl
      · split
        · refine ⟨rfl, ?_, ?_⟩
          · simp
          · intro heq
            cases heq
        · exact guards_of_isInert rfl
  | escaped quote => exact ⟨rfl, guards_of_isInert rfl⟩
  | block =>
      refine ⟨rfl, ?_⟩
      rw [Region.step]
      dsimp only
      split <;> exact guards_of_isInert rfl
  | blockStar =>
      refine ⟨rfl, ?_⟩
      rw [Region.step]
      dsimp only
      split
      · exact guards_of_isInert rfl
      · split <;> exact guards_of_isInert rfl
  | line => cases houtside
  | lineStar => cases houtside

theorem isPrefix_blockCommentsFrom {region : Region} {previous : Option Char}
    {body rest : List Char}
    (h : region.Guards previous body) (hbody : ¬ HasOpenSlashes previous body) :
    body <+: blockCommentsFrom region (body ++ rest) := by
  induction body generalizing region previous with
  | nil => exact List.nil_prefix
  | cons c cs ih =>
      obtain ⟨hsame, hnext⟩ := h.step hbody
      rw [List.cons_append, blockCommentsFrom, hsame]
      refine List.prefix_cons_inj c |>.mpr (ih hnext ?_)
      exact fun hopen => hbody (hasOpenSlashes_cons.mpr (.inr hopen))

theorem head?_of_append {cs rest : List Char} {d : Char} (hrest : rest.head? ≠ some d)
    (h : (cs ++ rest).head? = some d) : cs.head? = some d := by
  cases cs with
  | nil => exact absurd h hrest
  | cons c cs => exact h

/-- A part without quotes and block comments that is kept has no slashes that open a comment. -/
theorem not_hasOpenSlashes_of_isPrefix {previous : Option Char} {body rest : List Char}
    (hquotes : '"' ∉ body ∧ '\'' ∉ body) (hmarks : ¬ ['/', '*'] <:+: body)
    (hslash : rest.head? ≠ some '/') (hstar : rest.head? ≠ some '*')
    (h : body <+: blockCommentsFrom (.code (previous.all opensLineComment)) (body ++ rest)) :
    ¬ HasOpenSlashes previous body := by
  induction body generalizing previous with
  | nil =>
      rintro ⟨front, back, hbody, -⟩
      simp at hbody
  | cons c cs ih =>
      obtain ⟨hdouble, hsingle⟩ := hquotes
      rw [List.mem_cons, not_or] at hdouble hsingle
      rw [hasOpenSlashes_cons]
      by_cases hpair : c = '/' ∧ cs.head? = some '/' ∧ ∀ d ∈ previous, opensLineComment d = true
      · -- the second slash is written as a star
        obtain ⟨rfl, hhead, hopens⟩ := hpair
        obtain ⟨more, rfl⟩ := List.head?_eq_some_iff.mp hhead
        have hall : previous.all opensLineComment = true := by
          rw [Option.all_eq_true]
          exact hopens
        rw [hall] at h
        obtain ⟨_, hwritten⟩ := (List.prefix_cons_inj '/').mp h
        cases hwritten
      · have hbegins : Begins previous (.code c) (cs ++ rest) := by
          refine .code (Ne.symm hdouble.1) (Ne.symm hsingle.1) ?_ ?_
          · rintro rfl hhead
            obtain ⟨more, rfl⟩ := List.head?_eq_some_iff.mp (head?_of_append hstar hhead)
            exact hmarks ⟨[], more, rfl⟩
          · rintro rfl hhead
            have hprevious := fun hopens => hpair ⟨rfl, head?_of_append hslash hhead, hopens⟩
            simpa using hprevious
        have hwritten :
            blockCommentsFrom (.code (previous.all opensLineComment)) (c :: cs ++ rest) =
            c :: blockCommentsFrom (.code (opensLineComment c)) (cs ++ rest) :=
          hbegins.blockCommentsFrom_eq
        rw [hwritten] at h
        refine not_or.mpr ⟨hpair, ih ⟨hdouble.2, hsingle.2⟩ ?_ ((List.prefix_cons_inj c).mp h)⟩
        exact fun hinside => hmarks (hinside.trans (List.suffix_cons c cs).isInfix)

/-! ## What is kept -/

/-- **Line comments are rewritten, and all else is kept.** Every text is divided into strings, block
comments, line comments and characters of code in exactly one way. What is written is the text with
each line comment in new marks and everything else as it is, in order. What stands between brackets,
those of a URL among them, is kept if no blank, comma, semicolon or curly bracket in it stands right
before two slashes; without quotes and block comments in it, only then. -/
theorem line_comments_only (text : List Char) :
    ∃ ps, Divides none text ps ∧ (∀ qs, Divides none text qs → qs = ps) ∧
      ps.flatMap Passage.source = text ∧
      withBlockComments text = ps.flatMap Passage.written ∧
      ∀ before body rest after, ps = before ++ .code '(' :: after →
        after.flatMap Passage.source = body ++ ')' :: rest →
        (¬ HasOpenSlashes (some '(') body →
          before.flatMap Passage.written ++ '(' :: body <+: withBlockComments text) ∧
        ('"' ∉ body ∧ '\'' ∉ body → ¬ ['/', '*'] <:+: body →
          before.flatMap Passage.written ++ '(' :: body <+: withBlockComments text →
          ¬ HasOpenSlashes (some '(') body) := by
  obtain ⟨ps, hdivides⟩ := exists_divides none text
  have hwritten : withBlockComments text = ps.flatMap Passage.written :=
    hdivides.blockCommentsFrom_eq
  refine ⟨ps, hdivides, fun qs hqs => hqs.unique hdivides, hdivides.flatMap_source, hwritten, ?_⟩
  rintro before body rest after rfl hafter
  have hrest := hdivides.of_append
  rw [hafter] at hrest
  have hbehind : after.flatMap Passage.written = blockCommentsFrom (.code false) (body ++
      ')' :: rest) :=
    hrest.blockCommentsFrom_eq.symm
  have hkept : before.flatMap Passage.written ++ '(' :: body <+: withBlockComments text ↔
      body <+: blockCommentsFrom (.code false) (body ++ ')' :: rest) := by
    rw [hwritten, List.flatMap_append, List.flatMap_cons, hbehind, List.prefix_append_right_inj]
    exact List.prefix_cons_inj '('
  rw [hkept]
  constructor
  · exact isPrefix_blockCommentsFrom ⟨rfl, nofun, nofun⟩
  · intro hquotes hmarks
    show body <+: blockCommentsFrom (.code ((some '(').all opensLineComment)) _ → _
    exact not_hasOpenSlashes_of_isPrefix hquotes hmarks (by simp) (by simp)

/-- The slashes of a string are kept. Those of a URL that a blank precedes are not. -/
theorem line_comments_only_spacedUrl :
    withBlockComments "\"//\"url( //c)".toList = "\"//\"url( /*c)*/".toList ∧
      ¬ "\"//\"url( //c".toList <+: withBlockComments "\"//\"url( //c)".toList := by
  have hstring : Quoted '"' true ['/', '/', '"'] :=
    .plain (by decide) (by decide) (by decide) (.plain (by decide) (by decide) (by decide) .quote)
  have hline : Begins (some ' ') (.line ['c', ')']) [] :=
    .line (by simp [opensLineComment]) (by decide) (by simp)
  have hdivides : Divides none ['"', '/', '/', '"', 'u', 'r', 'l', '(', ' ', '/', '/', 'c', ')']
      ([.string ['"', '/', '/', '"'], .code 'u', .code 'r', .code 'l'] ++
        .code '(' :: [.code ' ', .line ['c', ')']]) :=
    .cons (.string (.inl rfl) hstring nofun) <|
      .cons (.code (by decide) (by decide) (by decide) (by simp)) <|
      .cons (.code (by decide) (by decide) (by decide) (by simp)) <|
      .cons (.code (by decide) (by decide) (by decide) (by simp)) <|
      .cons (.code (by decide) (by decide) (by decide) (by simp)) <|
      .cons (.code (by decide) (by decide) (by decide) (by simp)) <|
      .cons hline (.nil _)
  obtain ⟨ps, -, hunique, -, hwritten, hbrackets⟩ := line_comments_only "\"//\"url( //c)".toList
  obtain rfl := hunique _ hdivides
  refine ⟨hwritten, fun hkept => ?_⟩
  refine (hbrackets _ " //c".toList [] _ rfl rfl).2 (by decide) (by decide) hkept ?_
  exact ⟨[' '], ['c'], rfl, by simp [opensLineComment]⟩

end TokenCatalog.Stylesheet
