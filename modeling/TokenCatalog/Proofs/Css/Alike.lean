import TokenCatalog.Proofs.Css.Scanners

/-!
# What a scan depends on

A scan depends on the characters that it takes and on little of what stands behind them: whether
that could go on with a name or an escape, how it looks after blanks, and, for the kind of the
token, a few characters more. Main statements:

* `Alike`: two texts that a scan which ends in front of them cannot tell apart;
* `SameStart`: two texts that begin alike as far as the kind of the first token goes;
* `scan_alike`: a scan that ends in front of one of two texts alike is the same before the other.
-/

namespace TokenCatalog.Css

/-! ## Texts alike -/

/-- Two texts that a scan which ends in front of them cannot tell apart: they go on with a number, a
name, an escape or an argument alike, or do not. -/
structure Alike (rest rest' : List Char) : Prop where
  space : rest'.head?.any isSpace = rest.head?.any isSpace
  hex : rest'.head?.any Text.isHex = rest.head?.any Text.isHex
  nameChar : rest'.head?.any isNameChar = rest.head?.any isNameChar
  escape : startsEscape rest' = startsEscape rest
  percent : rest'.head? = some '%' ↔ rest.head? = some '%'
  opening : rest'.head? = some '(' ↔ rest.head? = some '('
  quoted : opensQuote rest' = opensQuote rest

/-- Texts that begin with the same character are alike, unless that begins an escape or is a
blank. -/
theorem alike_cons {c : Char} (hslash : c ≠ '\\') (hspace : isSpace c = false)
    (cs cs' : List Char) : Alike (c :: cs) (c :: cs') where
  space := rfl
  hex := rfl
  nameChar := rfl
  escape := by rw [startsEscape_cons, startsEscape_cons, beq_false_of_ne hslash]; rfl
  percent := Iff.rfl
  opening := Iff.rfl
  quoted := by
    have hnone : ∀ xs : List Char, (c :: xs).takeWhile isSpace = [] := fun xs =>
      List.takeWhile_cons_of_neg (Bool.eq_false_iff.mp hspace)
    rw [opensQuote, opensQuote, hnone, hnone]
    rfl

/-- Two texts that begin alike behind a character, as far as the kind of the token goes that it
begins. -/
structure SameStart (c : Char) (cs cs' : List Char) : Prop where
  range : startsRange (c :: cs') = startsRange (c :: cs)
  ends : startsRange (c :: cs) = true → takeRange (cs'.drop 1) = takeRange (cs.drop 1)
  arrow : (c :: cs').take 3 = "-->".toList ↔ (c :: cs).take 3 = "-->".toList
  ident : startsIdent (c :: cs') = startsIdent (c :: cs)
  numeral : takeNumeral (c :: cs') = takeNumeral (c :: cs)
  unit : takeNumeral (c :: cs) ≠ [] →
    startsIdent ((c :: cs').drop (takeNumeral (c :: cs)).length) =
      startsIdent ((c :: cs).drop (takeNumeral (c :: cs)).length)
  keyword : c = '@' → startsIdent cs' = startsIdent cs
  hash : c = '#' → startsIdent cs' = startsIdent cs ∧ startsEscape cs' = startsEscape cs
  mark : ∀ mark ∈ ["=", "*", "|", "!--"], mark.toList <+: cs' ↔ mark.toList <+: cs

/-! ## Pieces in front of a text -/

section

variable {rest rest' : List Char}

section

variable {p : Char → Bool} (hp : rest'.head?.any p = rest.head?.any p)

include hp

theorem any_head?_append (s : List Char) :
    (s ++ rest').head?.any p = (s ++ rest).head?.any p := by
  cases s with
  | nil => exact hp
  | cons c s => rfl

theorem any_getElem?_append {s : List Char} {n : Nat} (hle : n ≤ s.length) :
    ((s ++ rest')[n]?).any p = ((s ++ rest)[n]?).any p := by
  have hdrop := any_head?_append hp (s.drop n)
  rwa [← List.drop_append_of_le_length hle, ← List.drop_append_of_le_length hle, List.head?_drop,
    List.head?_drop] at hdrop

/-- A run that ends in front of a text ends there too if the text cannot go on with it either. -/
theorem takeWhile_append (s : List Char)
    (hle : ((s ++ rest).takeWhile p).length ≤ s.length) :
    (s ++ rest').takeWhile p = (s ++ rest).takeWhile p := by
  induction s with
  | nil =>
      have hrest : rest.takeWhile p = [] := List.length_eq_zero_iff.mp (Nat.le_zero.mp hle)
      have hhead : rest.head?.any p = false := by
        cases rest with
        | nil => rfl
        | cons c cs =>
            refine Bool.eq_false_iff.mpr fun hc : p c = true => ?_
            rw [List.takeWhile_cons_of_pos hc] at hrest
            cases hrest
      rw [List.nil_append, List.nil_append, hrest]
      rw [hhead] at hp
      cases rest' with
      | nil => rfl
      | cons c cs => exact List.takeWhile_cons_of_neg (Bool.eq_false_iff.mp hp)
  | cons c s ih =>
      rw [List.cons_append, List.takeWhile_cons] at hle ⊢
      rw [List.cons_append, List.takeWhile_cons]
      split
      · next hc =>
          rw [if_pos hc] at hle
          rw [ih (Nat.le_of_succ_le_succ hle)]
      · rfl

theorem takeWhile_take_append (n : Nat) (s : List Char)
    (hle : (((s ++ rest).take n).takeWhile p).length ≤ s.length) :
    ((s ++ rest').take n).takeWhile p = ((s ++ rest).take n).takeWhile p := by
  have htake : (rest'.take (n - s.length)).head?.any p =
      (rest.take (n - s.length)).head?.any p := by
    cases n - s.length with
    | zero => rfl
    | succ k => rwa [List.head?_take, List.head?_take]
  rw [List.take_append, List.take_append] at *
  by_cases hn : n ≤ s.length
  · rw [Nat.sub_eq_zero_of_le hn, List.take_zero, List.take_zero]
  · rw [List.take_of_length_le (Nat.le_of_not_le hn)] at hle ⊢
    exact takeWhile_append htake s hle

end

/-- The first character of a text stands in a piece in front that is not empty. -/
theorem exists_of_append_eq {c : Char} {s rest cs : List Char} (h : s ++ rest = c :: cs)
    (hs : 0 < s.length) : ∃ s', s = c :: s' ∧ s' ++ rest = cs := by
  obtain ⟨d, s, rfl⟩ := List.exists_cons_of_ne_nil (List.length_pos_iff.mp hs)
  obtain ⟨rfl, rfl⟩ := List.cons.inj h
  exact ⟨s, rfl, rfl⟩

/-- Behind a piece that is not empty, escapes begin alike. -/
theorem startsEscape_append_of_ne_nil (rest rest' : List Char) (c : Char) {s : List Char}
    (hs : s ≠ []) :
    startsEscape (c :: (s ++ rest')) = startsEscape (c :: (s ++ rest)) := by
  obtain ⟨d, s, rfl⟩ := List.exists_cons_of_ne_nil hs
  rw [startsEscape_cons, startsEscape_cons]
  rfl

/-- Behind a piece that is not empty, two characters begin a text alike. -/
theorem not_begins_alike {c a b : Char} {s : List Char} (hs : s ≠ [])
    (hopen : ∀ more, c = a → s ++ rest = b :: more → False) :
    ∀ more, c = a → s ++ rest' = b :: more → False := by
  intro more hc hmore
  obtain ⟨d, s, rfl⟩ := List.exists_cons_of_ne_nil hs
  obtain ⟨rfl, -⟩ := List.cons.inj hmore
  exact hopen (s ++ rest) hc rfl

/-! ## What ends by itself -/

section

variable (hne : rest ≠ [])

include hne

/-- What takes a piece of a text and nothing behind it, but something of every text that is not
empty, takes a piece that is not empty. -/
theorem ne_nil_of_takes {f : List Char → Nat} (hpos : ∀ c cs, 0 < f (c :: cs)) {s : List Char}
    (hle : f (s ++ rest) ≤ s.length) : s ≠ [] := by
  rintro rfl
  obtain ⟨c, cs, rfl⟩ := List.exists_cons_of_ne_nil hne
  exact absurd hle (Nat.not_le.mpr (hpos c cs))

/-- What is left of a faulty URL ends at its bracket, whatever follows. -/
theorem skipUrl_alike {s : List Char} (hsize : skipUrl (s ++ rest) = s.length) :
    skipUrl (s ++ rest') = skipUrl (s ++ rest) := by
  generalize hcs : s ++ rest = cs at hsize ⊢
  induction cs using skipUrl.induct generalizing s with
  | case1 => exact absurd (List.append_eq_nil_iff.mp hcs).2 hne
  | case2 cs ih =>
      rw [skipUrl] at hsize ⊢
      rcases s with _ | ⟨d, _ | ⟨e, s⟩⟩
      · cases hsize
      · cases hsize
      · rw [List.cons_append, List.cons_append, List.cons.injEq, List.cons.injEq] at hcs
        obtain ⟨rfl, rfl, rfl⟩ := hcs
        rw [List.cons_append, List.cons_append, skipUrl, ih rfl (Nat.add_right_cancel hsize)]
  | case3 cs hopen =>
      rw [skipUrl.eq_3 _ _ hopen, if_pos rfl] at hsize ⊢
      obtain ⟨d, rfl⟩ := List.length_eq_one_iff.mp hsize.symm
      obtain ⟨rfl, -⟩ := List.cons.inj hcs
      rw [List.singleton_append, skipUrl.eq_3 _ _ (fun _ h => by cases h), if_pos rfl]
  | case4 c cs hopen hclose ih =>
      rw [skipUrl.eq_3 _ _ hopen, if_neg hclose] at hsize ⊢
      obtain ⟨s, rfl, rfl⟩ := exists_of_append_eq hcs (hsize ▸ Nat.succ_pos _)
      have hsize := Nat.succ.inj hsize
      have hs := ne_nil_of_takes hne (f := skipUrl) skipUrl_pos (Nat.le_of_eq hsize)
      rw [List.cons_append, skipUrl.eq_3 _ _ (not_begins_alike hs hopen), if_neg hclose,
        ih rfl hsize]

/-- A comment that ends in front of a text ends there in front of any other. -/
theorem takeComment_alike {s : List Char}
    (hsize : (takeComment (s ++ rest)).1.length + (if (takeComment (s ++ rest)).2 then 2 else 0) =
      s.length) : takeComment (s ++ rest') = takeComment (s ++ rest) := by
  generalize hcs : s ++ rest = cs at hsize ⊢
  induction cs using takeComment.induct generalizing s with
  | case1 => exact absurd (List.append_eq_nil_iff.mp hcs).2 hne
  | case2 cs =>
      rcases s with _ | ⟨d, _ | ⟨e, s⟩⟩
      · cases hsize
      · cases hsize
      · rw [List.cons_append, List.cons_append, List.cons.injEq, List.cons.injEq] at hcs
        obtain ⟨rfl, rfl, rfl⟩ := hcs
        rfl
  | case3 c cs hopen text closed hrest ih =>
      rw [takeComment.eq_3 _ _ hopen] at hsize ⊢
      dsimp only at hsize
      rw [List.length_cons, Nat.add_right_comm] at hsize
      obtain ⟨s, rfl, rfl⟩ := exists_of_append_eq hcs (hsize ▸ Nat.succ_pos _)
      have hsize := Nat.succ.inj hsize
      have hs := ne_nil_of_takes hne
        (f := fun cs => (takeComment cs).1.length + if (takeComment cs).2 then 2 else 0)
        takeComment_pos (Nat.le_of_eq hsize)
      rw [List.cons_append, takeComment.eq_3 _ _ (not_begins_alike hs hopen), ih rfl hsize]

end

section

variable (h : Alike rest rest') (hne : rest ≠ [])

include h hne

/-! ## Names, strings and URLs -/

theorem takeEscape_alike {s : List Char} (hle : (takeEscape (s ++ rest)).2 ≤ s.length) :
    takeEscape (s ++ rest') = takeEscape (s ++ rest) := by
  cases s with
  | nil =>
      obtain ⟨c, cs, rfl⟩ := List.exists_cons_of_ne_nil hne
      exact absurd hle (Nat.not_le.mpr (takeEscape_pos c cs))
  | cons c s =>
      have hlength : (((c :: s ++ rest).take 6).takeWhile Text.isHex).length ≤ (c :: s).length := by
        refine Nat.le_trans ?_ hle
        unfold takeEscape
        dsimp only
        split
        · next hempty => rw [List.isEmpty_iff.mp hempty]; exact Nat.zero_le _
        · exact Nat.le_add_right _ _
      have hdigits := takeWhile_take_append h.hex 6 (c :: s) hlength
      have hblank := any_getElem?_append h.space hlength
      rw [List.cons_append] at hdigits hblank ⊢
      rw [List.cons_append] at hdigits hblank ⊢
      simp only [takeEscape, hdigits, hblank]

/-- A name that ends in front of one of two texts alike ends in front of the other. -/
theorem takeName_alike {s : List Char} (hsize : (takeName (s ++ rest)).2 = s.length) :
    takeName (s ++ rest') = takeName (s ++ rest) := by
  generalize hcs : s ++ rest = cs at hsize ⊢
  induction cs using takeName.induct generalizing s with
  | case1 => exact absurd (List.append_eq_nil_iff.mp hcs).2 hne
  | case2 c cs hname _ _ _ ih =>
      rw [takeName_name hname] at hsize ⊢
      obtain ⟨s, rfl, rfl⟩ := exists_of_append_eq hcs (hsize ▸ Nat.succ_pos _)
      rw [List.cons_append, takeName_name hname, ih rfl (Nat.succ.inj hsize)]
  | case3 c cs hname hescape e k hek _ _ _ ih =>
      have hname := Bool.eq_false_iff.mpr hname
      rw [takeName_escape hname hescape, hek] at hsize ⊢
      obtain ⟨s, rfl, rfl⟩ := exists_of_append_eq hcs (hsize ▸ Nat.succ_pos _)
      have hin : (takeEscape (s ++ rest)).2 ≤ s.length := by
        rw [hek]
        rw [List.length_cons] at hsize
        omega
      have hs := ne_nil_of_takes hne (f := fun cs => (takeEscape cs).2) takeEscape_pos hin
      have hsame := takeEscape_alike h hne hin
      have hescape' := (startsEscape_append_of_ne_nil rest rest' c hs).trans hescape
      rw [hek] at hin hsame
      rw [List.drop_append_of_le_length hin] at hsize ih ⊢
      rw [List.cons_append, takeName_escape hname hescape', hsame,
        List.drop_append_of_le_length hin, ih rfl]
      rw [List.length_cons] at hsize
      rw [List.length_drop]
      dsimp only at hsize ⊢
      omega
  | case4 c cs hname hescape =>
      have hname := Bool.eq_false_iff.mpr hname
      have hescape := Bool.eq_false_iff.mpr hescape
      rw [takeName_other hname hescape] at hsize ⊢
      obtain rfl := List.length_eq_zero_iff.mp hsize.symm
      obtain rfl : rest = c :: cs := hcs
      cases rest' with
      | nil => rw [List.append_nil, takeName]
      | cons d ds =>
          have hd : isNameChar d = false := h.nameChar.trans hname
          exact takeName_other hd (h.escape.trans hescape)

/-- A string that ends in front of one of two texts alike ends in front of the other; one that a
line end cuts off needs the line end there too. -/
theorem takeString_alike {quote : Char} (hquote : '\\' ≠ quote) {s : List Char}
    (hsize : (takeString quote (s ++ rest)).size = s.length)
    (hline : (takeString quote (s ++ rest)).ending = .fault →
      rest.head? = some '\n' → rest'.head? = some '\n') :
    takeString quote (s ++ rest') = takeString quote (s ++ rest) := by
  generalize hcs : s ++ rest = cs at hsize hline ⊢
  induction cs using takeString.induct quote generalizing s with
  | case1 => exact absurd (List.append_eq_nil_iff.mp hcs).2 hne
  | case2 cs =>
      rw [takeString_closed] at hsize ⊢
      obtain ⟨d, rfl⟩ := List.length_eq_one_iff.mp hsize.symm
      obtain ⟨rfl, -⟩ := List.cons.inj hcs
      exact takeString_closed rest'
  | case3 =>
      rw [takeString.eq_def] at hsize
      simp only [hquote, if_true, if_false] at hsize
      obtain ⟨d, rfl⟩ := List.length_eq_one_iff.mp hsize.symm
      exact absurd (List.cons.inj hcs).2 hne
  | case4 cs _ ih =>
      rw [takeString_escapedLine _ hquote] at hsize hline ⊢
      match s with
      | [] => cases hsize
      | [_] => cases hsize
      | d :: e :: s =>
          rw [List.cons_append, List.cons_append, List.cons.injEq, List.cons.injEq] at hcs
          obtain ⟨rfl, rfl, rfl⟩ := hcs
          rw [List.cons_append, List.cons_append, takeString_escapedLine _ hquote,
            ih rfl (Nat.add_right_cancel hsize) hline]
  | case5 c cs hc e k hek _ ih =>
      rw [takeString_escape _ hquote hc] at hsize hline ⊢
      rw [hek] at hsize hline ⊢
      have hpos := takeEscape_pos c cs
      rw [hek] at hpos
      match s with
      | [] => cases hsize
      | [_] =>
          simp only [Quoted.after, List.length_singleton] at hsize hpos
          omega
      | d :: d' :: s =>
          rw [List.cons_append, List.cons_append, List.cons.injEq, List.cons.injEq] at hcs
          obtain ⟨rfl, rfl, rfl⟩ := hcs
          have hin : (takeEscape (d' :: s ++ rest)).2 ≤ (d' :: s).length := by
            rw [List.cons_append, hek]
            simp only [Quoted.after, List.length_cons] at hsize ⊢
            omega
          have hsame := takeEscape_alike h hne hin
          rw [List.cons_append, hek] at hin
          rw [List.cons_append, List.cons_append, hek] at hsame
          rw [← List.cons_append, List.drop_append_of_le_length hin] at hsize hline ih ⊢
          rw [List.cons_append, List.cons_append]
          rw [takeString_escape _ hquote hc, hsame, ← List.cons_append,
            List.drop_append_of_le_length hin, ih rfl _ hline]
          simp only [Quoted.after, List.length_cons, List.length_drop] at hsize ⊢
          omega
  | case6 cs hquote' _ =>
      rw [takeString_line _ hquote'] at hsize hline ⊢
      obtain rfl := List.length_eq_zero_iff.mp hsize.symm
      obtain rfl : rest = '\n' :: cs := hcs
      obtain ⟨xs, rfl⟩ := List.head?_eq_some_iff.mp (hline rfl rfl)
      exact takeString_line xs hquote'
  | case7 c cs hc hslash hl ih =>
      rw [takeString_plain _ hc hslash hl] at hsize hline ⊢
      obtain ⟨s, rfl, rfl⟩ := exists_of_append_eq hcs (hsize ▸ Nat.succ_pos _)
      rw [List.cons_append, takeString_plain _ hc hslash hl,
        ih rfl (Nat.add_right_cancel hsize) hline]

/-- A name that ends in front of one of two texts alike begins with an escape before both or
neither. -/
theorem startsEscape_alike {s : List Char} (hsize : (takeName (s ++ rest)).2 = s.length) :
    startsEscape (s ++ rest') = startsEscape (s ++ rest) := by
  cases s with
  | nil => exact h.escape
  | cons c s =>
      have hsame := takeName_alike h hne hsize
      rw [List.cons_append] at hsize hsame ⊢
      rw [List.cons_append] at hsame ⊢
      by_cases hc : c = '\\'
      · have hslash : isNameChar '\\' = false := by decide
        subst hc
        -- a backslash is of a name only where it begins an escape
        have hescape : ∀ xs, (takeName ('\\' :: xs)).2 ≠ 0 → startsEscape ('\\' :: xs) = true := by
          intro xs hxs
          refine Bool.not_eq_false _ ▸ fun hnone => hxs ?_
          rw [takeName_other hslash hnone]
        rw [hescape _ (by rw [hsame, hsize]; exact Nat.succ_ne_zero _),
          hescape _ (by rw [hsize]; exact Nat.succ_ne_zero _)]
      · rw [startsEscape_cons, startsEscape_cons, beq_false_of_ne hc]
        rfl

/-- A name that ends in front of one of two texts alike begins an identifier before both or
neither. -/
theorem startsIdent_alike {s : List Char} (hsize : (takeName (s ++ rest)).2 = s.length) :
    startsIdent (s ++ rest') = startsIdent (s ++ rest) := by
  have hescape := startsEscape_alike h hne hsize
  have hsame := takeName_alike h hne hsize
  cases s with
  | nil =>
      have hnone : ∀ xs, (takeName xs).2 = 0 → startsIdent xs = false := fun xs hxs =>
        Bool.eq_false_iff.mpr fun hstarts => absurd (takeName_pos hstarts) (by rw [hxs]; decide)
      rw [hnone _ hsize, hnone _ (hsame ▸ hsize)]
  | cons c s =>
      rw [List.cons_append] at hescape hsize ⊢
      rw [List.cons_append] at hescape ⊢
      rw [startsIdent_cons, startsIdent_cons, hescape]
      split
      · next hc =>
          subst hc
          rw [takeName_name (by decide)] at hsize
          have hsize := Nat.succ.inj hsize
          rw [startsEscape_alike h hne hsize]
          refine congrArg (· || _) ?_
          cases s with
          | cons d s => rfl
          | nil =>
              have hend := not_isNameChar_of_takeName hsize
              rw [List.nil_append] at hend
              rw [List.nil_append, List.nil_append, any_isNameStart_eq_false hend,
                any_isNameStart_eq_false (h.nameChar.trans hend)]
      · rfl

theorem takeUrl_space_alike {c : Char} (hspace : isSpace c = true) {s : List Char}
    (hsize : (takeUrl (c :: (s ++ rest))).size = s.length + 1) :
    takeUrl (c :: (s ++ rest')) = takeUrl (c :: (s ++ rest)) := by
  rw [takeUrl_space hspace] at hsize ⊢
  rw [takeUrl_space hspace]
  -- something follows the blanks, and the piece holds it
  have hlt : ((s ++ rest).takeWhile isSpace).length < s.length := by
    refine Nat.lt_of_not_le fun hge => ?_
    cases hdrop : (s ++ rest).drop ((s ++ rest).takeWhile isSpace).length with
    | nil =>
        have hall := List.drop_eq_nil_iff.mp hdrop
        have hpos := List.length_pos_iff.mpr hne
        rw [hdrop, urlAfterBlanks] at hsize
        rw [List.length_append] at hall
        dsimp only at hsize
        omega
    | cons d xs =>
        have hsize' := lt_size_urlAfterBlanks ((s ++ rest).takeWhile isSpace).length d xs
        rw [hdrop] at hsize
        omega
  have hle := Nat.le_of_lt hlt
  rw [takeWhile_append h.space s hle]
  rw [List.drop_append_of_le_length hle] at hsize ⊢
  rw [List.drop_append_of_le_length hle]
  cases hdrop : s.drop ((s ++ rest).takeWhile isSpace).length with
  | nil => exact absurd (List.drop_eq_nil_iff.mp hdrop) (Nat.not_le.mpr hlt)
  | cons d s' =>
      rw [hdrop, List.cons_append] at hsize
      rw [List.cons_append, List.cons_append]
      by_cases hclose : d = ')'
      · subst hclose
        rfl
      · rw [urlAfterBlanks_cons _ hclose] at hsize ⊢
        rw [urlAfterBlanks_cons _ hclose, ← List.cons_append, ← List.cons_append, skipUrl_alike hne]
        rw [List.cons_append, ← hdrop, List.length_drop]
        dsimp only at hsize
        omega

/-- A URL that ends in front of one of two texts alike ends in front of the other. -/
theorem takeUrl_alike {s : List Char} (hsize : (takeUrl (s ++ rest)).size = s.length) :
    takeUrl (s ++ rest') = takeUrl (s ++ rest) := by
  generalize hcs : s ++ rest = cs at hsize ⊢
  induction cs using takeUrl.induct generalizing s with
  | case1 => exact absurd (List.append_eq_nil_iff.mp hcs).2 hne
  | case2 cs =>
      obtain ⟨s, rfl, rfl⟩ := exists_of_append_eq hcs (hsize ▸ takeUrl_pos _ _)
      exact takeUrl_closed.trans takeUrl_closed.symm
  | case3 c cs _ hspace _ =>
      obtain ⟨s, rfl, rfl⟩ := exists_of_append_eq hcs (hsize ▸ takeUrl_pos _ _)
      exact takeUrl_space_alike h hne hspace hsize
  | case4 c cs _ hspace _ _ =>
      obtain ⟨s, rfl, rfl⟩ := exists_of_append_eq hcs (hsize ▸ takeUrl_pos _ _)
      exact takeUrl_space_alike h hne hspace hsize
  | case5 c cs _ hspace _ _ =>
      obtain ⟨s, rfl, rfl⟩ := exists_of_append_eq hcs (hsize ▸ takeUrl_pos _ _)
      exact takeUrl_space_alike h hne hspace hsize
  -- an escape ends in front of the tail as well, so that it is the same in front of the other one
  | case6 c cs hclose hspace hescape e k hek ih =>
      obtain ⟨s, rfl, rfl⟩ := exists_of_append_eq hcs (hsize ▸ takeUrl_pos _ _)
      have hspace := Bool.eq_false_iff.mpr hspace
      rw [takeUrl_escape hclose hspace hescape, hek] at hsize ⊢
      have hin : (takeEscape (s ++ rest)).2 ≤ s.length := by
        rw [hek]
        simp only [Quoted.after, List.length_cons] at hsize
        omega
      have hs := ne_nil_of_takes hne (f := fun cs => (takeEscape cs).2) takeEscape_pos hin
      have hsame := takeEscape_alike h hne hin
      have hescape' := (startsEscape_append_of_ne_nil rest rest' c hs).trans hescape
      rw [hek] at hin hsame
      rw [List.drop_append_of_le_length hin] at hsize ih ⊢
      rw [List.cons_append, takeUrl_escape hclose hspace hescape', hsame,
        List.drop_append_of_le_length hin, ih rfl]
      simp only [Quoted.after, List.length_cons, List.length_drop] at hsize ⊢
      omega
  | case7 c cs hclose hspace hescape hfault =>
      obtain ⟨s, rfl, rfl⟩ := exists_of_append_eq hcs (hsize ▸ takeUrl_pos _ _)
      have hspace := Bool.eq_false_iff.mpr hspace
      have hescape := Bool.eq_false_iff.mpr hescape
      rw [takeUrl_fault hclose hspace hescape hfault] at hsize ⊢
      have hsize := Nat.succ.inj hsize
      have hs := ne_nil_of_takes hne (f := skipUrl) skipUrl_pos (Nat.le_of_eq hsize)
      have hescape' := (startsEscape_append_of_ne_nil rest rest' c hs).trans hescape
      rw [List.cons_append, takeUrl_fault hclose hspace hescape' hfault, skipUrl_alike hne hsize]
  | case8 c cs hclose hspace hescape hfault ih =>
      obtain ⟨s, rfl, rfl⟩ := exists_of_append_eq hcs (hsize ▸ takeUrl_pos _ _)
      have hspace := Bool.eq_false_iff.mpr hspace
      have hescape := Bool.eq_false_iff.mpr hescape
      have hfault := Bool.eq_false_iff.mpr hfault
      rw [takeUrl_plain hclose hspace hescape hfault] at hsize ⊢
      have hsize := Nat.succ.inj hsize
      have hs := ne_nil_of_takes hne (f := fun cs => (takeUrl cs).size) takeUrl_pos
          (Nat.le_of_eq hsize)
      have hescape' := (startsEscape_append_of_ne_nil rest rest' c hs).trans hescape
      rw [List.cons_append, takeUrl_plain hclose hspace hescape' hfault, ih rfl hsize]

/-! ## Tokens -/

theorem scanUrl_alike (n : Nat) {s : List Char}
    (hsize : (scanUrl n (s ++ rest)).more = n + s.length) :
    scanUrl n (s ++ rest') = scanUrl n (s ++ rest) ∧
      opensQuote (s ++ rest') = opensQuote (s ++ rest) := by
  rw [more_scanUrl] at hsize
  -- the address begins behind the blanks and within the piece
  have hlt : ((s ++ rest).takeWhile isSpace).length < s.length := by
    cases hdrop : (s ++ rest).drop ((s ++ rest).takeWhile isSpace).length with
    | nil =>
        have hall := List.drop_eq_nil_iff.mp hdrop
        have hpos := List.length_pos_iff.mpr hne
        rw [hdrop, takeUrl] at hsize
        rw [List.length_append] at hall
        dsimp only at hsize
        omega
    | cons c cs =>
        have hpos := takeUrl_pos c cs
        rw [hdrop] at hsize
        omega
  have hle := Nat.le_of_lt hlt
  have hblanks := takeWhile_append h.space s hle
  have hurl : takeUrl (s.drop ((s ++ rest).takeWhile isSpace).length ++ rest') =
      takeUrl (s.drop ((s ++ rest).takeWhile isSpace).length ++ rest) := by
    refine takeUrl_alike h hne ?_
    rw [List.drop_append_of_le_length hle] at hsize
    rw [List.length_drop]
    omega
  constructor
  · unfold scanUrl
    dsimp only
    rw [hblanks, List.drop_append_of_le_length hle, List.drop_append_of_le_length hle, hurl]
  · rw [opensQuote, opensQuote, hblanks, List.drop_append_of_le_length hle,
      List.drop_append_of_le_length hle]
    cases hdrop : s.drop ((s ++ rest).takeWhile isSpace).length with
    | nil => exact absurd (List.drop_eq_nil_iff.mp hdrop) (Nat.not_le.mpr hlt)
    | cons c s' => rfl

theorem scanFunction_alike (name : List Char) (n : Nat) {s : List Char}
    (hsize : (scanFunction name n (s ++ rest)).more = n + s.length) :
    scanFunction name n (s ++ rest') = scanFunction name n (s ++ rest) := by
  rw [scanFunction_eq] at hsize ⊢
  rw [scanFunction_eq]
  split at hsize
  · next hurl =>
      obtain ⟨hsame, hquoted⟩ := scanUrl_alike h hne n hsize
      rw [hquoted, if_pos hurl, if_pos hurl, hsame]
  · next hurl =>
      obtain rfl : s = [] := List.length_eq_zero_iff.mp (Nat.add_eq_left.mp hsize.symm)
      have hquoted : opensQuote ([] ++ rest') = opensQuote ([] ++ rest) := h.quoted
      rw [hquoted, if_neg hurl, if_neg hurl]

theorem scanString_alike {quote : Char} (hquote : '\\' ≠ quote) {s : List Char}
    (hsize : (scanString quote (s ++ rest)).more = s.length)
    (hline : (scanString quote (s ++ rest)).lexemes = [.leaf (.fault .badString)] →
      rest.head? = some '\n' → rest'.head? = some '\n') :
    scanString quote (s ++ rest') = scanString quote (s ++ rest) := by
  have hmore : (scanString quote (s ++ rest)).more = (takeString quote (s ++ rest)).size := by
    unfold scanString
    dsimp only
    split <;> rfl
  rw [hmore] at hsize
  unfold scanString
  rw [takeString_alike h hne hquote hsize]
  intro hfault
  refine hline ?_
  unfold scanString
  dsimp only
  rw [hfault]
  rfl

theorem scanNumeric_alike {text : List Char} (htext : text ≠ []) {s : List Char}
    (hunit : startsIdent (s ++ rest') = startsIdent (s ++ rest))
    (hsize : (scanNumeric text (s ++ rest)).more = text.length - 1 + s.length) :
    scanNumeric text (s ++ rest') = scanNumeric text (s ++ rest) := by
  have hpositive := List.length_pos_iff.mpr htext
  have hpercent : (s ++ rest').head? = some '%' ↔ (s ++ rest).head? = some '%' := by
    cases s with
    | nil => exact h.percent
    | cons c s => exact Iff.rfl
  unfold scanNumeric at hsize ⊢
  rw [hunit]
  simp only [hpercent]
  split at hsize
  · next hident =>
      rw [if_pos hident, if_pos hident, takeName_alike h hne]
      simp only [Scan.one] at hsize
      omega
  · next hident => rw [if_neg hident, if_neg hident]

theorem scanIdent_alike {s : List Char} (hident : startsIdent (s ++ rest) = true)
    (hsize : (scanIdent (s ++ rest)).more + 1 = s.length) :
    scanIdent (s ++ rest') = scanIdent (s ++ rest) := by
  have hpos := takeName_pos hident
  by_cases hopen : ((s ++ rest).drop (takeName (s ++ rest)).2).head? = some '('
  · obtain ⟨r, hr⟩ := List.head?_eq_some_iff.mp hopen
    rw [scanIdent_function hr] at hsize ⊢
    have hlt : (takeName (s ++ rest)).2 < s.length :=
      Nat.lt_of_le_of_lt (le_more_scanFunction _ _ _) (Nat.lt_of_succ_le (Nat.le_of_eq hsize))
    obtain ⟨front, s, rfl, hfront, rfl⟩ : ∃ front s', s = front ++ '(' :: s' ∧
        (takeName (s ++ rest)).2 = front.length ∧ s' ++ rest = r := by
      rw [List.drop_append_of_le_length (Nat.le_of_lt hlt)] at hr
      obtain ⟨s', hs', hr⟩ := exists_of_append_eq hr (by rw [List.length_drop]; omega)
      refine ⟨s.take (takeName (s ++ rest)).2, s', ?_, ?_, hr⟩
      · rw [← hs', List.take_append_drop]
      · rw [List.length_take, Nat.min_eq_left (Nat.le_of_lt hlt)]
    rw [List.append_assoc, List.cons_append] at hfront hsize ⊢
    rw [List.append_assoc, List.cons_append]
    -- what follows the name is its bracket, before either text
    have hname := takeName_alike (alike_cons (by decide) (by decide) (s ++ rest) (s ++ rest'))
      (List.cons_ne_nil _ _) hfront
    rw [scanIdent_function (by rw [hname, hfront, List.drop_left]), hname]
    refine scanFunction_alike h hne _ _ ?_
    rw [List.length_append, List.length_cons] at hsize
    omega
  · rw [scanIdent_name hopen] at hsize ⊢
    have hname : (takeName (s ++ rest)).2 = s.length := by
      simp only [Scan.one] at hsize
      omega
    have hsame := takeName_alike h hne hname
    rw [hname, List.drop_left] at hopen
    rw [scanIdent_name, hsame]
    rw [hsame, hname, List.drop_left]
    exact fun hrest => hopen (h.opening.mp hrest)

/-- A token that is a name behind a mark, where the text goes on so. -/
theorem named_alike (p : Prop) [Decidable p] (leaf : List Char → Leaf) (other : Scan)
    {s : List Char}
    (hsize : (if p then Scan.one (leaf (takeName (s ++ rest)).1) (takeName (s ++ rest)).2
      else other).more = s.length) :
    (if p then Scan.one (leaf (takeName (s ++ rest')).1) (takeName (s ++ rest')).2 else other) =
      if p then Scan.one (leaf (takeName (s ++ rest)).1) (takeName (s ++ rest)).2 else other := by
  by_cases hp : p
  · simp only [if_pos hp, Scan.one] at hsize ⊢
    rw [takeName_alike h hne hsize]
  · rw [if_neg hp, if_neg hp]

theorem scanMark_alike {c : Char} {s : List Char} (hstart : SameStart c (s ++ rest) (s ++ rest'))
    (hsize : (scanMark c (s ++ rest)).more = s.length)
    (hline : (scanMark c (s ++ rest)).lexemes = [.leaf (.fault .badString)] →
      rest.head? = some '\n' → rest'.head? = some '\n') :
    scanMark c (s ++ rest') = scanMark c (s ++ rest) := by
  generalize hcs : s ++ rest = cs at hsize hline hstart
  unfold scanMark at hsize
  split at hsize
  · subst hcs
    simp only [scanMark, hstart.keyword rfl] at hsize ⊢
    exact named_alike h hne _ _ _ hsize
  · subst hcs
    obtain ⟨hident, hescape⟩ := hstart.hash rfl
    have hname := any_head?_append h.nameChar s
    simp only [scanMark, hident, hescape, hname] at hsize ⊢
    exact named_alike h hne _ (Leaf.hash · _) _ hsize
  · rfl
  · rfl
  · rfl
  · rfl
  · rfl
  · rfl
  · subst hcs
    exact scanString_alike h hne (by decide) hsize hline
  · subst hcs
    exact scanString_alike h hne (by decide) hsize hline
  · have hpos : 0 < s.length := by
      simp only [Scan.one] at hsize
      split at hsize <;> omega
    obtain ⟨s, rfl, rfl⟩ := exists_of_append_eq hcs hpos
    have hcomment := @takeComment_alike rest rest' hne s
    simp only [scanMark, Scan.one, List.length_cons, List.cons_append] at hsize ⊢
    rw [hcomment]
    split at hsize <;> simp_all
  · rcases s with _ | ⟨a, _ | ⟨b, _ | ⟨d, _ | ⟨e, s⟩⟩⟩⟩
    · cases hsize
    · cases hsize
    · cases hsize
    · obtain ⟨rfl, rfl, rfl, -⟩ : '!' = a ∧ '-' = b ∧ '-' = d ∧ True := by simp_all
      rfl
    · cases hsize
  · obtain ⟨d, rfl⟩ := List.length_eq_one_iff.mp hsize.symm
    obtain ⟨rfl, -⟩ := List.cons.inj hcs
    rfl
  · obtain ⟨xs, hxs⟩ := (hstart.mark "=" (by simp)).mpr (List.prefix_append ['='] _)
    have hequals : s ++ rest' = '=' :: xs := hxs.symm
    rw [hequals, scanMark, scanMark] <;> assumption
  -- what does not begin the text does not begin a part of it either
  · rename_i hequals hcomment harrow hbar
    rw [scanMark, scanMark] <;> try assumption
    · rintro tail htail
      obtain ⟨xs, hxs⟩ := (hstart.mark "=" (by simp)).mp ⟨tail, htail.symm⟩
      exact hequals xs hxs.symm
    · rintro tail hc htail
      obtain ⟨xs, hxs⟩ := (hstart.mark "*" (by simp)).mp ⟨tail, htail.symm⟩
      exact hcomment xs hc hxs.symm
    · rintro tail hc htail
      obtain ⟨xs, hxs⟩ := (hstart.mark "!--" (by simp)).mp ⟨tail, htail.symm⟩
      exact harrow xs hc hxs.symm
    · rintro tail hc htail
      obtain ⟨xs, hxs⟩ := (hstart.mark "|" (by simp)).mp ⟨tail, htail.symm⟩
      exact hbar xs hc hxs.symm

/-- **A scan that ends in front of one of two texts alike is the same before the other**, if the
token it takes begins alike in both. A string that a line end cuts off needs the line end there
too. -/
theorem scan_alike {c : Char} {s : List Char} (hstart : SameStart c (s ++ rest) (s ++ rest'))
    (hsize : (scan c (s ++ rest)).more = s.length)
    (hline : (scan c (s ++ rest)).lexemes = [.leaf (.fault .badString)] →
      rest.head? = some '\n' → rest'.head? = some '\n') :
    scan c (s ++ rest') = scan c (s ++ rest) := by
  unfold scan at hsize hline ⊢
  rw [hstart.range, hstart.ident, hstart.numeral]
  simp only [hstart.arrow]
  by_cases hspace : isSpace c = true
  · rw [if_pos hspace] at hsize ⊢
    rw [if_pos hspace, takeWhile_append h.space s (Nat.le_of_eq hsize)]
  rw [if_neg hspace] at hsize hline ⊢
  rw [if_neg hspace]
  by_cases hrange : startsRange (c :: (s ++ rest)) = true
  · rw [if_pos hrange, if_pos hrange, hstart.ends hrange]
  rw [if_neg hrange] at hsize hline ⊢
  rw [if_neg hrange]
  by_cases harrow : (c :: (s ++ rest)).take 3 = "-->".toList
  · rw [if_pos harrow, if_pos harrow]
  rw [if_neg harrow] at hsize hline ⊢
  rw [if_neg harrow]
  by_cases hident : startsIdent (c :: (s ++ rest)) = true
  · rw [if_pos hident] at hsize ⊢
    rw [if_pos hident]
    exact scanIdent_alike h hne (s := c :: s) hident (congrArg (· + 1) hsize)
  rw [if_neg hident] at hsize hline ⊢
  rw [if_neg hident]
  by_cases hempty : (takeNumeral (c :: (s ++ rest))).isEmpty = true
  · rw [if_pos hempty] at hsize hline ⊢
    rw [if_pos hempty]
    exact scanMark_alike h hne hstart hsize hline
  · rw [if_neg hempty] at hsize ⊢
    rw [if_neg hempty]
    have htext : takeNumeral (c :: (s ++ rest)) ≠ [] := fun heq => hempty (by rw [heq]; rfl)
    have hunit := hstart.unit htext
    have hle : (takeNumeral (c :: (s ++ rest))).length ≤ (c :: s).length := by
      have hmore := le_more_scanNumeric (takeNumeral (c :: (s ++ rest)))
        ((c :: (s ++ rest)).drop (takeNumeral (c :: (s ++ rest))).length)
      rw [hsize] at hmore
      exact Nat.le_add_of_sub_le hmore
    have hpositive := List.length_pos_iff.mpr htext
    generalize takeNumeral (c :: (s ++ rest)) = text at hsize htext hunit hle hpositive ⊢
    rw [← List.cons_append, ← List.cons_append, List.drop_append_of_le_length hle,
      List.drop_append_of_le_length hle] at hunit
    rw [← List.cons_append, List.drop_append_of_le_length hle] at hsize ⊢
    rw [← List.cons_append, List.drop_append_of_le_length hle]
    refine scanNumeric_alike h hne htext hunit (hsize.trans ?_)
    rw [List.length_cons] at hle
    rw [List.length_drop, List.length_cons]
    omega

end

end

end TokenCatalog.Css
