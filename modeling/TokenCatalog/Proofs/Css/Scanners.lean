import TokenCatalog.Proofs.Css.Scan
import TokenCatalog.Text.Blank

/-!
# The scanners case by case

What each scanner makes of a text by the first character, and how much of it it takes at least. Main
statements:

* `takeName_name`, `takeName_escape`, `takeName_other`: the ways a name goes on or ends;
* `takeString_plain`, `takeUrl_plain` and the others of their kind: the same for strings and URLs;
* `takeEscape_pos`, `takeName_pos`, `takeUrl_pos`: a scanner takes something of what it begins with.
-/

namespace TokenCatalog.Css

/-! ## First characters -/

theorem isBlank_of_isSpace {c : Char} (h : isSpace c = true) : Text.isBlank c = true := by
  simp only [isSpace, Bool.or_eq_true, beq_iff_eq] at h
  rcases h with (rfl | rfl) | rfl <;> decide

theorem not_isSpace {c : Char} (h : Text.isBlank c = false) : isSpace c = false :=
  Bool.eq_false_iff.mpr fun hspace => by cases h.symm.trans (isBlank_of_isSpace hspace)

theorem isNameChar_of_isNameStart {c : Char} (h : isNameStart c = true) : isNameChar c = true := by
  rw [isNameChar, h]
  rfl

theorem startsEscape_cons (c : Char) (cs : List Char) :
    startsEscape (c :: cs) = (c == '\\' && !cs.head?.any (· == '\n')) := by
  by_cases hc : c = '\\'
  · subst hc
    cases cs with
    | nil => rfl
    | cons d ds =>
        by_cases hd : d = '\n'
        · subst hd
          rfl
        · simp [startsEscape, hd]
  · simp [startsEscape, hc]

theorem startsEscape_iff {c : Char} {cs : List Char} (h : startsEscape (c :: cs) = true) :
    c = '\\' := by
  rw [startsEscape_cons, Bool.and_eq_true, beq_iff_eq] at h
  exact h.1

theorem startsIdent_cons (c : Char) (cs : List Char) :
    startsIdent (c :: cs) =
      if c = '-' then cs.head?.any (fun d => isNameStart d || d == '-') || startsEscape cs
      else isNameStart c || startsEscape (c :: cs) := by
  by_cases hc : c = '-'
  · subst hc
    cases cs <;> rfl
  · simp [startsIdent, hc]

/-- What no name goes on with begins none either. -/
theorem any_isNameStart_eq_false {cs : List Char} (h : cs.head?.any isNameChar = false) :
    cs.head?.any (fun d => isNameStart d || d == '-') = false := by
  cases cs with
  | nil => rfl
  | cons c cs =>
      refine Bool.eq_false_iff.mpr fun hstart : (isNameStart c || c == '-') = true => ?_
      refine Bool.eq_false_iff.mp h ?_
      rcases Bool.or_eq_true_iff.mp hstart with hstart | hhyphen
      · exact isNameChar_of_isNameStart hstart
      · have hname : isNameChar '-' = true := by decide
        rw [beq_iff_eq.mp hhyphen]
        exact hname

theorem startsRange_cons (c : Char) (cs : List Char) :
    startsRange (c :: cs) = ((c == 'u' || c == 'U') && cs.head?.any (· == '+') &&
      cs.tail.head?.any fun d => Text.isHex d || d == '?') := by
  match cs with
  | [] => simp [startsRange]
  | [e] => simp [startsRange]
  | e :: d :: cs =>
      by_cases he : e = '+'
      · subst he
        simp [startsRange]
      · simp [startsRange, he]

theorem take_three_eq_arrow (c : Char) (cs : List Char) :
    (c :: cs).take 3 = "-->".toList ↔ c = '-' ∧ "->".toList <+: cs := by
  rw [List.take_succ_cons, List.prefix_iff_eq_take]
  exact List.cons_eq_cons.trans (and_congr_right fun _ => eq_comm)

/-! ## Names -/

theorem takeName_name {c : Char} (h : isNameChar c = true) (cs : List Char) :
    takeName (c :: cs) = (c :: (takeName cs).1, (takeName cs).2 + 1) := by
  rw [takeName, if_pos h]

theorem takeName_escape {c : Char} {cs : List Char} (hname : isNameChar c = false)
    (hescape : startsEscape (c :: cs) = true) :
    takeName (c :: cs) = ((takeEscape cs).1 :: (takeName (cs.drop (takeEscape cs).2)).1,
      (takeEscape cs).2 + (takeName (cs.drop (takeEscape cs).2)).2 + 1) := by
  rw [takeName, hname, if_pos hescape]
  rfl

theorem takeName_other {c : Char} {cs : List Char} (hname : isNameChar c = false)
    (hescape : startsEscape (c :: cs) = false) : takeName (c :: cs) = ([], 0) := by
  rw [takeName, hname, hescape]
  rfl

/-- A name of no characters is one that no character begins. -/
theorem not_isNameChar_of_takeName {cs : List Char} (h : (takeName cs).2 = 0) :
    cs.head?.any isNameChar = false := by
  cases cs with
  | nil => rfl
  | cons c cs =>
      refine Bool.eq_false_iff.mpr fun hname : isNameChar c = true => ?_
      rw [takeName_name hname] at h
      cases h

theorem takeName_pos {cs : List Char} (hstarts : startsIdent cs = true) : 0 < (takeName cs).2 := by
  cases cs with
  | nil => cases hstarts
  | cons c cs =>
      by_cases hname : isNameChar c = true
      · rw [takeName_name hname]
        exact Nat.succ_pos _
      · have hname := eq_false_of_ne_true hname
        rw [startsIdent_cons, if_neg fun hc => by rw [hc] at hname; cases hname] at hstarts
        rcases Bool.or_eq_true_iff.mp hstarts with hstart | hescape
        · rw [isNameChar_of_isNameStart hstart] at hname
          cases hname
        · rw [takeName_escape hname hescape]
          exact Nat.succ_pos _

/-! ## Strings and URLs -/

/-- A string or URL with some characters of its source before it. -/
def Quoted.after (n : Nat) (value : List Char) (tail : Quoted) : Quoted :=
  ⟨value ++ tail.value, tail.size + n, tail.ending⟩

section

variable {quote : Char} (cs : List Char)

theorem takeString_closed : takeString quote (quote :: cs) = ⟨[], 1, .closed⟩ := by
  rw [takeString.eq_def]
  simp

theorem takeString_escapedLine (hquote : '\\' ≠ quote) :
    takeString quote ('\\' :: '\n' :: cs) = (takeString quote cs).after 2 [] := by
  rw [takeString.eq_def]
  simp [hquote, Quoted.after]

theorem takeString_escape (hquote : '\\' ≠ quote) {d : Char} (hd : d ≠ '\n') :
    takeString quote ('\\' :: d :: cs) =
      (takeString quote ((d :: cs).drop (takeEscape (d :: cs)).2)).after
        ((takeEscape (d :: cs)).2 + 1) [(takeEscape (d :: cs)).1] := by
  rw [takeString.eq_def]
  simp [hquote, hd, Quoted.after]
  omega

theorem takeString_line (hquote : '\n' ≠ quote) :
    takeString quote ('\n' :: cs) = ⟨[], 0, .fault⟩ := by
  rw [takeString.eq_def]
  simp [hquote]

theorem takeString_plain {c : Char} (hquote : c ≠ quote) (hslash : c ≠ '\\') (hline : c ≠ '\n') :
    takeString quote (c :: cs) = (takeString quote cs).after 1 [c] := by
  rw [takeString.eq_def]
  simp [hquote, hslash, hline, Quoted.after]

end

/-- An unquoted URL after blanks inside it, which nothing but its closing bracket may follow. -/
def urlAfterBlanks (n : Nat) : List Char → Quoted
  | [] => ⟨[], n + 1, .endOfText⟩
  | ')' :: _ => ⟨[], n + 2, .closed⟩
  | rest => ⟨[], n + 1 + skipUrl rest, .fault⟩

section

variable {c : Char} {cs : List Char}

theorem takeUrl_closed : takeUrl (')' :: cs) = ⟨[], 1, .closed⟩ := by
  rw [takeUrl.eq_def]
  rfl

theorem takeUrl_escape (hclose : c ≠ ')') (hspace : isSpace c = false)
    (hescape : startsEscape (c :: cs) = true) :
    takeUrl (c :: cs) = (takeUrl (cs.drop (takeEscape cs).2)).after ((takeEscape cs).2 + 1)
      [(takeEscape cs).1] := by
  rw [takeUrl.eq_def]
  simp [hclose, hspace, hescape, Quoted.after]
  omega

theorem takeUrl_fault (hclose : c ≠ ')') (hspace : isSpace c = false)
    (hescape : startsEscape (c :: cs) = false) (hfault : isUrlFault c = true) :
    takeUrl (c :: cs) = ⟨[], skipUrl cs + 1, .fault⟩ := by
  rw [takeUrl.eq_def]
  simp [hclose, hspace, hescape, hfault]

theorem takeUrl_plain (hclose : c ≠ ')') (hspace : isSpace c = false)
    (hescape : startsEscape (c :: cs) = false) (hfault : isUrlFault c = false) :
    takeUrl (c :: cs) = (takeUrl cs).after 1 [c] := by
  rw [takeUrl.eq_def]
  simp [hclose, hspace, hescape, hfault, Quoted.after]

theorem takeUrl_space (hspace : isSpace c = true) :
    takeUrl (c :: cs) =
      urlAfterBlanks (cs.takeWhile isSpace).length (cs.drop (cs.takeWhile isSpace).length) := by
  have hclose : c ≠ ')' := by
    rintro rfl
    cases hspace
  rw [takeUrl.eq_def]
  simp only [if_neg hclose, if_pos hspace]
  rfl

theorem urlAfterBlanks_cons (n : Nat) (hclose : c ≠ ')') :
    urlAfterBlanks n (c :: cs) = ⟨[], n + 1 + skipUrl (c :: cs), .fault⟩ := by
  unfold urlAfterBlanks
  split
  · next h => cases h
  · next h => exact absurd (List.cons.inj h).1 hclose
  · rfl

end

def opensQuote (cs : List Char) : Bool :=
  (cs.drop (cs.takeWhile isSpace).length).head?.any fun c => c == '"' || c == '\''

/-- An unquoted URL, given the number of characters before its first blank. -/
def scanUrl (n : Nat) (cs : List Char) : Scan :=
  let blanks := cs.takeWhile isSpace
  let url := takeUrl (cs.drop blanks.length)
  let more := n + blanks.length + url.size
  match url.ending with
  | .closed => .one (.url url.value) more
  | .endOfText => ⟨[.leaf (.url url.value), .leaf (.fault .endInUrl)], more⟩
  | .fault => .one (.fault .badUrl) more

theorem scanFunction_eq (name : List Char) (n : Nat) (cs : List Char) :
    scanFunction name n cs =
      if Text.asciiLower name = "url".toList && !opensQuote cs then scanUrl n cs
      else ⟨[.openFunction name], n⟩ :=
  rfl

theorem more_scanUrl (n : Nat) (cs : List Char) :
    (scanUrl n cs).more = n + (cs.takeWhile isSpace).length +
      (takeUrl (cs.drop (cs.takeWhile isSpace).length)).size := by
  unfold scanUrl
  dsimp only
  split <;> rfl

theorem le_more_scanFunction (name : List Char) (n : Nat) (cs : List Char) :
    n ≤ (scanFunction name n cs).more := by
  rw [scanFunction_eq]
  split
  · rw [more_scanUrl, Nat.add_assoc]
    exact Nat.le_add_right _ _
  · exact Nat.le_refl n

theorem le_more_scanNumeric (text cs : List Char) :
    text.length - 1 ≤ (scanNumeric text cs).more := by
  unfold scanNumeric
  split
  · simp only [Scan.one]
    omega
  · split <;> simp only [Scan.one] <;> omega

theorem scanIdent_function {cs rest : List Char} (h : cs.drop (takeName cs).2 = '(' :: rest) :
    scanIdent cs = scanFunction (takeName cs).1 (takeName cs).2 rest := by
  unfold scanIdent
  dsimp only
  rw [h]
  rfl

theorem scanIdent_name {cs : List Char} (h : (cs.drop (takeName cs).2).head? ≠ some '(') :
    scanIdent cs = .one (.ident (takeName cs).1) ((takeName cs).2 - 1) := by
  unfold scanIdent
  dsimp only
  split
  · next hrest =>
      rw [hrest] at h
      exact absurd rfl h
  · rfl

/-! ## What is taken -/

theorem takeEscape_pos (c : Char) (cs : List Char) : 0 < (takeEscape (c :: cs)).2 := by
  unfold takeEscape
  dsimp only
  split
  · exact Nat.one_pos
  · next hempty =>
      exact Nat.add_pos_left (List.length_pos_iff.mpr fun h => hempty (by rw [h]; rfl)) _

theorem skipUrl_pos (c : Char) (cs : List Char) : 0 < skipUrl (c :: cs) := by
  unfold skipUrl
  split
  · next h => cases h
  · exact Nat.succ_pos _
  · split
    · exact Nat.one_pos
    · exact Nat.succ_pos _

theorem lt_size_urlAfterBlanks (n : Nat) (c : Char) (cs : List Char) :
    n + 1 < (urlAfterBlanks n (c :: cs)).size := by
  by_cases hclose : c = ')'
  · rw [hclose]
    exact Nat.lt_succ_self _
  · rw [urlAfterBlanks_cons n hclose]
    exact Nat.lt_add_of_pos_right (skipUrl_pos c cs)

theorem takeComment_pos (c : Char) (cs : List Char) :
    0 < (takeComment (c :: cs)).1.length + if (takeComment (c :: cs)).2 then 2 else 0 := by
  generalize hxs : c :: cs = xs
  cases xs using takeComment.induct with
  | case1 => cases hxs
  | case2 cs => exact Nat.two_pos
  | case3 d ds hopen =>
      rw [takeComment.eq_3 _ _ hopen]
      exact Nat.add_pos_left (Nat.succ_pos _) _

theorem takeUrl_pos (c : Char) (cs : List Char) : 0 < (takeUrl (c :: cs)).size := by
  by_cases hclose : c = ')'
  · rw [hclose, takeUrl_closed]
    exact Nat.one_pos
  cases hspace : isSpace c with
  | true =>
      rw [takeUrl_space hspace]
      unfold urlAfterBlanks
      split <;> exact Nat.pos_of_ne_zero (by simp only [ne_eq]; omega)
  | false =>
      cases hescape : startsEscape (c :: cs) with
      | true =>
          rw [takeUrl_escape hclose hspace hescape]
          exact Nat.succ_pos _
      | false =>
          cases hfault : isUrlFault c with
          | true =>
              rw [takeUrl_fault hclose hspace hescape hfault]
              exact Nat.succ_pos _
          | false =>
              rw [takeUrl_plain hclose hspace hescape hfault]
              exact Nat.succ_pos _

end TokenCatalog.Css
