import TokenCatalog.Proofs.Css.Row
import TokenCatalog.Proofs.Css.Verbatim

/-!
# Names and strings read again

An identifier without escapes and a string in double quotes are read as what they were written from.
Main statements:

* `separate_word`: an identifier without escapes is a token;
* `takeString_written`: a string in double quotes holds what it was written from;
* `Spans.nul_not_mem`: no string of a text holds NUL, so that writing it needs no escape for it.
-/

namespace TokenCatalog.Css

/-! ## Identifiers without escapes -/

def isPlainWord (word : List Char) : Bool :=
  startsIdent word && word.all isNameChar

theorem isPlainWord_iff {word : List Char} :
    isPlainWord word = true ↔ startsIdent word = true ∧ ∀ c ∈ word, isNameChar c = true := by
  rw [isPlainWord, Bool.and_eq_true, List.all_eq_true]

/-- How an identifier without escapes begins. -/
theorem plainWord_cases {word : List Char} (h : isPlainWord word = true) :
    (∃ c cs, word = c :: cs ∧ isNameStart c = true) ∨
      ∃ d ds, word = '-' :: d :: ds ∧ (isNameStart d || d == '-') = true := by
  obtain ⟨hstarts, hname⟩ := isPlainWord_iff.mp h
  have hescape : ∀ {cs : List Char}, (∀ c ∈ cs, isNameChar c = true) → startsEscape cs = false := by
    intro cs hcs
    cases cs with
    | nil => rfl
    | cons c cs =>
        have hslash : c ≠ '\\' := by
          rintro rfl
          cases hcs _ List.mem_cons_self
        rw [startsEscape_cons, beq_false_of_ne hslash, Bool.false_and]
  cases word with
  | nil => cases hstarts
  | cons c cs =>
      rw [startsIdent_cons] at hstarts
      split at hstarts
      · next hhyphen =>
          subst hhyphen
          rw [List.forall_mem_cons] at hname
          rw [hescape hname.2, Bool.or_false] at hstarts
          cases cs with
          | nil => cases hstarts
          | cons d ds => exact .inr ⟨d, ds, rfl, hstarts⟩
      · rw [hescape hname, Bool.or_false] at hstarts
        exact .inl ⟨c, cs, rfl, hstarts⟩

theorem writeIdent_plainWord {word : List Char} (h : isPlainWord word = true) :
    writeIdent word = word := by
  have hname := (isPlainWord_iff.mp h).2
  rcases plainWord_cases h with ⟨c, cs, rfl, hstart⟩ | ⟨d, ds, rfl, hstart⟩
  · exact writeIdent_start hstart fun d hd => hname d (List.mem_cons_of_mem _ hd)
  · exact writeIdent_hyphen hstart fun e he =>
      hname e (List.mem_cons_of_mem _ (List.mem_cons_of_mem _ he))

theorem startsIdent_plainWord {word : List Char} (h : isPlainWord word = true) (rest : List Char) :
    startsIdent (word ++ rest) = true := by
  rcases plainWord_cases h with ⟨c, cs, rfl, hstart⟩ | ⟨d, ds, rfl, hstart⟩
  · have hhyphen : c ≠ '-' := by
      rintro rfl
      cases hstart
    rw [List.cons_append, startsIdent_cons, if_neg hhyphen, hstart, Bool.true_or]
  · rw [List.cons_append, startsIdent_cons, if_pos rfl, List.cons_append, List.head?_cons,
      Option.any_some, hstart, Bool.true_or]

/-- Behind a name stands no character but a space or a comma. -/
theorem head?_name_append {name rest : List Char} (hname : ∀ c ∈ name, isNameChar c = true)
    (hrest : Delimits rest) {d : Char} (hd : isNameChar d = false) (hdelimits : d ≠ ' ' ∧ d ≠ ',') :
    (name ++ rest).head? ≠ some d := by
  cases name with
  | nil =>
      intro hhead
      rcases hrest d hhead with rfl | rfl
      · exact hdelimits.1 rfl
      · exact hdelimits.2 rfl
  | cons c cs =>
      intro hhead
      obtain rfl : c = d := Option.some.inj hhead
      rw [hname c List.mem_cons_self] at hd
      cases hd

theorem scanIdent_word {name rest : List Char} (hname : ∀ c ∈ name, isNameChar c = true)
    (hrest : Delimits rest) :
    scanIdent (name ++ rest) = .one (.ident name) (name.length - 1) := by
  have hbracket : ([] ++ rest).head? ≠ some '(' :=
    head?_name_append (List.forall_mem_nil _) hrest (by decide) (by decide)
  have htaken := takeName_append hname (endsName_of_delimits hrest)
  rw [scanIdent_name, htaken]
  rwa [htaken, List.drop_left]

/-- **An identifier without escapes is a token.** -/
theorem separate_word {word : List Char} (h : isPlainWord word = true) :
    Separate [⟨word, .ident word⟩] := by
  obtain ⟨hstarts, hname⟩ := isPlainWord_iff.mp h
  cases word with
  | nil => cases hstarts
  | cons c cs =>
      have hcs : ∀ d ∈ cs, isNameChar d = true := fun d hd => hname d (List.mem_cons_of_mem c hd)
      have hspace : isSpace c = false := by
        have hc := hname c List.mem_cons_self
        rw [← Bool.not_eq_true, isSpace]
        simp only [Bool.or_eq_true, beq_iff_eq]
        rintro ((rfl | rfl) | rfl) <;> cases hc
      refine separate_token hspace fun rest hrest => ?_
      -- what is behind the word may not continue it, hence makes neither a range nor an arrow of it
      have hrange : startsRange (c :: (cs ++ rest)) = false := by
        have hplus : (cs ++ rest).head?.any (· == '+') = false := by
          rw [Option.any_eq_false]
          intro d hd
          exact beq_false_of_ne fun heq =>
            head?_name_append hcs hrest (by decide) (by decide) (heq ▸ hd)
        rw [startsRange_cons, hplus, Bool.and_false, Bool.false_and]
      have harrow : (c :: (cs ++ rest)).take 3 ≠ "-->".toList := by
        intro harrow
        rcases plainWord_cases h with ⟨d, ds, hword, hstart⟩ | ⟨d, ds, hword, -⟩
        · cases hword
          cases (List.cons.inj harrow).1
          cases hstart
        · cases hword
          rw [List.forall_mem_cons] at hcs
          have hhead : (ds ++ rest).head? = some '>' := by
            cases hmore : ds ++ rest with
            | nil => simp [hmore] at harrow
            | cons e es => simp_all
          exact head?_name_append hcs.2 hrest (by decide) (by decide) hhead
      rw [scan_of_startsIdent hspace hrange harrow (startsIdent_plainWord h rest)]
      exact scanIdent_word hname hrest

/-! ## Strings -/

def escapedChars : List Char := ['"', '\\', '\n', '\r', '\x0c']

def writeStringChar (c : Char) : List Char :=
  if c = '"' || c = '\\' || c = '\n' || c = '\r' || c = '\x0c' then escapeChar c else [c]

theorem writeString_chars (value : List Char) :
    writeString value = '"' :: (value.flatMap writeStringChar ++ ['"']) :=
  rfl

theorem writeStringChar_of_not_mem {c : Char} (h : c ∉ escapedChars) : writeStringChar c = [c] := by
  simp only [escapedChars, List.mem_cons, List.not_mem_nil, or_false, not_or] at h
  simp [writeStringChar, h]

/-- An escape in a string stands for its character. -/
theorem takeString_writeStringChar (c : Char) (cs : List Char) :
    takeString '"' (writeStringChar c ++ cs) =
      (takeString '"' cs).after (writeStringChar c).length [c] := by
  by_cases hspecial : c ∈ escapedChars
  · simp only [escapedChars, List.mem_cons, List.not_mem_nil, or_false] at hspecial
    rcases hspecial with rfl | rfl | rfl | rfl | rfl <;>
      exact takeString_escape _ (by decide) (by decide)
  · rw [writeStringChar_of_not_mem hspecial]
    simp only [escapedChars, List.mem_cons, List.not_mem_nil, or_false, not_or] at hspecial
    exact takeString_plain _ hspecial.1 hspecial.2.1 hspecial.2.2.1

/-- **A string in double quotes holds what it was written from.** -/
theorem takeString_written (value rest : List Char) :
    takeString '"' (value.flatMap writeStringChar ++ '"' :: rest) =
      ⟨value, (value.flatMap writeStringChar).length + 1, .closed⟩ := by
  induction value with
  | nil => exact takeString_closed rest
  | cons c cs ih =>
      rw [List.flatMap_cons, List.append_assoc, takeString_writeStringChar, ih, Quoted.after,
        List.length_append]
      simp only [List.singleton_append, Quoted.mk.injEq, true_and, and_true]
      omega

theorem separate_string (value : List Char) :
    Separate [⟨writeString value, .string value⟩] := by
  rw [writeString_chars]
  refine separate_token (by decide) fun rest _ => ?_
  rw [scan_of_isMark (by decide)]
  show scanString '"' _ = _
  rw [List.append_assoc, List.singleton_append, scanString, takeString_written, List.length_append]
  rfl

/-! ## What strings hold -/

theorem ofNat_ne_nul {n : Nat} (hvalid : n.isValidChar) (h : n ≠ 0) : Char.ofNat n ≠ '\x00' := by
  intro hnul
  have hcode : (Char.ofNat n).toNat = n := by
    rw [Char.ofNat, dif_pos hvalid]
    rfl
  rw [hnul] at hcode
  exact h hcode.symm

theorem charOfCode_ne_nul {n : Nat} (h : n ≠ 0) : Text.charOfCode n ≠ '\x00' := by
  rw [Text.charOfCode]
  split
  · next hhalf =>
      have hbounds : 0xD800 ≤ n ∧ n < 0xE000 := by simpa [Text.isHalf] using hhalf
      exact ofNat_ne_nul (by unfold Nat.isValidChar; omega) (by omega)
  · split
    · next hvalid => exact ofNat_ne_nul hvalid h
    · decide

theorem takeEscape_ne_nul {cs : List Char} (h : '\x00' ∉ cs) : (takeEscape cs).1 ≠ '\x00' := by
  unfold takeEscape
  dsimp only
  split
  · split
    · decide
    · rintro rfl
      exact h List.mem_cons_self
  · show (if _ then '\ufffd' else Text.charOfCode _) ≠ '\x00'
    split
    · decide
    · next hne => exact charOfCode_ne_nul hne

theorem nul_not_mem_takeString {quote : Char} {cs : List Char} (h : '\x00' ∉ cs) :
    '\x00' ∉ (takeString quote cs).value := by
  induction cs using takeString.induct quote with
  | case1 =>
      rw [takeString]
      exact List.not_mem_nil
  | case2 cs =>
      rw [takeString_closed]
      exact List.not_mem_nil
  | case3 hslash =>
      rw [takeString.eq_def]
      simp [hslash]
  | case4 cs hslash ih =>
      rw [takeString_escapedLine _ hslash]
      simp only [List.mem_cons, not_or] at h
      exact ih h.2.2
  | case5 c cs hline e k hek hslash ih =>
      rw [takeString_escape _ hslash hline, Quoted.after, List.mem_append, not_or]
      rw [List.mem_cons, not_or] at h
      have hrest : '\x00' ∉ (c :: cs).drop k := fun hmem => h.2 (List.mem_of_mem_drop hmem)
      rw [hek]
      have hne := takeEscape_ne_nul h.2
      rw [hek] at hne
      exact ⟨fun hmem => hne (List.mem_singleton.mp hmem).symm, ih hrest⟩
  | case6 cs hquote _ =>
      rw [takeString_line _ hquote]
      exact List.not_mem_nil
  | case7 c cs hquote hslash hline ih =>
      rw [takeString_plain _ hquote hslash hline, Quoted.after, List.mem_append, not_or]
      rw [List.mem_cons, not_or] at h
      exact ⟨mt List.mem_singleton.mp h.1, ih h.2⟩

/-- **No string of a text holds NUL.** -/
theorem Spans.nul_not_mem {x y : Point} {nodes : List Node} (h : Spans x nodes y)
    (htext : '\x00' ∉ x.text) {p : Position} {value : List Char}
    (hmem : .leaf p (.string value) ∈ nodes) : '\x00' ∉ value := by
  obtain ⟨c, cs, more, hscan, hsuffix⟩ := h.exists_scan hmem
  have hcs : '\x00' ∉ cs := fun hnul => htext (hsuffix.subset (List.mem_cons_of_mem c hnul))
  have hreads := scan_reads c cs
  rw [hscan] at hreads
  generalize hone : Scan.one (.string value) more = scanned at hreads
  cases hreads <;> cases hone
  exact nul_not_mem_takeString hcs

theorem isClean_of_isNameChar {c : Char} (h : isNameChar c = true) : IsClean c := by
  refine ⟨?_, ?_, ?_⟩ <;>
    · rintro rfl
      cases h

/-- A string is written in uniform text. -/
theorem isClean_writeString {value : List Char} (h : '\x00' ∉ value) :
    ∀ c ∈ writeString value, IsClean c := by
  have hchar : ∀ c ∈ value, ∀ d ∈ writeStringChar c, IsClean d := by
    intro c hc
    by_cases hspecial : c ∈ escapedChars
    · have hall : escapedChars.all (fun c => (writeStringChar c).all (IsClean ·)) =
        true := by decide
      have hwritten := List.all_eq_true.mp hall c hspecial
      exact fun d hd => of_decide_eq_true (List.all_eq_true.mp hwritten d hd)
    · rw [writeStringChar_of_not_mem hspecial, List.forall_mem_singleton]
      simp only [escapedChars, List.mem_cons, List.not_mem_nil, or_false, not_or] at hspecial
      exact ⟨hspecial.2.2.2.1, hspecial.2.2.2.2, fun hnul => h (hnul ▸ hc)⟩
  have hquote : IsClean '"' := by decide
  rw [writeString_chars, List.forall_mem_cons, List.forall_mem_append, List.forall_mem_singleton]
  refine ⟨hquote, fun d hd => ?_, hquote⟩
  obtain ⟨c, hc, hd⟩ := List.mem_flatMap.mp hd
  exact hchar c hc d hd

end TokenCatalog.Css
