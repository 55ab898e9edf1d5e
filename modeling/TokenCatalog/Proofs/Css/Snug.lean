import TokenCatalog.Proofs.Css.Respaced

/-!
# Texts that collapsing only respaces

Collapsing the blanks of a text does not spare its tokens: a blank in a string, in an address or
behind an escape is a blank like any other. Where it happens to leave each token as it is, the tree
of the text stays. Main statements:

* `isSnug`: squeezing a text leaves its tokens as they are, blanks and comments apart;
* `scan_squeeze`: a token of such a text is scanned again;
* `parse_collapse_of_isSnug`: so the tree of the collapsed text is the tree of the text, respaced.
-/

namespace TokenCatalog.Css

open Text (isBlank squeeze Firm)

/-! ## Snug texts -/

def Scan.isFiller (s : Scan) : Bool :=
  match s.lexemes with
  | [.leaf (.whitespace _)] => true
  | [.leaf (.comment _)] => true
  | _ => false

/-- Whether a scan ends in front of a line end that keeps it from going on: that of a string, or of
a backslash that would begin an escape. -/
def Scan.isBroken (s : Scan) : Bool :=
  s.lexemes = [.leaf (.fault .badString)] || s.lexemes = [.leaf (.literal ['\\'])]

/-- Whether squeezing a uniform text leaves its tokens as they are, blanks and comments apart. -/
def isSnug : List Char → Bool
  | [] => true
  | c :: cs =>
    ((scan c cs).isFiller || !(scan c cs).isBroken &&
      squeeze (c :: cs) == c :: cs.take (scan c cs).more ++ squeeze (cs.drop (scan c cs).more)) &&
      isSnug (cs.drop (scan c cs).more)
termination_by cs => cs.length

theorem isSnug_cons {c : Char} {cs : List Char} (h : isSnug (c :: cs) = true) :
    ((scan c cs).isFiller = true ∨ (scan c cs).isBroken = false ∧
      squeeze (c :: cs) =
        c :: (cs.take (scan c cs).more ++ squeeze (cs.drop (scan c cs).more))) ∧
      isSnug (cs.drop (scan c cs).more) = true := by
  rw [isSnug, Bool.and_eq_true, Bool.or_eq_true, Bool.and_eq_true, Bool.not_eq_true',
    beq_iff_eq] at h
  exact h

/-- Blanks and comments are told by the first characters. -/
theorem begins_of_isFiller {c : Char} {cs : List Char} (h : (scan c cs).isFiller = true) :
    isSpace c = true ∨ c = '/' ∧ ∃ rest, cs = '*' :: rest := by
  have hreads := scan_reads c cs
  generalize scan c cs = scanned at h hreads
  cases hreads with
  | whitespace hc => exact .inl hc
  | comment hc hrest => exact .inr ⟨hc, _, hrest⟩
  | ended leaf => cases leaf <;> cases h
  | _ => cases h

theorem isFiller_of_isSpace {c : Char} (hc : isSpace c = true) (cs : List Char) :
    (scan c cs).isFiller = true := by
  rw [scan_space hc]
  rfl

section

variable {c : Char} {cs : List Char} (h : isSnug (c :: cs) = true)
  (hfiller : (scan c cs).isFiller = false)

include h hfiller

/-- No blank begins a token. -/
theorem isBlank_of_isSnug : isBlank c = false := by
  refine Bool.eq_false_iff.mpr fun hc => ?_
  obtain ⟨hfirst | ⟨-, hsame⟩, -⟩ := isSnug_cons h
  · cases hfirst.symm.trans hfiller
  · obtain ⟨rest, hrest, -⟩ := Text.squeeze_of_blank hc cs
    rw [hrest] at hsame
    have hspace : isSpace c = true := by
      rw [← (List.cons.inj hsame).1]
      decide
    cases (isFiller_of_isSpace hspace cs).symm.trans hfiller

theorem squeeze_of_isSnug :
    (scan c cs).isBroken = false ∧
      squeeze cs = cs.take (scan c cs).more ++ squeeze (cs.drop (scan c cs).more) := by
  obtain ⟨hfirst | ⟨hbroken, hsame⟩, -⟩ := isSnug_cons h
  · cases hfirst.symm.trans hfiller
  · rw [Text.squeeze_cons (isBlank_of_isSnug h hfiller)] at hsame
    exact ⟨hbroken, (List.cons.inj hsame).2⟩

end

/-! ## How a snug text begins -/

theorem firm_of_isSnug {cs : List Char} (h : isSnug cs = true)
    (hspace : cs.head?.any isSpace = false) : Firm cs := by
  cases cs with
  | nil => exact Text.firm_nil
  | cons c cs =>
      rw [Text.firm_cons]
      cases hfiller : (scan c cs).isFiller with
      | false => exact isBlank_of_isSnug h hfiller
      | true =>
          rcases begins_of_isFiller hfiller with hc | ⟨rfl, -⟩
          · cases hc.symm.trans hspace
          · decide

/-- A snug text is firm or begins with a blank of uniform text. -/
theorem isSpace_of_isSnug {c : Char} {cs : List Char} (h : isSnug (c :: cs) = true)
    (hc : isBlank c = true) : isSpace c = true := by
  refine Bool.not_eq_false _ ▸ fun hspace => ?_
  cases hc.symm.trans (Text.firm_cons.mp (firm_of_isSnug h hspace))

theorem scan_backslash (cs : List Char) :
    scan '\\' ('\n' :: cs) = .one (.literal ['\\']) 0 := by
  unfold scan
  rfl

theorem scan_hyphen_backslash (cs : List Char) :
    scan '-' ('\\' :: '\n' :: cs) = .one (.literal ['-']) 0 := by
  unfold scan
  rfl

/-- Squeezing makes an escape of a backslash only where that ends a line. -/
theorem exists_of_startsEscape_squeeze {cs : List Char}
    (hsqueezed : startsEscape (squeeze cs) = true)
    (hescape : startsEscape cs = false) : ∃ ds, cs = '\\' :: '\n' :: ds := by
  have hslash : ['\\'] <+: squeeze cs := by
    cases hcs : squeeze cs with
    | nil =>
        rw [hcs] at hsqueezed
        cases hsqueezed
    | cons c ds =>
        rw [hcs] at hsqueezed
        rw [startsEscape_iff hsqueezed]
        exact List.prefix_append ['\\'] ds
  obtain ⟨ds, rfl⟩ := (isPrefix_squeeze (by decide)).mp hslash
  cases ds with
  | nil => cases hescape
  | cons d ds =>
      by_cases hd : d = '\n'
      · rw [hd]
        exact ⟨ds, rfl⟩
      · rw [List.singleton_append, startsEscape_cons, List.head?_cons, Option.any_some,
          beq_false_of_ne hd] at hescape
        cases hescape

/-- No backslash of a snug text ends a line outside its comments. -/
theorem not_isSnug_backslash (cs : List Char) : isSnug ('\\' :: '\n' :: cs) = false := by
  refine Bool.eq_false_iff.mpr fun h => ?_
  obtain ⟨hfirst | ⟨hbroken, -⟩, -⟩ := isSnug_cons h
  · rw [scan_backslash] at hfirst
    cases hfirst
  · rw [scan_backslash] at hbroken
    cases hbroken

theorem startsEscape_of_isSnug {cs : List Char} (h : isSnug cs = true) :
    startsEscape (squeeze cs) = startsEscape cs := by
  cases hescape : startsEscape cs with
  | true => exact startsEscape_squeeze hescape
  | false =>
      refine Bool.eq_false_iff.mpr fun hsqueezed => ?_
      obtain ⟨ds, rfl⟩ := exists_of_startsEscape_squeeze hsqueezed hescape
      cases (not_isSnug_backslash ds).symm.trans h

/-- The second character of a token, or what follows a token of one character, is a blank only if it
is one of uniform text. -/
theorem isSpace_second {c d : Char} {cs : List Char} (h : isSnug (c :: d :: cs) = true)
    (hfiller : (scan c (d :: cs)).isFiller = false) (hd : isBlank d = true) : isSpace d = true := by
  obtain ⟨-, hsame⟩ := squeeze_of_isSnug h hfiller
  obtain ⟨-, hrest⟩ := isSnug_cons h
  cases hmore : (scan c (d :: cs)).more with
  | zero =>
      rw [hmore] at hrest
      exact isSpace_of_isSnug hrest hd
  | succ n =>
      obtain ⟨rest, hsqueezed, -⟩ := Text.squeeze_of_blank hd cs
      rw [hmore, hsqueezed, List.take_succ_cons, List.cons_append] at hsame
      rw [← (List.cons.inj hsame).1]
      decide

theorem startsIdent_space {c : Char} (hc : isSpace c = true) (cs : List Char) :
    startsIdent (c :: cs) = false := by
  simp only [isSpace, Bool.or_eq_true, beq_iff_eq] at hc
  rcases hc with (rfl | rfl) | rfl <;> rfl

/-- An escape behind a hyphen stays one. -/
theorem startsEscape_hyphen {cs : List Char} (h : isSnug ('-' :: cs) = true) :
    startsEscape (squeeze cs) = startsEscape cs := by
  cases hescape : startsEscape cs with
  | true => exact startsEscape_squeeze hescape
  | false =>
      refine Bool.eq_false_iff.mpr fun hsqueezed => ?_
      obtain ⟨ds, rfl⟩ := exists_of_startsEscape_squeeze hsqueezed hescape
      have hrest := (isSnug_cons h).2
      rw [scan_hyphen_backslash] at hrest
      cases (not_isSnug_backslash ds).symm.trans hrest

theorem startsIdent_of_isSnug {cs : List Char} (h : isSnug cs = true) :
    startsIdent (squeeze cs) = startsIdent cs := by
  have hescape := startsEscape_of_isSnug h
  cases cs with
  | nil => rfl
  | cons c cs =>
      cases hfiller : (scan c cs).isFiller with
      | true =>
          rcases begins_of_isFiller hfiller with hc | ⟨rfl, rest, rfl⟩
          · obtain ⟨rest, hrest, -⟩ := Text.squeeze_of_blank (isBlank_of_isSpace hc) cs
            rw [hrest, startsIdent_space hc, startsIdent_space (by decide)]
          · rw [Text.squeeze_cons (by decide), Text.squeeze_cons (by decide)]
            rfl
      | false =>
          rw [Text.squeeze_cons (isBlank_of_isSnug h hfiller)] at hescape ⊢
          rw [startsIdent_cons, startsIdent_cons, hescape]
          split
          · next hc =>
              subst hc
              rw [startsEscape_hyphen h]
              refine congrArg (· || _) ?_
              cases cs with
              | nil => rfl
              | cons d cs =>
                  cases hd : isBlank d with
                  | false =>
                      rw [Text.squeeze_cons hd]
                      rfl
                  | true =>
                      obtain ⟨rest, hrest, -⟩ := Text.squeeze_of_blank hd cs
                      have hspace := isSpace_second h hfiller hd
                      rw [hrest]
                      simp only [isSpace, Bool.or_eq_true, beq_iff_eq] at hspace
                      rcases hspace with (rfl | rfl) | rfl <;> rfl
          · rfl

theorem takeWhile_of_any_head? {cs : List Char} (h : cs.head?.any isSpace = false) :
    cs.takeWhile isSpace = [] := by
  cases cs with
  | nil => rfl
  | cons c cs => exact List.takeWhile_cons_of_neg (Bool.eq_false_iff.mp h)

theorem opensQuote_of_isSnug {cs : List Char} (h : isSnug cs = true) :
    opensQuote (squeeze cs) = opensQuote cs := by
  have hquote := head?_any_squeeze (p := fun c => c == '"' || c == '\'') fun c hc => by
    rw [beq_of_isBlank (by decide) c hc, beq_of_isBlank (by decide) c hc]
    rfl
  have hfirm : ∀ {xs : List Char}, Firm xs → (squeeze xs).takeWhile isSpace = [] := by
    intro xs hxs
    refine takeWhile_of_any_head? (Bool.eq_false_iff.mpr fun hspace => ?_)
    have hblank := Text.any_head?_squeeze xs
    rw [hxs.any_head?] at hblank
    cases hsqueezed : squeeze xs with
    | nil =>
        rw [hsqueezed] at hspace
        cases hspace
    | cons c ys =>
        rw [hsqueezed] at hspace hblank
        cases hblank.symm.trans (isBlank_of_isSpace hspace)
  rw [opensQuote, opensQuote]
  cases hspace : cs.head?.any isSpace with
  | false =>
      rw [takeWhile_of_any_head? hspace, hfirm (firm_of_isSnug h hspace)]
      exact hquote cs
  | true =>
      cases cs with
      | nil => cases hspace
      | cons c cs =>
          have hc : isSpace c = true := hspace
          have hrest := (isSnug_cons h).2
          rw [scan_space hc, Scan.one, drop_length_takeWhile] at hrest
          have hbehind := firm_of_isSnug hrest (any_head?_dropWhile cs)
          rw [squeeze_spaces hc hbehind, List.takeWhile_cons_of_pos (by decide), hfirm hbehind,
            List.takeWhile_cons_of_pos hc, List.length_cons, List.length_cons, List.drop_succ_cons,
            List.drop_succ_cons, drop_length_takeWhile]
          exact hquote _

/-- **A snug text looks alike when it is squeezed.** -/
theorem alike_of_isSnug {cs : List Char} (h : isSnug cs = true) : Alike cs (squeeze cs) := by
  have hescape := startsEscape_of_isSnug h
  have hquoted := opensQuote_of_isSnug h
  cases cs with
  | nil => exact ⟨rfl, rfl, rfl, rfl, Iff.rfl, Iff.rfl, rfl⟩
  | cons c cs =>
      cases hc : isBlank c with
      | false =>
          rw [Text.squeeze_cons hc] at hescape hquoted ⊢
          exact ⟨rfl, rfl, rfl, hescape, Iff.rfl, Iff.rfl, hquoted⟩
      | true =>
          obtain ⟨rest, hrest, -⟩ := Text.squeeze_of_blank hc cs
          have hspace := isSpace_of_isSnug h hc
          rw [hrest] at hescape hquoted ⊢
          simp only [isSpace, Bool.or_eq_true, beq_iff_eq] at hspace
          rcases hspace with (rfl | rfl) | rfl
          · exact ⟨rfl, rfl, rfl, hescape, Iff.rfl, Iff.rfl, hquoted⟩
          · exact ⟨rfl, rfl, rfl, hescape, by simp, by simp, hquoted⟩
          · exact ⟨rfl, rfl, rfl, hescape, by simp, by simp, hquoted⟩

/-! ## Tokens of a snug text -/

section

variable {c : Char} {cs : List Char} (h : isSnug (c :: cs) = true)
  (hfiller : (scan c cs).isFiller = false) (hne : cs.drop (scan c cs).more ≠ [])

include h hfiller hne

/-- A snug token and what stands behind it. -/
theorem exists_of_isSnug :
    ∃ s rest, cs = s ++ rest ∧ squeeze cs = s ++ squeeze rest ∧ (scan c cs).more = s.length ∧
      rest ≠ [] ∧ isSnug rest = true := by
  refine ⟨cs.take (scan c cs).more, cs.drop (scan c cs).more, (List.take_append_drop _ _).symm,
    (squeeze_of_isSnug h hfiller).2, ?_, hne, (isSnug_cons h).2⟩
  rw [List.length_take, Nat.min_eq_left]
  exact Nat.le_of_lt (Nat.lt_of_not_le fun hle => hne (List.drop_eq_nil_iff.mpr hle))

/-- What a sign in front of a name is followed by. -/
theorem starts_behind_sign
    (hmore : (scan c cs).more = (takeName cs).2 ∨ (scan c cs).more = 0) :
    startsIdent (squeeze cs) = startsIdent cs ∧ startsEscape (squeeze cs) = startsEscape cs := by
  obtain ⟨s, rest, hcs, hsqueezed, hlength, hrest, hsnug⟩ := exists_of_isSnug h hfiller hne
  rw [hlength] at hmore
  rw [hsqueezed, hcs]
  rw [hcs] at hmore
  rcases hmore with hmore | hmore
  · exact ⟨startsIdent_alike (alike_of_isSnug hsnug) hrest hmore.symm,
      startsEscape_alike (alike_of_isSnug hsnug) hrest hmore.symm⟩
  · rw [List.length_eq_zero_iff.mp hmore]
    exact ⟨startsIdent_of_isSnug hsnug, startsEscape_of_isSnug hsnug⟩

theorem startsIdent_behind_numeral (hnumeral : takeNumeral (c :: cs) ≠ []) :
    startsIdent ((c :: squeeze cs).drop (takeNumeral (c :: cs)).length) =
      startsIdent ((c :: cs).drop (takeNumeral (c :: cs)).length) := by
  obtain ⟨s, rest, hcs, hsqueezed, hlength, hrest, hsnug⟩ := exists_of_isSnug h hfiller hne
  have hscan := (scan_of_numeral hnumeral).2
  have hpositive := List.length_pos_iff.mpr hnumeral
  rw [hscan] at hlength
  have hle := le_more_scanNumeric (takeNumeral (c :: cs))
    ((c :: cs).drop (takeNumeral (c :: cs)).length)
  rw [hlength] at hle
  generalize takeNumeral (c :: cs) = text at hlength hle hpositive
  rw [hsqueezed]
  rw [hcs] at hlength ⊢
  have hin : text.length ≤ (c :: s).length := Nat.le_add_of_sub_le hle
  rw [← List.cons_append, List.drop_append_of_le_length hin] at hlength ⊢
  rw [← List.cons_append, List.drop_append_of_le_length hin]
  have hbehind : ((c :: s).drop text.length).length = s.length + 1 - text.length := List.length_drop
  -- a unit is in the token as well, so that squeezing only reaches what stands behind both
  generalize (c :: s).drop text.length = unit at hlength hbehind
  unfold scanNumeric at hlength
  split at hlength
  · refine startsIdent_alike (alike_of_isSnug hsnug) hrest ?_
    simp only [Scan.one] at hlength
    rw [List.length_cons] at hin
    omega
  · split at hlength
    · next hpercent =>
        simp only [Scan.one] at hlength
        cases unit with
        | nil =>
            rw [List.length_nil] at hbehind
            omega
        | cons d unit =>
            obtain rfl : d = '%' := Option.some.inj hpercent
            rw [List.cons_append, List.cons_append, startsIdent_percent, startsIdent_percent]
    · simp only [Scan.one] at hlength
      have hnone : unit = [] := List.length_eq_zero_iff.mp (by omega)
      rw [hnone]
      exact startsIdent_of_isSnug hsnug

theorem sameStart_of_isSnug : SameStart c cs (squeeze cs) where
  range := startsRange_squeeze c cs
  ends hrange := by
    cases cs with
    | nil => rfl
    | cons d cs =>
        rw [startsRange_cons, List.head?_cons, Option.any_some, Bool.and_eq_true, Bool.and_eq_true,
          beq_iff_eq] at hrange
        rw [hrange.1.2, Text.squeeze_cons (by decide)]
        exact takeRange_squeeze cs
  arrow := by
    rw [take_three_eq_arrow, take_three_eq_arrow, isPrefix_squeeze (by decide)]
  ident := by
    have hident := startsIdent_of_isSnug h
    rwa [Text.squeeze_cons (isBlank_of_isSnug h hfiller)] at hident
  numeral := by
    have hnumeral := takeNumeral_squeeze (c :: cs)
    rwa [Text.squeeze_cons (isBlank_of_isSnug h hfiller)] at hnumeral
  unit := startsIdent_behind_numeral h hfiller hne
  keyword hc := by
    subst hc
    refine (starts_behind_sign h hfiller hne ?_).1
    rw [scan_of_isMark (by decide), scanMark]
    split
    · exact .inl rfl
    · exact .inr rfl
  hash hc := by
    subst hc
    refine starts_behind_sign h hfiller hne ?_
    rw [scan_of_isMark (by decide), scanMark]
    split
    · exact .inl rfl
    · exact .inr rfl
  mark word hword := by
    refine isPrefix_squeeze ?_
    simp only [List.mem_cons, List.not_mem_nil, or_false] at hword
    rcases hword with rfl | rfl | rfl | rfl <;> decide

end

/-- **A token of a snug text is scanned again.** -/
theorem scan_squeeze {c : Char} {cs : List Char} (h : isSnug (c :: cs) = true)
    (hfiller : (scan c cs).isFiller = false) :
    scan c (squeeze cs) = scan c cs ∧
      (squeeze cs).drop (scan c cs).more = squeeze (cs.drop (scan c cs).more) := by
  obtain ⟨hbroken, hsqueezed⟩ := squeeze_of_isSnug h hfiller
  by_cases hne : cs.drop (scan c cs).more = []
  · rw [hne, squeeze, List.append_nil, List.take_of_length_le (List.drop_eq_nil_iff.mp hne)]
      at hsqueezed
    rw [hsqueezed, hne]
    exact ⟨rfl, rfl⟩
  · have hstart := sameStart_of_isSnug h hfiller hne
    obtain ⟨s, rest, rfl, hsqueezed, hlength, hrest, hsnug⟩ := exists_of_isSnug h hfiller hne
    rw [hsqueezed] at hstart ⊢
    refine ⟨scan_alike (alike_of_isSnug hsnug) hrest hstart hlength fun hfault => ?_, ?_⟩
    · rw [Scan.isBroken, hfault] at hbroken
      cases hbroken
    · rw [hlength, List.drop_left, List.drop_left]

/-- Blanks and comments of a snug text become blanks and comments. -/
theorem reread_of_isFiller {c : Char} {cs : List Char} (h : isSnug (c :: cs) = true)
    (hfiller : (scan c cs).isFiller = true) :
    ∃ leaf more, scan c cs = .one leaf more ∧ Reread (c :: cs) leaf (cs.drop more) := by
  have hrest := (isSnug_cons h).2
  rcases begins_of_isFiller hfiller with hc | ⟨rfl, rest, rfl⟩
  · rw [scan_space hc] at hrest ⊢
    exact ⟨_, _, rfl, reread_whitespace hc
      ⟨firm_of_isSnug hrest, fun hident => startsIdent_of_isSnug hrest ▸ hident⟩⟩
  · exact ⟨_, _, scan_comment rest, reread_comment rest⟩

/-! ## Trees of a snug text -/

/-- Two open rows that differ only in positions, blanks and comments. -/
structure RespacedFrame (f f' : Frame) : Prop where
  opener : f.opener = f'.opener
  before : Respaced f.before f'.before

/-- Two nestings that differ only in positions, blanks and comments. -/
structure RespacedNesting (n n' : Nesting) : Prop where
  frames : List.Forall₂ RespacedFrame n.frames n'.frames
  current : Respaced n.current n'.current

theorem RespacedFrame.close {f f' : Frame} (h : RespacedFrame f f') {content content' : List Node}
    (hin : Respaced content content') :
    Respaced (f.close content :: f.before) (f'.close content' :: f'.before) := by
  rw [Frame.close_eq, Frame.close_eq, h.opener]
  exact .nested _ _ _ hin h.before

/-- The same lexeme added to both. -/
theorem RespacedNesting.add {n n' : Nesting} (h : RespacedNesting n n') (p q : Position)
    (lexeme : Lexeme) : RespacedNesting (n.add ⟨p, lexeme⟩) (n'.add ⟨q, lexeme⟩) := by
  obtain ⟨frames, current⟩ := n
  obtain ⟨frames', current'⟩ := n'
  obtain ⟨hframes, hcurrent⟩ := h
  cases lexeme with
  | leaf leaf => exact ⟨hframes, .leaf p q leaf hcurrent⟩
  | openFunction name => exact ⟨.cons ⟨rfl, hcurrent⟩ hframes, .nil⟩
  | openBlock bracket => exact ⟨.cons ⟨rfl, hcurrent⟩ hframes, .nil⟩
  | close bracket =>
      cases hframes with
      | nil => exact ⟨.nil, .leaf p q _ hcurrent⟩
      | @cons f f' frames frames' hframe hframes =>
          simp only [Nesting.add, ← hframe.opener]
          split
          · exact ⟨hframes, hframe.close hcurrent.reverse⟩
          · exact ⟨.cons hframe hframes, .leaf p q _ hcurrent⟩

theorem RespacedNesting.foldl {n n' : Nesting} (h : RespacedNesting n n') (p q : Position)
    (lexemes : List Lexeme) :
    RespacedNesting ((lexemes.map (⟨p, ·⟩)).foldl Nesting.add n)
      ((lexemes.map (⟨q, ·⟩)).foldl Nesting.add n') := by
  induction lexemes generalizing n n' with
  | nil => exact h
  | cons lexeme lexemes ih => exact ih (h.add p q lexeme)

/-- Every open row is closed at the end. -/
theorem RespacedNesting.nodes {n n' : Nesting} (h : RespacedNesting n n') :
    Respaced n.nodes n'.nodes := by
  obtain ⟨frames, current⟩ := n
  obtain ⟨frames', current'⟩ := n'
  obtain ⟨hframes, hcurrent⟩ := h
  dsimp only at hframes hcurrent
  induction hframes generalizing current current' with
  | nil => exact hcurrent.reverse
  | cons hframe _ ih => exact ih _ _ (hframe.close hcurrent.reverse)

/-- **Squeezing a snug text respaces what is read of it.** -/
theorem finish_squeeze {cs : List Char} (h : isSnug cs = true) {n n' : Nesting}
    (hn : RespacedNesting n n') (p q : Position) :
    Respaced (n.finish ⟨p, cs⟩) (n'.finish ⟨q, squeeze cs⟩) := by
  induction cs using isSnug.induct generalizing n n' p q with
  | case1 =>
      rw [squeeze, n.finish_nil, n'.finish_nil]
      exact hn.nodes
  | case2 c cs ih =>
      have hrest := (isSnug_cons h).2
      cases hfiller : (scan c cs).isFiller with
      | true =>
          obtain ⟨leaf, more, hscan, c', cs', leaf', more', hsqueezed, hagain, hdrop, hsame⟩ :=
            reread_of_isFiller h hfiller
          rw [hscan] at ih hrest
          rw [n.finish_cons, hsqueezed, n'.finish_cons, hscan, hagain, Point.skip, Point.skip,
            List.drop_succ_cons, List.drop_succ_cons, Scan.one, Scan.one, hdrop]
          have hnext : RespacedNesting (n.add ⟨p, .leaf leaf⟩) (n'.add ⟨q, .leaf leaf'⟩) :=
            ⟨hn.frames, hsame p q _ _ hn.current⟩
          exact ih hrest hnext _ _
      | false =>
          obtain ⟨hagain, hdrop⟩ := scan_squeeze h hfiller
          rw [n.finish_cons, Text.squeeze_cons (isBlank_of_isSnug h hfiller),
            n'.finish_cons, hagain, Point.skip, Point.skip, List.drop_succ_cons,
            List.drop_succ_cons, hdrop]
          exact ih hrest (hn.foldl p q _) _ _

/-- **The tree of a collapsed snug text is the tree of the text**, up to blanks and comments. -/
theorem parse_collapse_of_isSnug {cs : List Char} (htrimmed : Text.strip cs = cs)
    (h : isSnug (uniform cs) = true) : Respaced (parse cs) (parse (Text.collapse cs)) := by
  rw [Text.collapse_eq_squeeze htrimmed]
  have hempty : RespacedNesting ⟨[], []⟩ ⟨[], []⟩ := ⟨.nil, .nil⟩
  have hfinish := finish_squeeze h hempty .start .start
  rw [← uniform_squeeze] at hfinish
  exact hfinish

end TokenCatalog.Css
