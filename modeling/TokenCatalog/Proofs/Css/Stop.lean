import TokenCatalog.Proofs.Css.Alike
import TokenCatalog.Proofs.Css.Spans

/-!
# Scanning up to a stop

Scanning looks ahead, but never past a semicolon, a colon, a curly bracket or a slash unless it
takes that character in. So what a scan gives does not depend on what stands behind such a
character, and if the scan does not take the character in, it might as well be the end of the text.
Main statements:

* `scan_stops` and `scan_stop`: a scan that ends in front of a stop is the scan in front of any
  other, or of the text cut off there;
* `lexemesFrom_append`: a text that a token ends with is read alike in front of every stop.
-/

namespace TokenCatalog.Css

/-- The characters in front of which a text can be cut: those that end the name or the value of a
declaration, or the head or the body of a rule, and the slash that begins a comment. -/
def isStop (c : Char) : Bool :=
  c == ';' || c == ':' || c == '\x7b' || c == '\x7d' || c == '/'

/-- A text that begins with a stop, or nothing at all. -/
def Stops (rest : List Char) : Prop :=
  ∀ c ∈ rest.head?, isStop c = true

theorem stops_nil : Stops [] := by
  simp [Stops]

theorem stops_cons {d : Char} {rest : List Char} : Stops (d :: rest) ↔ isStop d = true := by
  simp [Stops]

theorem isStop_iff {d : Char} :
    isStop d = true ↔ d = ';' ∨ d = ':' ∨ d = '\x7b' ∨ d = '\x7d' ∨ d = '/' := by
  simp [isStop, or_assoc]

def Excludes (p : Char → Bool) : Prop :=
  ∀ d, isStop d = true → p d = false

theorem excludes_of {p : Char → Bool} (h : [';', ':', '\x7b', '\x7d', '/'].all (!p ·) = true) :
    Excludes p := by
  intro d hd
  rcases isStop_iff.mp hd with rfl | rfl | rfl | rfl | rfl <;> simp_all

theorem excludes_isSpace : Excludes isSpace := excludes_of (by decide)

theorem excludes_isHex : Excludes Text.isHex := excludes_of (by decide)

theorem excludes_isDigit : Excludes isDigit := excludes_of (by decide)

theorem excludes_isNameChar : Excludes isNameChar := excludes_of (by decide)

theorem ne_of_isStop {c d : Char} (hd : isStop d = true) (hc : isStop c = false) : d ≠ c := by
  rintro rfl
  rw [hd] at hc
  cases hc

theorem excludes_beq {c : Char} (h : isStop c = false) : Excludes (· == c) :=
  fun _ hd => beq_eq_false_iff_ne.mpr (ne_of_isStop hd h)

/-- Two texts that a third is like are alike. -/
theorem Alike.of_common {xs ys zs : List Char} (h : Alike xs zs) (h' : Alike ys zs) :
    Alike xs ys where
  space := h'.space.symm.trans h.space
  hex := h'.hex.symm.trans h.hex
  nameChar := h'.nameChar.symm.trans h.nameChar
  escape := h'.escape.symm.trans h.escape
  percent := h'.percent.symm.trans h.percent
  opening := h'.opening.symm.trans h.opening
  quoted := h'.quoted.symm.trans h.quoted

theorem SameStart.of_common {c : Char} {xs ys zs : List Char} (h : SameStart c xs zs)
    (h' : SameStart c ys zs) : SameStart c xs ys where
  range := h'.range.symm.trans h.range
  ends hrange := (h'.ends ((h'.range.symm.trans h.range).trans hrange)).symm.trans (h.ends hrange)
  arrow := h'.arrow.symm.trans h.arrow
  ident := h'.ident.symm.trans h.ident
  numeral := h'.numeral.symm.trans h.numeral
  unit hne := by
    have hsame : takeNumeral (c :: ys) = takeNumeral (c :: xs) := h'.numeral.symm.trans h.numeral
    have hunit := h'.unit (hsame ▸ hne)
    rw [hsame] at hunit
    exact hunit.symm.trans (h.unit hne)
  keyword hc := (h'.keyword hc).symm.trans (h.keyword hc)
  hash hc := ⟨(h'.hash hc).1.symm.trans (h.hash hc).1, (h'.hash hc).2.symm.trans (h.hash hc).2⟩
  mark word hword := (h'.mark word hword).symm.trans (h.mark word hword)

/-! ## What is only looked at -/

section

variable {rest : List Char} (hrest : Stops rest)

include hrest

theorem Stops.takeWhile {p : Char → Bool} (hp : Excludes p) (s : List Char) :
    (s ++ rest).takeWhile p = s.takeWhile p := by
  have hnone : rest.takeWhile p = [] := by
    cases rest with
    | nil => rfl
    | cons d r => simp [hp d (hrest d rfl)]
  rw [List.takeWhile_append, hnone, List.append_nil]
  split
  · next h => exact ((List.takeWhile_prefix p).eq_of_length h).symm
  · rfl

theorem Stops.take (n : Nat) : Stops (rest.take n) := by
  cases n with
  | zero => exact stops_nil
  | succ n => cases rest <;> exact hrest

theorem Stops.takeWhile_take {p : Char → Bool} (hp : Excludes p) (n : Nat) (s : List Char) :
    ((s ++ rest).take n).takeWhile p = (s.take n).takeWhile p := by
  rw [List.take_append]
  exact (hrest.take _).takeWhile hp _

theorem Stops.any_head? {p : Char → Bool} (hp : Excludes p) (s : List Char) :
    (s ++ rest).head?.any p = s.head?.any p := by
  cases s with
  | nil =>
      cases rest with
      | nil => rfl
      | cons d r => exact hp d (hrest d rfl)
  | cons c s => rfl

theorem Stops.head?_eq {c : Char} (hc : isStop c = false) (s : List Char) :
    (s ++ rest).head? = some c ↔ s.head? = some c := by
  cases s with
  | cons d s => exact Iff.rfl
  | nil =>
      cases rest with
      | nil => exact Iff.rfl
      | cons d r => simp [ne_of_isStop (hrest d rfl) hc]

/-- What begins the text and is no stop begins what stands in front of one. -/
theorem Stops.exists_of_append_eq {d : Char} {s tail : List Char} (h : s ++ rest = d :: tail)
    (hd : isStop d = false) : ∃ s', s = d :: s' ∧ tail = s' ++ rest := by
  cases s with
  | nil =>
      rw [List.nil_append] at h
      subst h
      exact absurd rfl (ne_of_isStop (hrest d rfl) hd)
  | cons e s =>
      obtain ⟨rfl, rfl⟩ := List.cons.inj h
      exact ⟨s, rfl, rfl⟩

theorem startsEscape_append (s : List Char) : startsEscape (s ++ rest) = startsEscape s := by
  cases s with
  | nil =>
      cases rest with
      | nil => rfl
      | cons d r =>
          have hd : (d == '\\') = false := excludes_beq (by decide) d (hrest d rfl)
          rw [List.nil_append, startsEscape_cons, hd]
          rfl
  | cons c s =>
      rw [List.cons_append, startsEscape_cons, startsEscape_cons,
        hrest.any_head? (excludes_beq (by decide))]

theorem startsIdent_append (s : List Char) : startsIdent (s ++ rest) = startsIdent s := by
  cases s with
  | nil =>
      cases rest with
      | nil => rfl
      | cons d r => rcases isStop_iff.mp (hrest d rfl) with rfl | rfl | rfl | rfl | rfl <;> rfl
  | cons c s =>
      have hescape := startsEscape_append hrest (c :: s)
      rw [List.cons_append] at hescape ⊢
      rw [startsIdent_cons, startsIdent_cons, startsEscape_append hrest s, hescape,
        hrest.any_head? (excludes_of (by decide))]

theorem startsRange_append (c : Char) (s : List Char) :
    startsRange (c :: (s ++ rest)) = startsRange (c :: s) := by
  rw [startsRange_cons, startsRange_cons, hrest.any_head? (excludes_beq (by decide))]
  cases s with
  | nil => simp
  | cons e s =>
      rw [List.cons_append, List.tail_cons, List.tail_cons,
        hrest.any_head? (excludes_of (by decide))]

theorem takeFraction_append (s : List Char) : takeFraction (s ++ rest) = takeFraction s := by
  cases s with
  | nil =>
      cases rest with
      | nil => rfl
      | cons d r => rcases isStop_iff.mp (hrest d rfl) with rfl | rfl | rfl | rfl | rfl <;> rfl
  | cons c s =>
      by_cases hc : c = '.'
      · subst hc
        rw [List.cons_append, takeFraction, takeFraction,
          hrest.takeWhile excludes_isDigit]
      · simp [takeFraction, hc]

theorem takeExponent_append (s : List Char) : takeExponent (s ++ rest) = takeExponent s := by
  have hdigits := hrest.takeWhile excludes_isDigit
  match s with
  | [] =>
      cases rest with
      | nil => rfl
      | cons d r => rcases isStop_iff.mp (hrest d rfl) with rfl | rfl | rfl | rfl | rfl <;> rfl
  | [c] =>
      cases rest with
      | nil => rfl
      | cons d r =>
          have hd := hrest d rfl
          have hdigit := excludes_isDigit d hd
          rcases isStop_iff.mp hd with rfl | rfl | rfl | rfl | rfl <;>
            simp [takeExponent, hdigit]
  | c :: e :: s =>
      by_cases hplus : e = '+'
      · subst hplus
        simp [takeExponent, hdigits]
      · by_cases hminus : e = '-'
        · subst hminus
          simp [takeExponent, hdigits]
        · have hall := hdigits (e :: s)
          rw [List.cons_append] at hall
          simp [takeExponent, hplus, hminus, hall]

/-- The digits of a number, its fraction and its exponent, after the sign. -/
theorem numeral_append (s : List Char) :
    (s ++ rest).takeWhile isDigit = s.takeWhile isDigit ∧
      takeFraction ((s ++ rest).drop (s.takeWhile isDigit).length) =
        takeFraction (s.drop (s.takeWhile isDigit).length) ∧
      takeExponent ((s ++ rest).drop (s.takeWhile isDigit ++
          takeFraction (s.drop (s.takeWhile isDigit).length)).length) =
        takeExponent (s.drop (s.takeWhile isDigit ++
          takeFraction (s.drop (s.takeWhile isDigit).length)).length) := by
  have hwhole : (s.takeWhile isDigit).length ≤ s.length := (List.takeWhile_prefix _).length_le
  have hfraction := (takeFraction_isPrefix (s.drop (s.takeWhile isDigit).length)).length_le
  rw [List.length_drop] at hfraction
  refine ⟨hrest.takeWhile excludes_isDigit s, ?_, ?_⟩
  · rw [List.drop_append_of_le_length hwhole, takeFraction_append hrest]
  · rw [List.drop_append_of_le_length (by rw [List.length_append]; omega),
      takeExponent_append hrest]

theorem takeNumeral_append (c : Char) (s : List Char) :
    takeNumeral (c :: (s ++ rest)) = takeNumeral (c :: s) := by
  by_cases hplus : c = '+'
  · subst hplus
    obtain ⟨hwhole, hfraction, hexponent⟩ := numeral_append hrest s
    simp only [takeNumeral, List.length_singleton, List.drop_one, List.tail_cons, hwhole,
      hfraction, hexponent]
  · by_cases hminus : c = '-'
    · subst hminus
      obtain ⟨hwhole, hfraction, hexponent⟩ := numeral_append hrest s
      simp only [takeNumeral, List.length_singleton, List.drop_one, List.tail_cons, hwhole,
        hfraction, hexponent]
    · obtain ⟨hwhole, hfraction, hexponent⟩ := numeral_append hrest (c :: s)
      rw [List.cons_append] at hwhole hfraction hexponent
      rw [List.length_append] at hexponent
      simp [takeNumeral, hplus, hminus, hwhole, hfraction, hexponent]

theorem takeRange_append (s : List Char) : takeRange (s ++ rest) = takeRange s := by
  have hdigits := hrest.takeWhile_take excludes_isHex 6 s
  generalize hn : (s.take 6).takeWhile Text.isHex = digits at hdigits
  have hle : digits.length ≤ (s.take 6).length := by
    rw [← hn]
    exact (List.takeWhile_prefix _).length_le
  have hshort : digits.length ≤ s.length := Nat.le_trans hle (List.length_take_le' 6 s)
  have hmarks : (((s ++ rest).take 6).drop digits.length).takeWhile (· == '?') =
      ((s.take 6).drop digits.length).takeWhile (· == '?') := by
    rw [List.take_append, List.drop_append_of_le_length hle]
    exact (hrest.take _).takeWhile (excludes_beq (by decide)) _
  rw [takeRange, takeRange, hn, hdigits, hmarks, List.drop_append_of_le_length hshort]
  cases hlast : s.drop digits.length with
  | nil =>
      cases rest with
      | nil => rfl
      | cons d r =>
          rcases isStop_iff.mp (hrest d rfl) with rfl | rfl | rfl | rfl | rfl <;> rfl
  | cons c v =>
      by_cases hc : c = '-'
      · subst hc
        simp only [List.cons_append, hrest.takeWhile_take excludes_isHex]
      · simp [hc]

theorem Stops.isPrefix {word : List Char} (hword : word.all (!isStop ·) = true) (s : List Char) :
    word <+: s ++ rest ↔ word <+: s := by
  refine ⟨fun h => ?_, fun h => h.trans (List.prefix_append s rest)⟩
  induction word generalizing s with
  | nil => exact List.nil_prefix
  | cons c word ih =>
      rw [List.all_cons, Bool.and_eq_true, Bool.not_eq_true'] at hword
      obtain ⟨more, hmore⟩ := h
      obtain ⟨s', rfl, htail⟩ := hrest.exists_of_append_eq hmore.symm hword.1
      exact List.cons_prefix_cons.mpr ⟨rfl, ih hword.2 s' ⟨more, htail⟩⟩

/-! ## Scans -/

theorem Stops.alike (s : List Char) : Alike (s ++ rest) s where
  space := (hrest.any_head? excludes_isSpace s).symm
  hex := (hrest.any_head? excludes_isHex s).symm
  nameChar := (hrest.any_head? excludes_isNameChar s).symm
  escape := (startsEscape_append hrest s).symm
  percent := (hrest.head?_eq (by decide) s).symm
  opening := (hrest.head?_eq (by decide) s).symm
  quoted := by
    have hle : (s.takeWhile isSpace).length ≤ s.length := (List.takeWhile_prefix _).length_le
    rw [opensQuote, opensQuote, hrest.takeWhile excludes_isSpace, List.drop_append_of_le_length hle,
      hrest.any_head? (excludes_of (by decide))]

theorem Stops.sameStart (c : Char) (s : List Char) : SameStart c (s ++ rest) s where
  range := (startsRange_append hrest c s).symm
  ends hrange := by
    cases s with
    | nil =>
        rw [startsRange_append hrest] at hrange
        cases hrange
    | cons e s => exact (takeRange_append hrest s).symm
  arrow := by
    rw [take_three_eq_arrow, take_three_eq_arrow, hrest.isPrefix (by decide)]
  ident := (startsIdent_append hrest (c :: s)).symm
  numeral := (takeNumeral_append hrest c s).symm
  unit _ := by
    have hle := (takeNumeral_isPrefix (c :: s)).length_le
    rw [takeNumeral_append hrest, ← List.cons_append, List.drop_append_of_le_length hle,
      startsIdent_append hrest]
  keyword _ := (startsIdent_append hrest s).symm
  hash _ := ⟨(startsIdent_append hrest s).symm, (startsEscape_append hrest s).symm⟩
  mark word hword := by
    simp only [List.mem_cons, List.not_mem_nil, or_false] at hword
    refine (hrest.isPrefix ?_ s).symm
    rcases hword with rfl | rfl | rfl | rfl <;> decide

/-- **A scan that ends in front of a stop does not depend on what stands there**, as long as it is a
stop or the end of the text. -/
theorem scan_stops {rest' : List Char} (hrest' : Stops rest') (hne : rest ≠ []) (c : Char)
    (s : List Char)
    (h : (scan c (s ++ rest)).more ≤ s.length) : scan c (s ++ rest') = scan c (s ++ rest) := by
  have hs := List.take_append_drop (scan c (s ++ rest)).more s
  have hlength : (s.take (scan c (s ++ rest)).more).length = (scan c (s ++ rest)).more := by
    rw [List.length_take, Nat.min_eq_left h]
  generalize s.take (scan c (s ++ rest)).more = front at hs hlength
  generalize s.drop (scan c (s ++ rest)).more = behind at hs
  subst hs
  have hstart := (hrest.sameStart c (front ++ behind)).of_common
      (hrest'.sameStart c (front ++ behind))
  rw [List.append_assoc, List.append_assoc] at hstart
  rw [List.append_assoc] at hlength ⊢
  rw [List.append_assoc]
  refine scan_alike ((hrest.alike behind).of_common (hrest'.alike behind)) (by simp [hne]) hstart
    hlength.symm fun _ hline => ?_
  -- a string that a line end cuts off ends in front of the stop, which is none
  obtain ⟨cs, hcs⟩ := List.head?_eq_some_iff.mp hline
  obtain ⟨behind, rfl, -⟩ := hrest.exists_of_append_eq hcs (by decide)
  rfl

/-- **A scan that ends in front of a stop is the scan of the text cut off there.** -/
theorem scan_stop (c : Char) (s : List Char) (h : (scan c (s ++ rest)).more ≤ s.length) :
    scan c (s ++ rest) = scan c s := by
  by_cases hne : rest = []
  · rw [hne, List.append_nil]
  · have hscan := scan_stops hrest stops_nil hne c s h
    rw [List.append_nil] at hscan
    exact hscan.symm

end

/-! ## Tokens in front of a stop -/

theorem lexemesFrom_cons (p : Position) (c : Char) (cs : List Char) :
    lexemesFrom p (c :: cs) =
      (scan c cs).lexemes.map (⟨p, ·⟩) ++
        lexemesFrom (p.after (c :: cs.take (scan c cs).more)) (cs.drop (scan c cs).more) := by
  rw [lexemesFrom]

theorem lexemes_ne_nil (c : Char) (cs : List Char) : (scan c cs).lexemes ≠ [] := by
  have hkind := scan_kind c cs
  generalize scan c cs = scanned at hkind
  cases hkind <;> exact List.cons_ne_nil _ _

theorem lexemesFrom_ne_nil (p : Position) {cs : List Char} (h : cs ≠ []) :
    lexemesFrom p cs ≠ [] := by
  obtain ⟨c, cs, rfl⟩ := List.exists_cons_of_ne_nil h
  rw [lexemesFrom_cons]
  exact List.append_ne_nil_of_left_ne_nil (by simpa using lexemes_ne_nil c cs) _

def lastLexeme? (row : List Located) : Option Lexeme :=
  row.getLast?.map Located.lexeme

theorem lastLexeme?_append {row : List Located} (h : row ≠ []) (front : List Located) :
    lastLexeme? (front ++ row) = lastLexeme? row := by
  obtain ⟨last, hlast⟩ := Option.ne_none_iff_exists'.mp (mt List.getLast?_eq_none_iff.mp h)
  rw [lastLexeme?, lastLexeme?, List.getLast?_append, hlast]
  rfl

/-- A comment that a scan ends in is all that it takes. -/
theorem scan_of_last_comment {c : Char} {cs text : List Char}
    (h : (scan c cs).lexemes.getLast? = some (.leaf (.comment text))) :
    ∃ rest, c = '/' ∧ cs = '*' :: rest ∧ (takeComment rest).1 = text := by
  have hkind := scan_kind c cs
  generalize scan c cs = scanned at h hkind
  cases hkind with
  | leaf c cs leaf more hleaf =>
      cases h
      exact absurd rfl (hleaf text)
  | comment rest more =>
      cases h
      exact ⟨rest, rfl, rfl, rfl⟩
  | ended => cases h
  | opening c cs opener => cases opener <;> cases h
  | closing => cases h

/-- Only a slash and a star begin a comment. -/
theorem isInfix_of_last_comment {p : Position} {cs text : List Char}
    (h : lastLexeme? (lexemesFrom p cs) = some (.leaf (.comment text))) : ['/', '*'] <:+: cs := by
  induction p, cs using lexemesFrom.induct with
  | case1 p =>
      rw [lexemesFrom] at h
      cases h
  | case2 p c cs s ih =>
      rw [lexemesFrom_cons] at h
      by_cases hrest : cs.drop (scan c cs).more = []
      · rw [hrest, lexemesFrom, List.append_nil, lastLexeme?, List.getLast?_map,
          Option.map_map] at h
        obtain ⟨lexeme, hlast, hlexeme⟩ := Option.map_eq_some_iff.mp h
        obtain rfl : lexeme = .leaf (.comment text) := hlexeme
        obtain ⟨rest, rfl, rfl, -⟩ := scan_of_last_comment hlast
        exact ⟨[], rest, rfl⟩
      · rw [lastLexeme?_append (lexemesFrom_ne_nil _ hrest)] at h
        exact List.infix_cons ((ih h).trans (List.drop_suffix _ _).isInfix)

/-- **A text that a token ends with is read alike in front of every stop.** Whether a token ends
there can be told by an empty comment: it is read as such only if no token goes on into it. -/
theorem lexemesFrom_append {p : Position} {cs rest : List Char} (hrest : Stops rest)
    (hwhole : lastLexeme? (lexemesFrom p (cs ++ "/**/".toList)) = some (.leaf (.comment []))) :
    lexemesFrom p (cs ++ rest) = lexemesFrom p cs ++ lexemesFrom (p.after cs) rest := by
  have hprobe : Stops "/**/".toList := stops_cons.mpr rfl
  induction hn : cs.length using Nat.strongRecOn generalizing p cs with
  | ind n ih =>
      cases cs with
      | nil =>
          rw [lexemesFrom, List.nil_append]
          rfl
      | cons c s =>
          rw [List.cons_append, lexemesFrom_cons] at hwhole
          by_cases hmore : (scan c (s ++ "/**/".toList)).more ≤ s.length
          · have hscan := scan_stops hprobe hrest (List.cons_ne_nil _ _) c s hmore
            have hscan' := scan_stop hprobe c s hmore
            rw [List.take_append_of_le_length hmore, List.drop_append_of_le_length hmore,
              lastLexeme?_append (lexemesFrom_ne_nil _ (by simp))] at hwhole
            have hlength : (s.drop (scan c (s ++ "/**/".toList)).more).length < n := by
              rw [List.length_drop, ← hn, List.length_cons]
              omega
            have hbehind := ih _ hlength hwhole rfl
            rw [List.cons_append, lexemesFrom_cons, lexemesFrom_cons, hscan, ← hscan',
              List.take_append_of_le_length hmore, List.drop_append_of_le_length hmore, hbehind,
              ← Position.after_append, List.cons_append, List.take_append_drop, List.append_assoc]
          -- otherwise the token goes on into the comment, and what is left of that begins none
          · exfalso
            by_cases htail : (s ++ "/**/".toList).drop (scan c (s ++ "/**/".toList)).more = []
            · rw [htail, lexemesFrom, List.append_nil, lastLexeme?, List.getLast?_map,
                Option.map_map] at hwhole
              obtain ⟨lexeme, hlast, hlexeme⟩ := Option.map_eq_some_iff.mp hwhole
              obtain rfl : lexeme = .leaf (.comment []) := hlexeme
              obtain ⟨more, rfl, hs, hempty⟩ := scan_of_last_comment hlast
              have hle := List.drop_eq_nil_iff.mp htail
              rw [hs, scan_comment, Scan.one, hempty, ← hs] at hle
              have hlength : (s ++ "/**/".toList).length = s.length + 4 := List.length_append
              split at hle <;> simp only [List.length_nil] at hle <;> omega
            · rw [lastLexeme?_append (lexemesFrom_ne_nil _ htail), List.drop_append,
                List.drop_eq_nil_of_le (by omega), List.nil_append] at hwhole
              have hcut : "/**/".toList.drop ((scan c (s ++ "/**/".toList)).more - s.length) <:+
                  "**/".toList := by
                obtain ⟨j, hj⟩ : ∃ j, (scan c (s ++ "/**/".toList)).more - s.length = j + 1 :=
                  ⟨_, (Nat.succ_pred_eq_of_pos (by omega)).symm⟩
                rw [hj]
                exact List.drop_suffix j "**/".toList
              exact absurd ((isInfix_of_last_comment hwhole).trans hcut.isInfix) (by decide)

end TokenCatalog.Css
