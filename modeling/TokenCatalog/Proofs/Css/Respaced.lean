import TokenCatalog.Proofs.Css.Numeral

/-!
# Values with single spaces

Collapsing the blanks of a value changes the blanks and the comments of its tree and nothing else,
as long as its tokens are of the sturdy kinds: numbers, percentages, commas, and functions whose
names hold no blank. Main statements:

* `Respaced`: two rows of nodes that differ in their positions, blanks and comments only;
* `SturdyRow`: a row of such nodes;
* `Spans.squeeze`: what spans a text spans the squeezed text, up to that difference;
* `parse_collapse`: so the tree of a collapsed text is the tree of the text, respaced.
-/

namespace TokenCatalog.Css

open Text (isBlank squeeze Firm)

def Leaf.isQuantity : Leaf → Bool
  | .number _ => true
  | .percentage _ => true
  | _ => false

theorem Leaf.exists_numeral {leaf : Leaf} (h : leaf.isQuantity = true) :
    ∃ n, leaf.numeral? = some n := by
  cases leaf with
  | number n => exact ⟨n, rfl⟩
  | percentage n => exact ⟨n, rfl⟩
  | _ => cases h

/-! ## Rows -/

/-- Two rows differ only in the positions of their nodes and in what their blanks and comments
hold. -/
inductive Respaced : List Node → List Node → Prop
  | nil : Respaced [] []
  | filler {x y : Node} {xs ys : List Node} (hx : x.isFiller = true) (hy : y.isFiller = true)
      (h : Respaced xs ys) : Respaced (x :: xs) (y :: ys)
  | leaf (p q : Position) (leaf : Leaf) {xs ys : List Node} (h : Respaced xs ys) :
      Respaced (.leaf p leaf :: xs) (.leaf q leaf :: ys)
  | nested (p q : Position) (opener : Opener) {content content' xs ys : List Node}
      (hin : Respaced content content') (h : Respaced xs ys) :
      Respaced (opener.node p content :: xs) (opener.node q content' :: ys)

theorem Respaced.symm {xs ys : List Node} (h : Respaced xs ys) : Respaced ys xs := by
  induction h with
  | nil => exact .nil
  | filler hx hy _ ih => exact .filler hy hx ih
  | leaf p q leaf _ ih => exact .leaf q p leaf ih
  | nested p q opener _ _ ihin ih => exact .nested q p opener ihin ih

theorem Respaced.append {xs xs' ys ys' : List Node} (h : Respaced xs ys) (h' : Respaced xs' ys') :
    Respaced (xs ++ xs') (ys ++ ys') := by
  induction h with
  | nil => exact h'
  | filler hx hy _ ih => exact .filler hx hy ih
  | leaf p q leaf _ ih => exact .leaf p q leaf ih
  | nested p q opener hin _ _ ih => exact .nested p q opener hin ih

theorem Respaced.reverse {xs ys : List Node} (h : Respaced xs ys) :
    Respaced xs.reverse ys.reverse := by
  induction h with
  | nil => exact .nil
  | filler hx hy _ ih =>
      rw [List.reverse_cons, List.reverse_cons]
      exact ih.append (.filler hx hy .nil)
  | leaf p q leaf _ ih =>
      rw [List.reverse_cons, List.reverse_cons]
      exact ih.append (.leaf p q leaf .nil)
  | nested p q opener hin _ _ ih =>
      rw [List.reverse_cons, List.reverse_cons]
      exact ih.append (.nested p q opener hin .nil)

/-- Whether a leaf is a token that the blanks around it cannot change, or a blank or comment
itself. -/
def Leaf.isSturdy : Leaf → Bool
  | .whitespace _ => true
  | .comment _ => true
  | .literal text => text == [',']
  | leaf => leaf.isQuantity

/-- A row of sturdy leaves, and of functions that hold such rows and have no blank in their
names. -/
inductive SturdyRow : List Node → Prop
  | nil : SturdyRow []
  | leaf (p : Position) {leaf : Leaf} {nodes : List Node} (hleaf : leaf.isSturdy = true)
      (h : SturdyRow nodes) : SturdyRow (.leaf p leaf :: nodes)
  | function (p : Position) {name : List Char} {arguments nodes : List Node}
      (hname : ∀ c ∈ name, isBlank c = false) (hurl : Text.asciiLower name ≠ "url".toList)
      (hin : SturdyRow arguments) (h : SturdyRow nodes) :
      SturdyRow (.function p name arguments :: nodes)

/-- A text that begins alike when it is squeezed: not with a blank that is none of uniform text, nor
with an escape that a line end keeps from being one. -/
structure Steady (cs : List Char) : Prop where
  firm : cs.head?.any isSpace = false → Firm cs
  ident : startsIdent (squeeze cs) = true → startsIdent cs = true

theorem steady_nil : Steady [] :=
  ⟨fun _ => Text.firm_nil, id⟩

/-- A text that begins with a mark. -/
theorem steady_of_isMark {c : Char} (hmark : isMark c = true) (hc : isBlank c = false)
    (cs : List Char) : Steady (c :: cs) where
  firm _ := Text.firm_cons.mpr hc
  ident h := by
    rw [Text.squeeze_cons hc, startsIdent_cons] at h
    simp only [isMark, Bool.not_or, Bool.and_eq_true, Bool.not_eq_true', List.contains_eq_mem,
      decide_eq_false_iff_not, List.mem_cons, List.not_mem_nil, or_false, not_or] at hmark
    obtain ⟨⟨⟨-, hstart⟩, -⟩, hminus, -, -, hslash⟩ := hmark
    rw [if_neg hminus, hstart, startsEscape_cons, beq_false_of_ne hslash] at h
    cases h

theorem isBlank_of_quantity {c : Char} {cs : List Char} (h : takeNumeral (c :: cs) ≠ []) :
    isBlank c = false := by
  obtain ⟨rest, hrest⟩ := takeNumeral_isPrefix (c :: cs)
  cases hnumeral : takeNumeral (c :: cs) with
  | nil => exact absurd hnumeral h
  | cons d ds =>
      rw [hnumeral] at hrest
      have hd : d ∈ takeNumeral (c :: cs) := hnumeral ▸ List.mem_cons_self
      rw [← (List.cons.inj hrest).1]
      exact isBlank_of_mem_takeNumeral hd

theorem steady_of_numeral {c : Char} {cs : List Char} (h : takeNumeral (c :: cs) ≠ []) :
    Steady (c :: cs) where
  firm _ := Text.firm_cons.mpr (isBlank_of_quantity h)
  ident hident := by
    have hsame := takeNumeral_squeeze (c :: cs)
    rw [Text.squeeze_cons (isBlank_of_quantity h)] at hsame hident
    rw [(scan_of_numeral (hsame ▸ h)).1] at hident
    cases hident

theorem steady_of_isSpace {c : Char} (h : isSpace c = true) (cs : List Char) :
    Steady (c :: cs) where
  firm hspace := by
    rw [List.head?_cons, Option.any_some, h] at hspace
    cases hspace
  ident hident := by
    obtain ⟨rest, hrest, -⟩ := Text.squeeze_of_blank (isBlank_of_isSpace h) cs
    rw [hrest] at hident
    cases hident

/-! ## Sturdy leaves -/

/-- Squeezed, a text still begins with a token, or with some blank or comment if that was one, and
goes on with what is left, squeezed. -/
def Reread (text : List Char) (leaf : Leaf) (rest : List Char) : Prop :=
  ∃ c cs leaf' more, squeeze text = c :: cs ∧ scan c cs = .one leaf' more ∧
    cs.drop more = squeeze rest ∧ ∀ p q xs ys, Respaced xs ys →
      Respaced (.leaf p leaf :: xs) (.leaf q leaf' :: ys)

/-- The blanks that begin a text, if nothing but blanks of uniform text is among them. -/
theorem squeeze_spaces {c : Char} {cs : List Char} (hc : isSpace c = true)
    (hfirm : Firm (cs.dropWhile isSpace)) :
    squeeze (c :: cs) = ' ' :: squeeze (cs.dropWhile isSpace) := by
  have hblanks : ∀ d ∈ cs.takeWhile isSpace, isBlank d = true := fun d hd =>
    isBlank_of_isSpace (List.mem_takeWhile_imp hd)
  have hrun := Text.squeeze_run (isBlank_of_isSpace hc) hblanks hfirm
  rwa [List.takeWhile_append_dropWhile] at hrun

theorem any_head?_dropWhile (cs : List Char) :
    (cs.dropWhile isSpace).head?.any isSpace = false := by
  cases hhead : (cs.dropWhile isSpace).head? with
  | none => rfl
  | some d =>
      have hnot := List.head?_dropWhile_not isSpace cs
      rw [hhead] at hnot
      simpa using hnot

theorem reread_whitespace {c : Char} {cs : List Char} (hc : isSpace c = true)
    (hnext : Steady (cs.drop (cs.takeWhile isSpace).length)) :
    Reread (c :: cs) (.whitespace (c :: cs.takeWhile isSpace))
      (cs.drop (cs.takeWhile isSpace).length) := by
  rw [drop_length_takeWhile] at hnext ⊢
  have hfirm : Firm (cs.dropWhile isSpace) := hnext.firm (any_head?_dropWhile cs)
  have hrun := squeeze_spaces hc hfirm
  have hnone : (squeeze (cs.dropWhile isSpace)).takeWhile isSpace = [] := by
    cases hrest : cs.dropWhile isSpace with
    | nil => rfl
    | cons d rest =>
        rw [hrest] at hfirm
        have hd := Text.firm_cons.mp hfirm
        rw [Text.squeeze_cons hd, List.takeWhile_cons_of_neg
          (Bool.eq_false_iff.mp (not_isSpace hd))]
  refine ⟨' ', _, .whitespace [' '], 0, hrun, ?_, rfl, fun p q xs ys h => .filler rfl rfl h⟩
  rw [scan, hnone]
  rfl

theorem reread_comment (rest : List Char) :
    Reread ('/' :: '*' :: rest) (.comment (takeComment rest).1)
      (('*' :: rest).drop ((takeComment rest).1.length +
        if (takeComment rest).2 then 3 else 1)) := by
  have hmore : ∀ (n : Nat) (closed : Bool) (xs : List Char),
      ('*' :: xs).drop (n + if closed then 3 else 1) = xs.drop (n + if closed then 2 else 0) := by
    intro n closed xs
    cases closed <;> rfl
  have hsqueezed : squeeze ('/' :: '*' :: rest) = '/' :: '*' :: squeeze rest := by
    rw [Text.squeeze_cons (by decide), Text.squeeze_cons (by decide)]
  refine ⟨'/', '*' :: squeeze rest, _, _, hsqueezed, scan_comment (squeeze rest), ?_,
    fun p q xs ys h => .filler rfl rfl h⟩
  rw [hmore, hmore, takeComment_squeeze]
  exact drop_takeComment_squeeze rest

theorem reread_comma (cs : List Char) : Reread (',' :: cs) (.literal [',']) cs :=
  ⟨',', squeeze cs, .literal [','], 0, Text.squeeze_cons (by decide) cs, scan_comma _, rfl,
    fun p q _ _ h => .leaf p q _ h⟩

theorem startsIdent_percent (cs : List Char) : startsIdent ('%' :: cs) = false := by
  rw [startsIdent_cons, startsEscape_cons]
  rfl

theorem reread_quantity {c : Char} {cs : List Char} {leaf : Leaf} {more : Nat}
    (hscan : scan c cs = .one leaf more) (hleaf : leaf.isQuantity = true)
    (hnext : Steady (cs.drop more)) : Reread (c :: cs) leaf (cs.drop more) := by
  obtain ⟨_, hheld⟩ := Leaf.exists_numeral hleaf
  have hnumeral := takeNumeral_of_scan hscan hheld
  have hsqueezed := Text.squeeze_cons (isBlank_of_quantity hnumeral) cs
  have hsame := takeNumeral_squeeze (c :: cs)
  have hbehind := drop_squeeze (takeNumeral_isPrefix (c :: cs)) fun _ => isBlank_of_mem_takeNumeral
  have hplain := (scan_of_numeral hnumeral).2
  rw [hsqueezed] at hsame hbehind
  have hnumeral' : takeNumeral (c :: squeeze cs) ≠ [] := hsame ▸ hnumeral
  have hagain := (scan_of_numeral hnumeral').2
  rw [hsame, hbehind] at hagain
  rw [hplain] at hscan
  clear hplain hsame
  -- the numeral is the same in both texts, so that only what stands behind it matters
  generalize takeNumeral (c :: cs) = text at hnumeral hagain hbehind hscan
  obtain ⟨n, hn⟩ : ∃ n, text.length = n + 1 :=
    Nat.exists_eq_succ_of_ne_zero (by simpa using hnumeral)
  rw [hn, List.drop_succ_cons] at hbehind hscan hagain
  rw [List.drop_succ_cons] at hbehind
  unfold scanNumeric at hscan
  split at hscan
  · cases hscan
    cases hleaf
  · next hident =>
      split at hscan
      · next hpercent =>
          cases hscan
          obtain ⟨rest, hrest⟩ := List.head?_eq_some_iff.mp hpercent
          have hpercent : squeeze ('%' :: rest) = '%' :: squeeze rest :=
            Text.squeeze_cons (by decide) rest
          rw [hn, ← List.drop_drop, hrest]
          rw [hrest, hpercent] at hbehind hagain
          refine ⟨c, squeeze cs, .percentage ⟨text⟩, n + 1, hsqueezed, ?_, ?_,
            fun p q _ _ h => .leaf p q _ h⟩
          · rw [hagain, scanNumeric, startsIdent_percent, hn]
            rfl
          · rw [← List.drop_drop, hbehind]
            rfl
      · next hpercent =>
          cases hscan
          rw [hn, Nat.add_sub_cancel] at hnext ⊢
          refine ⟨c, squeeze cs, .number ⟨text⟩, n, hsqueezed, ?_, hbehind,
            fun p q _ _ h => .leaf p q _ h⟩
          have hident' : startsIdent (squeeze (cs.drop n)) = false :=
            Bool.eq_false_iff.mpr fun h => hident (hnext.ident h)
          have hpercent' : (squeeze (cs.drop n)).head? ≠ some '%' := by
            intro h
            obtain ⟨rest, hrest⟩ : ∃ rest, squeeze (cs.drop n) = ['%'] ++ rest :=
              List.head?_eq_some_iff.mp h
            obtain ⟨zs, hzs, -⟩ := Text.exists_of_squeeze_append (by decide) hrest
            rw [hzs] at hpercent
            exact hpercent rfl
          rw [hagain, scanNumeric, hident', if_neg hpercent', hn]
          rfl

/-- **A sturdy leaf is read again.** -/
theorem reread_of_scan {c : Char} {cs : List Char} {leaf : Leaf} {more : Nat}
    (hscan : scan c cs = .one leaf more) (hleaf : leaf.isSturdy = true)
    (hnext : Steady (cs.drop more)) : Reread (c :: cs) leaf (cs.drop more) := by
  have hreads := scan_reads c cs
  rw [hscan] at hreads
  generalize hscanned : Scan.one leaf more = scanned at hreads
  cases hreads with
  | whitespace hc =>
      cases hscanned
      exact reread_whitespace hc hnext
  | literal htext =>
      cases hscanned
      rw [htext, Leaf.isSturdy, beq_iff_eq] at hleaf
      obtain ⟨rfl, hmore⟩ := List.cons.inj hleaf
      cases (scan_comma cs).symm.trans hscan
      exact reread_comma cs
  | comment hc hrest =>
      cases hscanned
      subst hc hrest
      exact reread_comment _
  | number =>
      cases hscanned
      exact reread_quantity hscan rfl hnext
  | percentage =>
      cases hscanned
      exact reread_quantity hscan rfl hnext
  | _ => cases hscanned <;> cases hleaf

/-- A text that begins with a sturdy leaf begins alike when it is squeezed. -/
theorem steady_of_scan {c : Char} {cs : List Char} {leaf : Leaf} {more : Nat}
    (hscan : scan c cs = .one leaf more) (hleaf : leaf.isSturdy = true) : Steady (c :: cs) := by
  have hreads := scan_reads c cs
  rw [hscan] at hreads
  generalize hscanned : Scan.one leaf more = scanned at hreads
  cases hreads with
  | whitespace hc => exact steady_of_isSpace hc cs
  | literal htext =>
      cases hscanned
      rw [htext, Leaf.isSturdy, beq_iff_eq] at hleaf
      rw [(List.cons.inj hleaf).1]
      exact steady_of_isMark (by decide) (by decide) cs
  | comment hc =>
      subst hc
      exact steady_of_isMark (by decide) (by decide) cs
  | number =>
      cases hscanned
      exact steady_of_numeral (takeNumeral_of_scan hscan rfl)
  | percentage =>
      cases hscanned
      exact steady_of_numeral (takeNumeral_of_scan hscan rfl)
  | _ => cases hscanned <;> cases hleaf

/-! ## Names and functions -/

def Lexeme.isWord : Lexeme → Bool
  | .leaf (.ident _) => true
  | .openFunction _ => true
  | _ => false

/-- A name is scanned as such where nothing else begins the text. -/
theorem scan_of_isWord {c : Char} {cs : List Char} {l : Lexeme} (hscan : (scan c cs).lexemes = [l])
    (hl : l.isWord = true) :
    startsRange (c :: cs) = false ∧ (c :: cs).take 3 ≠ "-->".toList ∧
      startsIdent (c :: cs) = true := by
  refine ⟨?_, ?_, ?_⟩
  · refine Bool.eq_false_iff.mpr fun hrange => ?_
    cases hspace : isSpace c with
    | true =>
        rw [scan, if_pos hspace] at hscan
        cases hscan
        cases hl
    | false =>
        rw [scan, if_neg (by rw [hspace]; decide), if_pos hrange] at hscan
        cases hscan
        cases hl
  · intro harrow
    obtain ⟨rfl, -⟩ := (take_three_eq_arrow c cs).mp harrow
    have hrange : startsRange ('-' :: cs) = false := by
      rw [startsRange_cons]
      rfl
    rw [scan, if_neg (by decide), hrange, if_neg Bool.false_ne_true, if_pos harrow] at hscan
    cases hscan
    cases hl
  · have hreads := scan_reads c cs
    generalize scan c cs = scanned at hscan hreads
    cases hreads with
    | ident hident => exact hident
    | openFunction hident => exact hident
    | _ =>
        cases hscan
        try cases hl

theorem openFunction_of_scan {c : Char} {cs name : List Char} {more : Nat}
    (h : scan c cs = ⟨[.openFunction name], more⟩) :
    startsIdent (c :: cs) = true ∧ (takeName (c :: cs)).1 = name ∧
      (c :: cs).drop (takeName (c :: cs)).2 = '(' :: cs.drop more := by
  have hreads := scan_reads c cs
  rw [h] at hreads
  generalize hscan : Scan.mk [.openFunction name] more = scanned at hreads
  cases hreads with
  | @openFunction rest hident hrest =>
      cases hscan
      refine ⟨hident, rfl, ?_⟩
      have hafter := congrArg (List.drop 1) hrest
      rw [List.drop_drop, List.drop_succ_cons] at hafter
      rw [hrest, hafter]
      rfl
  | _ => cases hscan

/-- A name that begins a text is scanned as one, unless it is that of a range or the text an
arrow. -/
theorem startsIdent_squeeze {c : Char} {cs : List Char}
    (hname : ∀ d ∈ (takeName (c :: cs)).1, isBlank d = false) (hc : isBlank c = false)
    (h : startsIdent (c :: cs) = true) : startsIdent (squeeze (c :: cs)) = true := by
  rw [Text.squeeze_cons hc]
  rw [startsIdent_cons] at h ⊢
  split at h
  · next hminus =>
      rw [if_pos hminus]
      rcases Bool.or_eq_true_iff.mp h with hstart | hescape
      · cases cs with
        | nil => cases hstart
        | cons d cs =>
            rw [List.head?_cons, Option.any_some] at hstart
            have hd : isNameChar d = true := by
              rcases Bool.or_eq_true_iff.mp hstart with hstart | hhyphen
              · exact isNameChar_of_isNameStart hstart
              · rw [beq_iff_eq.mp hhyphen]
                rfl
            rw [hminus, takeName_name (by decide), takeName_name hd] at hname
            have hblank := hname d (by simp)
            rw [Text.squeeze_cons hblank, List.head?_cons, Option.any_some, hstart]
            rfl
      · rw [startsEscape_squeeze hescape, Bool.or_true]
  · next hminus =>
      rw [if_neg hminus]
      rcases Bool.or_eq_true_iff.mp h with hstart | hescape
      · rw [hstart, Bool.true_or]
      · have hsqueezed := startsEscape_squeeze hescape
        rw [Text.squeeze_cons hc] at hsqueezed
        rw [hsqueezed, Bool.or_true]

/-- **A function whose name holds no blank is opened again.** -/
theorem openFunction_squeeze {c : Char} {cs name : List Char} {more : Nat}
    (hscan : scan c cs = ⟨[.openFunction name], more⟩) (hname : ∀ d ∈ name, isBlank d = false)
    (hurl : Text.asciiLower name ≠ "url".toList) :
    Steady (c :: cs) ∧ ∃ cs' more', squeeze (c :: cs) = c :: cs' ∧
      scan c cs' = ⟨[.openFunction name], more'⟩ ∧ cs'.drop more' = squeeze (cs.drop more) := by
  obtain ⟨hident, hsame, hrest⟩ := openFunction_of_scan hscan
  have hname' : ∀ d ∈ (takeName (c :: cs)).1, isBlank d = false := hsame ▸ hname
  have hbounds : Bounds ((c :: cs).drop (takeName (c :: cs)).2) := by
    rw [hrest]
    rintro d hd
    cases hd
    decide
  have hfirm := firm_of_takeName hname' hbounds
  have hc := Text.firm_cons.mp hfirm
  obtain ⟨hagain, hbehind⟩ := takeName_squeeze hname' hbounds
  have hident' := startsIdent_squeeze hname' hc hident
  refine ⟨⟨fun _ => hfirm, fun _ => hident⟩, ?_⟩
  have hsqueezed := Text.squeeze_cons hc cs
  rw [hrest, Text.squeeze_cons (c := '(') (by decide)] at hbehind
  rw [hsqueezed] at hagain hbehind hident'
  have hspace : isSpace c = false := not_isSpace hc
  -- what begins no range and no arrow begins none squeezed
  obtain ⟨hrange, harrow, -⟩ := scan_of_isWord (congrArg Scan.lexemes hscan) rfl
  rw [← startsRange_squeeze] at hrange
  rw [Ne, take_three_eq_arrow, ← isPrefix_squeeze (by decide), ← take_three_eq_arrow] at harrow
  refine ⟨squeeze cs, (takeName (c :: squeeze cs)).2, hsqueezed, ?_, ?_⟩
  · rw [scan_of_startsIdent hspace hrange harrow hident', scanIdent]
    dsimp only
    rw [hbehind, hagain, hsame]
    refine if_neg ?_
    rw [decide_eq_false hurl]
    exact Bool.false_ne_true
  · have hafter := congrArg (List.drop 1) hbehind
    rwa [List.drop_drop, List.drop_succ_cons] at hafter

/-! ## Whole rows -/

/-- What is opened in a sturdy row is a function. -/
theorem SturdyRow.of_node {opener : Opener} {p : Position} {content nodes : List Node}
    (h : SturdyRow (opener.node p content :: nodes)) :
    ∃ name, opener = .function name ∧ (∀ c ∈ name, isBlank c = false) ∧
      Text.asciiLower name ≠ "url".toList ∧ SturdyRow content ∧ SturdyRow nodes := by
  cases opener with
  | block bracket => cases h
  | function name =>
      cases h with
      | function _ hname hurl hin h => exact ⟨name, rfl, hname, hurl, hin, h⟩

/-- A text that begins a sturdy row begins alike when it is squeezed, if what stands behind the row
does. -/
theorem Spans.steady {x y : Point} {nodes : List Node} (h : Spans x nodes y)
    (hrow : SturdyRow nodes) (hy : Steady y.text) : Steady x.text := by
  cases h with
  | nil => exact hy
  | leaf hscan h =>
      cases hrow with
      | leaf p hleaf hrow => exact steady_of_scan hscan hleaf
  | closed hscan =>
      obtain ⟨name, rfl, hname, hurl, -⟩ := hrow.of_node
      exact (openFunction_squeeze hscan hname hurl).1
  | ended hscan =>
      obtain ⟨name, rfl, hname, hurl, -⟩ := hrow.of_node
      exact (openFunction_squeeze hscan hname hurl).1

/-- **What spans a text spans the squeezed text**, up to blanks and comments. -/
theorem Spans.squeeze {x y : Point} {nodes : List Node} (h : Spans x nodes y)
    (hrow : SturdyRow nodes) (hy : Steady y.text) (p : Position) :
    ∃ nodes' q, Spans ⟨p, Text.squeeze x.text⟩ nodes' ⟨q, Text.squeeze y.text⟩ ∧
      Respaced nodes nodes' := by
  -- a sturdy row opens functions only, and what is in one ends at its parenthesis
  have hclosing : ∀ rest, Steady (')' :: rest) := steady_of_isMark (by decide) (by decide)
  have hbracket : ∀ rest, Text.squeeze (')' :: rest) = ')' :: Text.squeeze rest :=
    Text.squeeze_cons (by decide)
  induction h generalizing p with
  | nil x => exact ⟨[], p, .nil _, .nil⟩
  | @leaf p' c cs leaf more nodes y hscan h ih =>
      cases hrow with
      | leaf _ hleaf hrow =>
          have hnext : Steady (cs.drop more) := h.steady hrow hy
          obtain ⟨c', cs', leaf', more', hsqueezed, hagain, hdrop, hsame⟩ :=
            reread_of_scan hscan hleaf hnext
          obtain ⟨nodes', q, hspans, hrespaced⟩ :=
            ih hrow hy (p.after ((c' :: cs').take (more' + 1)))
          refine ⟨.leaf p leaf' :: nodes', q, ?_, hsame _ _ _ _ hrespaced⟩
          show Spans ⟨p, Text.squeeze (c :: cs)⟩ _ _
          rw [hsqueezed]
          refine .leaf hagain ?_
          rw [Point.skip, List.drop_succ_cons, hdrop]
          exact hspans
  | @closed p' q' c cs rest opener more content nodes y hscan hin h ihin ih =>
      obtain ⟨name, rfl, hname, hurl, hrowin, hrow⟩ := hrow.of_node
      obtain ⟨-, cs', more', hsqueezed, hagain, hdrop⟩ := openFunction_squeeze hscan hname hurl
      obtain ⟨content', q, hspansin, hrespacedin⟩ :=
        ihin hrowin (hclosing rest) (p.after ((c :: cs').take (more' + 1)))
      obtain ⟨nodes', q'', hspans, hrespaced⟩ := ih hrow hy (q.after [')'])
      refine ⟨.function p name content' :: nodes', q'', ?_,
        .nested _ _ (.function name) hrespacedin hrespaced⟩
      show Spans ⟨p, Text.squeeze (c :: cs)⟩ _ _
      rw [hsqueezed]
      have hspansin : Spans (Point.skip (more' + 1) ⟨p, c :: cs'⟩) content'
          ⟨q, ')' :: Text.squeeze rest⟩ := by
        rw [Point.skip, List.drop_succ_cons, hdrop, ← hbracket]
        exact hspansin
      have hclosed : Spans ⟨p, c :: cs'⟩ ((Opener.function name).node p content' :: nodes')
          ⟨q'', Text.squeeze y.text⟩ :=
        .closed hagain hspansin hspans
      exact hclosed
  | @ended p' q' c cs opener more content hscan hin ihin =>
      obtain ⟨name, rfl, hname, hurl, hrowin, -⟩ := hrow.of_node
      obtain ⟨-, cs', more', hsqueezed, hagain, hdrop⟩ := openFunction_squeeze hscan hname hurl
      obtain ⟨content', q, hspansin, hrespacedin⟩ :=
        ihin hrowin hy (p.after ((c :: cs').take (more' + 1)))
      refine ⟨[.function p name content'], q, ?_, .nested _ _ (.function name) hrespacedin .nil⟩
      show Spans ⟨p, Text.squeeze (c :: cs)⟩ _ _
      rw [hsqueezed]
      have hspansin : Spans (Point.skip (more' + 1) ⟨p, c :: cs'⟩) content' ⟨q, []⟩ := by
        rw [Point.skip, List.drop_succ_cons, hdrop]
        exact hspansin
      have hended : Spans ⟨p, c :: cs'⟩ [(Opener.function name).node p content'] ⟨q, []⟩ :=
        .ended hagain hspansin
      exact hended

/-- A sturdy row holds no fault. -/
theorem SturdyRow.firstFault? {nodes : List Node} (h : SturdyRow nodes) :
    Css.firstFault? nodes = none := by
  induction h with
  | nil => rfl
  | @leaf p leaf nodes hleaf h ih =>
      have hnone : (Node.leaf p leaf).firstFault? = none := by
        cases leaf <;> first | rfl | cases hleaf
      rw [Css.firstFault?, hnone]
      exact ih
  | function p hname hurl hin h ihin ih =>
      rw [Css.firstFault?, Node.firstFault?, ihin]
      exact ih

/-- **The tree of a collapsed text is the tree of the text**, up to blanks and comments. -/
theorem parse_collapse {cs : List Char} (htrimmed : Text.strip cs = cs)
    (hrow : SturdyRow (parse cs)) : Respaced (parse cs) (parse (Text.collapse cs)) := by
  obtain ⟨q, hspans⟩ := parse_spans hrow.firstFault?
  obtain ⟨nodes', q', hsqueezed, hrespaced⟩ := hspans.squeeze hrow steady_nil .start
  have hparse : parse (Text.collapse cs) = nodes' := by
    rw [parse, lexemes, Text.collapse_eq_squeeze htrimmed, uniform_squeeze]
    exact nest_of_spans hsqueezed rfl
  rwa [hparse]

end TokenCatalog.Css
