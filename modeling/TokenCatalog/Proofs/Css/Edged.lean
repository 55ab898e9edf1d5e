import TokenCatalog.Proofs.Css.CollapsedColor
import TokenCatalog.Proofs.Css.Padded

/-!
# Blanks around a value

The blanks around a value are no part of it: they are tokens of their own, or belong to a comment
that is never closed or to an escape. So they do not matter for a colour. Main statements:

* `Padded.scan_leaf`: texts that differ in the blanks at their ends begin with the same token;
* `FirmRow`: a row of tokens that blanks behind them do not change;
* `Spans.padded`: what spans a text spans the text with other blanks at its end;
* `color?_strip`: a text is the colour that it is without the blanks around it.
-/

namespace TokenCatalog.Css

/-! ## Tokens -/

/-- A leaf that blanks at the end of a text do not change, or a blank or comment itself. -/
def Leaf.IsFirm : Leaf → Prop
  | .ident name => ∀ c ∈ name, Css.IsFirm c
  | .hash name _ => ∀ c ∈ name, Css.IsFirm c
  | leaf => leaf.isSturdy = true

theorem settled_of_scan {c : Char} {cs : List Char} {leaf : Leaf} {more : Nat}
    (hscan : scan c cs = .one leaf more) (hleaf : leaf.IsFirm) : Settled (c :: cs) := by
  have hreads := scan_reads c cs
  rw [hscan] at hreads
  generalize hscanned : Scan.one leaf more = scanned at hreads
  cases hreads with
  | whitespace hc => exact settled_of_blank (by rintro d ⟨⟩; exact hc)
  | literal htext =>
      cases hscanned
      have hcomma := beq_iff_eq.mp hleaf
      rw [htext] at hcomma
      rw [(List.cons.inj hcomma).1]
      exact settled_of_isMark (by decide) cs
  | comment hc =>
      subst hc
      exact settled_of_isMark (by decide) cs
  | ident hident => exact settled_of_startsIdent hident
  | hash hc =>
      subst hc
      exact settled_of_isMark (by decide) cs
  | number =>
      cases hscanned
      exact settled_of_numeral (takeNumeral_of_scan hscan rfl)
  | percentage =>
      cases hscanned
      exact settled_of_numeral (takeNumeral_of_scan hscan rfl)
  | _ => cases hscanned <;> cases hleaf

theorem scanMark_hash (cs : List Char) :
    scanMark '#' cs =
      if cs.head?.any isNameChar || startsEscape cs then
        .one (.hash (takeName cs).1 (startsIdent cs)) (takeName cs).2
      else .one (.literal ['#']) 0 :=
  rfl

theorem Padded.scan_hash {name : List Char} {flag : Bool} {more : Nat} {u v : List Char} {c : Char}
    (h : Padded u v) (hscan : scan c u = .one (.hash name flag) more)
    (hfirm : ∀ d ∈ name, Css.IsFirm d) (hnext : Settled (u.drop more)) :
    ∃ more', scan c v = .one (.hash name flag) more' ∧ Padded (u.drop more) (v.drop more') := by
  have hreads := scan_reads c u
  rw [hscan] at hreads
  generalize hscanned : Scan.one (.hash name flag) more = scanned at hreads
  cases hreads with
  | hash hc =>
      cases hscanned
      subst hc
      obtain ⟨hname, hrest⟩ := h.takeName hfirm hnext
      refine ⟨(Css.takeName v).2, ?_, hrest⟩
      rw [scan_of_isMark (by decide), scanMark_hash] at hscan ⊢
      split at hscan
      · next hstarts =>
          have hstarts' : (v.head?.any isNameChar || Css.startsEscape v) = true := by
            rw [← h.any_head? solid_isNameChar]
            rcases Bool.or_eq_true_iff.mp hstarts with hname | hescape
            · rw [hname, Bool.true_or]
            · rw [h.startsEscape hescape hfirm, Bool.or_true]
          have hflag : Css.startsIdent v = Css.startsIdent u :=
            Bool.eq_iff_iff.mpr ⟨fun hv => h.symm.startsIdent hv (hname ▸ hfirm),
              fun hu => h.startsIdent hu hfirm⟩
          rw [if_pos hstarts', hname, hflag]
      · cases hscan
  | _ => cases hscanned

theorem Padded.scan_quantity {leaf : Leaf} {more : Nat} {u v : List Char} {c : Char}
    (h : Padded u v) (hscan : scan c u = .one leaf more) (hleaf : leaf.isQuantity = true)
    (hnext : Settled (u.drop more)) :
    ∃ more', scan c v = .one leaf more' ∧ Padded (u.drop more) (v.drop more') := by
  obtain ⟨_, hheld⟩ := Leaf.exists_numeral hleaf
  have hnumeral := takeNumeral_of_scan hscan hheld
  have hcons : Padded (c :: u) (c :: v) := .cons c h
  have hsame := hcons.takeNumeral
  have hrest := (hcons.cut (fun d hd => not_isSpace (isBlank_of_mem_takeNumeral hd))
    (takeNumeral_isPrefix (c :: u))).2
  have hplain := (scan_of_numeral hnumeral).2
  have hagain := (scan_of_numeral (hsame ▸ hnumeral)).2
  rw [← hsame] at hagain
  rw [hplain] at hscan
  clear hplain hsame
  -- what stands behind the numeral decides between a number, a percentage and a dimension
  generalize Css.takeNumeral (c :: u) = text at hnumeral hagain hrest hscan
  obtain ⟨n, hn⟩ : ∃ n, text.length = n + 1 :=
    Nat.exists_eq_succ_of_ne_zero (by simpa using hnumeral)
  rw [hn, List.drop_succ_cons] at hrest hscan hagain
  rw [List.drop_succ_cons] at hrest
  unfold scanNumeric at hscan
  split at hscan
  · cases hscan
    cases hleaf
  · next hident =>
      split at hscan
      · next hpercent =>
          cases hscan
          obtain ⟨rest, hpercent⟩ := List.head?_eq_some_iff.mp hpercent
          rw [hpercent] at hrest
          obtain ⟨rest', hpercent', hrest⟩ := hrest.exists_of_cons (by decide)
          refine ⟨n + 1, ?_, ?_⟩
          · rw [hagain, hpercent', scanNumeric, startsIdent_percent, hn]
            rfl
          · rw [hn, ← List.drop_drop, ← List.drop_drop, hpercent, hpercent']
            exact hrest
      · next hpercent =>
          cases hscan
          rw [hn, Nat.add_sub_cancel] at hnext ⊢
          refine ⟨n, ?_, hrest⟩
          have hident' : Css.startsIdent (v.drop n) = false :=
            Bool.eq_false_iff.mpr fun h => hident (hnext.ident _ hrest h)
          have hpercent' : (v.drop n).head? ≠ some '%' := by
            rwa [Ne, ← hrest.head?_eq (by decide)]
          rw [hagain, scanNumeric, hident', if_neg Bool.false_ne_true, if_neg hpercent', hn]
          rfl

/-! ## Rows -/

/-- Two rows are the same up to their blanks and comments and the positions of the others. -/
inductive Even : List Node → List Node → Prop
  | nil : Even [] []
  | left {x : Node} {xs ys : List Node} (hx : x.isFiller = true) (h : Even xs ys) :
      Even (x :: xs) ys
  | right {y : Node} {xs ys : List Node} (hy : y.isFiller = true) (h : Even xs ys) :
      Even xs (y :: ys)
  | leaf (p q : Position) (leaf : Leaf) {xs ys : List Node} (h : Even xs ys) :
      Even (.leaf p leaf :: xs) (.leaf q leaf :: ys)
  | nested (p q : Position) (opener : Opener) {content content' xs ys : List Node}
      (hin : Even content content') (h : Even xs ys) :
      Even (opener.node p content :: xs) (opener.node q content' :: ys)

theorem even_fillers {fillers : List Node} (h : ∀ node ∈ fillers, node.isFiller = true) :
    Even [] fillers := by
  induction fillers with
  | nil => exact .nil
  | cons filler fillers ih =>
      rw [List.forall_mem_cons] at h
      exact .right h.1 (ih h.2)

theorem Even.append {xs xs' ys ys' : List Node} (h : Even xs ys) (h' : Even xs' ys') :
    Even (xs ++ xs') (ys ++ ys') := by
  induction h with
  | nil => exact h'
  | left hx _ ih => exact .left hx ih
  | right hy _ ih => exact .right hy ih
  | leaf p q leaf _ ih => exact .leaf p q leaf ih
  | nested p q opener hin _ _ ih => exact .nested p q opener hin ih

/-- **Texts that differ in the blanks at their ends begin with the same token**, or with a comment
each. -/
theorem Padded.scan_leaf {u v : List Char} {c : Char} {leaf : Leaf} {more : Nat} (h : Padded u v)
    (hscan : scan c u = .one leaf more) (hleaf : leaf.IsFirm) (hnext : Settled (u.drop more)) :
    ∃ leaf' more', scan c v = .one leaf' more' ∧ Padded (u.drop more) (v.drop more') ∧
      ∀ p q xs ys, Even xs ys → Even (.leaf p leaf :: xs) (.leaf q leaf' :: ys) := by
  have hkept : (∃ more', scan c v = .one leaf more' ∧ Padded (u.drop more) (v.drop more')) →
      ∃ leaf' more', scan c v = .one leaf' more' ∧ Padded (u.drop more) (v.drop more') ∧
        ∀ p q xs ys, Even xs ys → Even (.leaf p leaf :: xs) (.leaf q leaf' :: ys) := by
    rintro ⟨more', hagain, hrest⟩
    exact ⟨leaf, more', hagain, hrest, fun p q _ _ => .leaf p q leaf⟩
  have hreads := scan_reads c u
  rw [hscan] at hreads
  generalize hscanned : Scan.one leaf more = scanned at hreads
  cases hreads with
  | whitespace hc =>
      cases hscanned
      refine ⟨.whitespace (c :: v.takeWhile isSpace), (v.takeWhile isSpace).length, ?_, ?_,
        fun p q _ _ h => .left rfl (.right rfl h)⟩
      · rw [scan, if_pos hc]
      · rw [drop_length_takeWhile, drop_length_takeWhile]
        exact h.dropSpaces
  | literal htext =>
      cases hscanned
      have hcomma := beq_iff_eq.mp hleaf
      rw [htext] at hcomma
      obtain ⟨rfl, hmore⟩ := List.cons.inj hcomma
      cases (scan_comma u).symm.trans hscan
      exact hkept ⟨0, scan_comma v, h⟩
  | comment hc hrest =>
      cases hscanned
      subst hc hrest
      obtain ⟨rest', rfl, hrest⟩ := h.exists_of_cons (by decide)
      refine ⟨_, _, scan_comment rest', ?_, fun p q _ _ h => .left rfl (.right rfl h)⟩
      rw [drop_comment, drop_comment]
      exact hrest.dropComment
  | ident hident => exact hkept (by cases hscanned; exact h.scan_ident hscan hleaf hnext)
  | hash hc => exact hkept (by cases hscanned; exact h.scan_hash hscan hleaf hnext)
  | number => exact hkept (by cases hscanned; exact h.scan_quantity hscan rfl hnext)
  | percentage => exact hkept (by cases hscanned; exact h.scan_quantity hscan rfl hnext)
  | _ => cases hscanned <;> cases hleaf

/-- A row of firm leaves, and of functions that hold such rows and have firm names. -/
inductive FirmRow : List Node → Prop
  | nil : FirmRow []
  | leaf (p : Position) {leaf : Leaf} {nodes : List Node} (hleaf : leaf.IsFirm)
      (h : FirmRow nodes) : FirmRow (.leaf p leaf :: nodes)
  | function (p : Position) {name : List Char} {arguments nodes : List Node}
      (hname : ∀ c ∈ name, IsFirm c) (hurl : Text.asciiLower name ≠ "url".toList)
      (hin : FirmRow arguments) (h : FirmRow nodes) : FirmRow (.function p name arguments :: nodes)

/-- What is opened in a firm row is a function. -/
theorem FirmRow.of_node {opener : Opener} {p : Position} {content nodes : List Node}
    (h : FirmRow (opener.node p content :: nodes)) :
    ∃ name, opener = .function name ∧ (∀ c ∈ name, IsFirm c) ∧
      Text.asciiLower name ≠ "url".toList ∧ FirmRow content ∧ FirmRow nodes := by
  cases opener with
  | block bracket => cases h
  | function name =>
      cases h with
      | function _ hname hurl hin h => exact ⟨name, rfl, hname, hurl, hin, h⟩

theorem settled_nil : Settled [] :=
  settled_of_blank (by rintro c ⟨⟩)

/-- A text that begins a firm row is settled, if what stands behind the row is. -/
theorem Spans.settled {x y : Point} {nodes : List Node} (h : Spans x nodes y) (hrow : FirmRow nodes)
    (hy : Settled y.text) : Settled x.text := by
  cases h with
  | nil => exact hy
  | leaf hscan h =>
      cases hrow with
      | leaf p hleaf hrow => exact settled_of_scan hscan hleaf
  | closed hscan =>
      obtain ⟨name, rfl, -⟩ := hrow.of_node
      exact settled_of_startsIdent (openFunction_of_scan hscan).1
  | ended hscan =>
      obtain ⟨name, rfl, -⟩ := hrow.of_node
      exact settled_of_startsIdent (openFunction_of_scan hscan).1

/-- Blanks alone are read as such. -/
theorem AreSpaces.spans {cs : List Char} (h : AreSpaces cs) (p : Position) :
    ∃ nodes q, Spans ⟨p, cs⟩ nodes ⟨q, []⟩ ∧ ∀ node ∈ nodes, node.isFiller = true := by
  cases cs with
  | nil => exact ⟨[], p, .nil _, by simp⟩
  | cons c cs =>
      rw [AreSpaces, List.forall_mem_cons] at h
      have hall : cs.takeWhile isSpace = cs := List.takeWhile_eq_self_iff.mpr h.2
      have hscan : scan c cs = .one (.whitespace (c :: cs)) cs.length := by
        rw [scan, if_pos h.1, hall]
      have hend : Point.skip (cs.length + 1) ⟨p, c :: cs⟩ = ⟨p.after (c :: cs), []⟩ := by
        simp [Point.skip]
      refine ⟨[.leaf p (.whitespace (c :: cs))], p.after (c :: cs), .leaf hscan ?_,
        by simp [Node.isFiller]⟩
      rw [hend]
      exact .nil _

/-- Of texts that begin with a token that is no blank, the other begins with the same character. -/
theorem Padded.cases_of_scan {c : Char} {cs v : List Char} (h : Padded (c :: cs) v) :
    (AreSpaces (c :: cs) ∧ AreSpaces v) ∨ ∃ v', v = c :: v' ∧ Padded cs v' := by
  cases h with
  | spaces hu hv => exact .inl ⟨hu, hv⟩
  | cons c h => exact .inr ⟨_, rfl, h⟩

/-- Of texts that differ in the blanks at their ends, the one opens a function that the other
does. -/
theorem Padded.exists_opening {c : Char} {cs v name : List Char} {more : Nat}
    (h : Padded (c :: cs) v) (hscan : scan c cs = ⟨[.openFunction name], more⟩)
    (hname : ∀ d ∈ name, IsFirm d) (hurl : Text.asciiLower name ≠ "url".toList) :
    ∃ v' more', v = c :: v' ∧ scan c v' = ⟨[.openFunction name], more'⟩ ∧
      Padded (cs.drop more) (v'.drop more') := by
  obtain ⟨v', rfl, hbehind⟩ :=
    h.exists_of_cons (isSpace_of_startsIdent (openFunction_of_scan hscan).1)
  obtain ⟨more', hagain, hinside⟩ := hbehind.scan_openFunction hscan hname hurl
  exact ⟨v', more', rfl, hagain, hinside⟩

/-- **What spans a text spans the text with other blanks at its end**, up to blanks and comments. -/
theorem Spans.padded {x y : Point} {nodes : List Node} (h : Spans x nodes y) (hrow : FirmRow nodes)
    (hy : Settled y.text) {v : List Char} (hv : Padded x.text v) (p : Position) :
    ∃ nodes' q w, Spans ⟨p, v⟩ nodes' ⟨q, w⟩ ∧ Padded y.text w ∧ Even nodes nodes' := by
  induction h generalizing v p with
  | nil x => exact ⟨[], p, v, .nil _, hv, .nil⟩
  | @leaf p' c cs leaf more nodes y hscan h ih =>
      cases hrow with
      | leaf _ hleaf hrow =>
          have hv : Padded (c :: cs) v := hv
          rcases hv.cases_of_scan with ⟨hu, hspaces⟩ | ⟨v, rfl, hbehind⟩
          · -- only blanks are left of either text
            have hrest : AreSpaces ((c :: cs).drop (more + 1)) := hu.drop _
            obtain ⟨nodes', q, w, hspans, hpadded, heven⟩ := ih hrow hy (.spaces hrest hspaces) p
            have hfiller : (Node.leaf p' leaf).isFiller = true := by
              rw [scan, if_pos (hu c List.mem_cons_self)] at hscan
              cases hscan
              rfl
            exact ⟨nodes', q, w, hspans, hpadded, .left hfiller heven⟩
          · have hnext : Settled (cs.drop more) := h.settled hrow hy
            obtain ⟨leaf', more', hagain, hrest, hsame⟩ := hbehind.scan_leaf hscan hleaf hnext
            obtain ⟨nodes', q, w, hspans, hpadded, heven⟩ :=
              ih hrow hy hrest (p.after ((c :: v).take (more' + 1)))
            exact ⟨.leaf p leaf' :: nodes', q, w, .leaf hagain hspans, hpadded, hsame _ _ _ _ heven⟩
  | @closed p' q' c cs rest opener more content nodes y hscan hin h ihin ih =>
      obtain ⟨name, rfl, hname, hurl, hrowin, hrow⟩ := hrow.of_node
      obtain ⟨v, more', rfl, hagain, hinside⟩ := hv.exists_opening hscan hname hurl
      have hsettled : Settled (')' :: rest) := settled_of_isMark (by decide) rest
      obtain ⟨content', q, w, hspansin, hclosing, hevenin⟩ :=
        ihin hrowin hsettled hinside (p.after ((c :: v).take (more' + 1)))
      have hclosing : Padded (')' :: rest) w := hclosing
      obtain ⟨rest', rfl, hrest⟩ := hclosing.exists_of_cons (by decide)
      obtain ⟨nodes', q'', w', hspans, hpadded, heven⟩ := ih hrow hy hrest (q.after [')'])
      have hclosed : Spans ⟨p, c :: v⟩ ((Opener.function name).node p content' :: nodes')
          ⟨q'', w'⟩ :=
        .closed hagain hspansin hspans
      exact ⟨_, q'', w', hclosed, hpadded, .nested _ _ (.function name) hevenin heven⟩
  | @ended p' q' c cs opener more content hscan hin ihin =>
      obtain ⟨name, rfl, hname, hurl, hrowin, -⟩ := hrow.of_node
      obtain ⟨v, more', rfl, hagain, hinside⟩ := hv.exists_opening hscan hname hurl
      obtain ⟨content', q, w, hspansin, hpadded, hevenin⟩ :=
        ihin hrowin hy hinside (p.after ((c :: v).take (more' + 1)))
      -- the blanks that are left stand inside the function, which the end of the text closes
      obtain ⟨fillers, q'', hfillers, hnone⟩ := hpadded.areSpaces.spans q
      have hended : Spans ⟨p, c :: v⟩
          [(Opener.function name).node p (content' ++ fillers)] ⟨q'', []⟩ :=
        .ended hagain (hspansin.append hfillers)
      have heven := hevenin.append (even_fillers hnone)
      rw [List.append_nil] at heven
      exact ⟨_, q'', [], hended, .spaces areSpaces_nil areSpaces_nil,
        .nested _ _ (.function name) heven .nil⟩

/-! ## Colours are firm -/

theorem isFirm_of_asciiLower {name : List Char} (h : ∀ c ∈ Text.asciiLower name, IsFirm c) :
    ∀ c ∈ name, IsFirm c := by
  intro c hc
  have hlower := h c.toLower (List.mem_map_of_mem hc)
  refine ⟨?_, ?_, ?_⟩
  · rintro rfl
    exact hlower.1 rfl
  · rintro rfl
    exact hlower.2.1 rfl
  · rintro rfl
    exact hlower.2.2 (by decide)

instance (c : Char) : Decidable (IsFirm c) :=
  inferInstanceAs (Decidable (_ ∧ _))

theorem isFirm_of_isLower {c : Char} (h : c.isLower = true) : IsFirm c := by
  refine ⟨?_, ?_, ?_⟩
  · rintro rfl
    cases h
  · rintro rfl
    cases h
  · rintro rfl
    revert h
    decide

theorem isFirm_of_keywordColor? {name : List Char} (h : keywordColor? name ≠ none) :
    ∀ c ∈ name, IsFirm c :=
  isFirm_of_asciiLower fun c hc =>
    isFirm_of_isLower (List.all_eq_true.mp (letters_of_keywordColor? h).1 c hc)

theorem isFirm_of_hashColor? {name : List Char} (h : hashColor? name ≠ none) :
    ∀ c ∈ name, IsFirm c := by
  obtain ⟨color, hcolor⟩ := Option.ne_none_iff_exists'.mp h
  obtain ⟨digits, hdigits, -⟩ := Option.bind_eq_some_iff.mp hcolor
  have hother : ∀ {c : Char}, c ≠ '\n' → Text.wideHexValue? c = none → c ∉ name :=
    fun hline hnone hc =>
    not_mem_of_mapM hdigits hnone (mem_dropFinalNewline hline hc)
  refine fun c hc => ⟨?_, ?_, ?_⟩ <;> rintro rfl
  · exact hother (by decide) (by decide) hc
  · exact hother (by decide) (by decide) hc
  · exact hother (by decide) (by decide) hc

theorem firmRow_of_forall {nodes : List Node}
    (h : ∀ node ∈ nodes, node.isFiller = true ∨ node.isQuantity = true ∨
      node.isLiteral [','] = true) :
    FirmRow nodes := by
  induction nodes with
  | nil => exact .nil
  | cons node nodes ih =>
      rw [List.forall_mem_cons] at h
      cases node with
      | leaf p leaf =>
          refine .leaf p ?_ (ih h.2)
          rcases h.1 with hfiller | hquantity | hcomma
          · cases leaf <;> first | rfl | cases hfiller
          · cases leaf <;> first | rfl | cases hquantity
          · rw [Node.isLiteral, decide_eq_true_eq] at hcomma
            cases hcomma
            rfl
      | function p name arguments => rcases h.1 with h | h | h <;> cases h
      | block p bracket content => rcases h.1 with h | h | h <;> cases h

/-- **A colour is firm.** -/
theorem firmRow_of_color? {node : Node} (h : node.color? ≠ .ok none) : FirmRow [node] := by
  cases node with
  | leaf p leaf =>
      refine .leaf p ?_ .nil
      cases leaf with
      | ident name => exact isFirm_of_keywordColor? fun hnone => h (congrArg Except.ok hnone)
      | hash name flag => exact isFirm_of_hashColor? fun hnone => h (congrArg Except.ok hnone)
      | _ => exact absurd rfl h
  | function p name arguments =>
      have hnames : ∀ f ∈ colorFunctions,
          f.toList ≠ "url".toList ∧ f.toList.all (IsFirm ·) = true := by
        decide
      obtain ⟨f, hf, hname⟩ := name_of_functionColor? h
      refine .function p (isFirm_of_asciiLower ?_) ?_ (firmRow_of_forall fun node hnode => ?_) .nil
      · rw [hname]
        exact List.all_iff_forall_prop.mp (hnames f hf).2
      · rw [hname]
        exact (hnames f hf).1
      · cases hfiller : node.isFiller with
        | true => exact .inl rfl
        | false =>
            exact .inr (arguments_of_functionColor? h node
              (List.mem_filter.mpr ⟨hnode, by rw [hfiller]; rfl⟩))
  | block p bracket content => exact absurd rfl h

/-- A row is firm if it is without its blanks and comments. -/
theorem firmRow_of_significant {nodes : List Node} (h : FirmRow (significant nodes)) :
    FirmRow nodes := by
  induction nodes with
  | nil => exact .nil
  | cons node nodes ih =>
      rw [significant] at h
      cases hnode : node.isFiller with
      | true =>
          rw [List.filter_cons_of_neg (by rw [hnode]; decide)] at h
          cases node with
          | leaf p leaf => exact .leaf p (by cases leaf <;> first | rfl | cases hnode) (ih h)
          | function p name arguments => cases hnode
          | block p bracket content => cases hnode
      | false =>
          rw [List.filter_cons_of_pos (by rw [hnode]; rfl)] at h
          cases h with
          | leaf p hleaf h => exact .leaf p hleaf (ih h)
          | function p hname hurl hin h => exact .function p hname hurl hin (ih h)

/-- A firm row holds no fault. -/
theorem FirmRow.firstFault? {nodes : List Node} (h : FirmRow nodes) :
    Css.firstFault? nodes = none := by
  induction h with
  | nil => rfl
  | @leaf p leaf nodes hleaf h ih =>
      have hnone : (Node.leaf p leaf).firstFault? = none := by
        cases leaf <;> first | rfl | cases hleaf
      rw [Css.firstFault?, hnone]
      exact ih
  | function p hname hurl hin h ihin ih =>
      rw [Css.firstFault?, Node.firstFault?, ihin]
      exact ih

/-! ## Colours in even rows -/

/-- Two nodes that are the same up to their positions and to blanks and comments inside. -/
inductive Twin : Node → Node → Prop
  | leaf (p q : Position) (leaf : Leaf) : Twin (.leaf p leaf) (.leaf q leaf)
  | nested (p q : Position) (opener : Opener) {content content' : List Node}
      (hin : Even content content') : Twin (opener.node p content) (opener.node q content')

theorem isFiller_leaf (p q : Position) (leaf : Leaf) :
    (Node.leaf p leaf).isFiller = (Node.leaf q leaf).isFiller := by
  cases leaf <;> rfl

theorem Even.twins {xs ys : List Node} (h : Even xs ys) :
    List.Forall₂ Twin (significant xs) (significant ys) := by
  induction h with
  | nil => exact .nil
  | left hx h ih =>
      rw [significant, List.filter_cons_of_neg (by rw [hx]; decide)]
      exact ih
  | right hy h ih =>
      rw [Css.significant, Css.significant, List.filter_cons_of_neg (by rw [hy]; decide)]
      exact ih
  | leaf p q leaf h ih =>
      rw [significant, significant, List.filter_cons, List.filter_cons, isFiller_leaf q p leaf]
      split
      · exact .cons (.leaf p q leaf) ih
      · exact ih
  | nested p q opener hin h ihin ih =>
      rw [significant, significant, List.filter_cons_of_pos (by rw [isFiller_node]; rfl),
        List.filter_cons_of_pos (by rw [isFiller_node]; rfl)]
      exact .cons (.nested p q opener hin) ih

theorem respaced_of_twins {xs ys : List Node} (h : List.Forall₂ Twin xs ys)
    (hleaves : ∀ x ∈ xs, x.isQuantity = true ∨ x.isLiteral [','] = true) : Respaced xs ys := by
  induction h with
  | nil => exact .nil
  | cons htwin h ih =>
      rw [List.forall_mem_cons] at hleaves
      cases htwin with
      | leaf p q leaf => exact .leaf p q leaf (ih hleaves.2)
      | nested p q opener hin => cases opener <;> rcases hleaves.1 with h | h <;> cases h

theorem significant_significant (nodes : List Node) :
    significant (significant nodes) = significant nodes :=
  List.filter_eq_self.mpr fun _ hnode => (List.mem_filter.mp hnode).2

theorem Twin.color? {x y : Node} (h : Twin x y) (hx : x.color? ≠ .ok none) :
    y.color? = x.color? := by
  cases h with
  | leaf p q leaf => cases leaf <;> rfl
  | @nested p q opener content content' hin =>
      cases opener with
      | block bracket => rfl
      | function name =>
          have hrespaced := respaced_of_twins hin.twins (arguments_of_functionColor? hx)
          have hsame := hrespaced.functionColor? name
          rw [functionColor?_eq, functionColor?_eq, significant_significant,
            significant_significant, ← functionColor?_eq, ← functionColor?_eq] at hsame
          exact hsame.symm

/-! ## Blanks around a text -/

/-- Blanks in front of a text are tokens of their own. -/
theorem spans_leading {lead x : List Char} (hlead : AreSpaces lead)
    (hx : x.head?.any isSpace = false) (p : Position) :
    ∃ fillers p', (∀ node ∈ fillers, node.isFiller = true) ∧
      (∀ nodes q, Spans ⟨p', x⟩ nodes ⟨q, []⟩ → Spans ⟨p, lead ++ x⟩ (fillers ++ nodes) ⟨q, []⟩) ∧
      ∀ nodes q, Spans ⟨p, lead ++ x⟩ nodes ⟨q, []⟩ →
        ∃ nodes', nodes = fillers ++ nodes' ∧ Spans ⟨p', x⟩ nodes' ⟨q, []⟩ := by
  cases lead with
  | nil => exact ⟨[], p, by simp, fun _ _ h => h, fun nodes q h => ⟨nodes, rfl, h⟩⟩
  | cons c lead =>
      rw [AreSpaces, List.forall_mem_cons] at hlead
      have hblanks : (lead ++ x).takeWhile isSpace = lead := by
        have hnone : x.takeWhile isSpace = [] := by
          cases x with
          | nil => rfl
          | cons d x =>
            exact List.takeWhile_cons_of_neg (by rw [← Bool.not_eq_true] at hx; exact hx)
        rw [List.takeWhile_append_of_pos hlead.2, hnone, List.append_nil]
      have hscan : scan c (lead ++ x) = .one (.whitespace (c :: lead)) lead.length := by
        rw [scan, if_pos hlead.1, hblanks]
      have hskip : Point.skip (lead.length + 1) ⟨p, c :: (lead ++ x)⟩ =
          ⟨p.after (c :: lead), x⟩ := by
        simp [Point.skip]
      refine ⟨[.leaf p (.whitespace (c :: lead))], p.after (c :: lead), by simp [Node.isFiller],
        fun nodes q h => .leaf hscan (hskip ▸ h), fun nodes q h => ?_⟩
      cases h with
      | leaf hscan' h =>
          cases hscan.symm.trans hscan'
          rw [← List.cons_append] at hskip
          exact ⟨_, rfl, hskip ▸ h⟩
      | @closed _ _ _ _ _ opener _ _ _ _ hscan' =>
          have hlexeme := congrArg Scan.lexemes (hscan.symm.trans hscan')
          cases opener <;> cases hlexeme
      | @ended _ _ _ _ opener _ _ hscan' =>
          have hlexeme := congrArg Scan.lexemes (hscan.symm.trans hscan')
          cases opener <;> cases hlexeme

theorem even_of_fillers {fillers fillers' xs ys : List Node} (h : Even xs ys)
    (hleft : ∀ node ∈ fillers, node.isFiller = true)
    (hright : ∀ node ∈ fillers', node.isFiller = true) : Even (fillers ++ xs) (fillers' ++ ys) := by
  induction fillers with
  | nil => exact (even_fillers hright).append h
  | cons filler fillers ih =>
      rw [List.forall_mem_cons] at hleft
      exact .left hleft.1 (ih hleft.2)

theorem FirmRow.of_append {xs ys : List Node} (h : FirmRow (xs ++ ys)) : FirmRow ys := by
  induction xs with
  | nil => exact h
  | cons x xs ih =>
      cases h with
      | leaf p hleaf h => exact ih h
      | function p hname hurl hin h => exact ih h

/-- Two texts that differ in the blanks around them. -/
structure Edged (cs cs' : List Char) : Prop where
  differ : ∃ lead lead' x y, uniform cs = lead ++ x ∧ uniform cs' = lead' ++ y ∧ AreSpaces lead ∧
    AreSpaces lead' ∧ x.head?.any isSpace = false ∧ y.head?.any isSpace = false ∧ Padded x y

theorem Edged.symm {cs cs' : List Char} (h : Edged cs cs') : Edged cs' cs := by
  obtain ⟨lead, lead', x, y, hu, hv, hlead, hlead', hx, hy, hpadded⟩ := h
  exact ⟨lead', lead, y, x, hv, hu, hlead', hlead, hy, hx, hpadded.symm⟩

/-- The tree of a text, if it is firm, is the tree of the text with other blanks around it. -/
theorem Edged.parse {cs cs' : List Char} (h : Edged cs cs') (hrow : FirmRow (parse cs)) :
    Even (Css.parse cs) (Css.parse cs') := by
  obtain ⟨lead, lead', x, y, hu, hv, hlead, hlead', hx, hy, hpadded⟩ := h
  obtain ⟨q, hspans⟩ := parse_spans hrow.firstFault?
  rw [hu] at hspans
  obtain ⟨fillers, p, hfillers, -, hleading⟩ := spans_leading hlead hx .start
  obtain ⟨fillers', p', hfillers', htrailing, -⟩ := spans_leading hlead' hy .start
  obtain ⟨nodes, hnodes, hspans⟩ := hleading _ _ hspans
  rw [hnodes] at hrow ⊢
  obtain ⟨nodes', q', w, hspans', hends, heven⟩ :=
    hspans.padded hrow.of_append settled_nil hpadded p'
  obtain ⟨last, q'', hlast, hblank⟩ := hends.areSpaces.spans q'
  have hparse : Css.parse cs' = fillers' ++ (nodes' ++ last) := by
    rw [Css.parse, lexemes, hv]
    exact nest_of_spans (htrailing _ _ (hspans'.append hlast)) rfl
  have hmore := heven.append (even_fillers hblank)
  rw [List.append_nil] at hmore
  rw [hparse]
  exact even_of_fillers hmore hfillers hfillers'

theorem Edged.color?_of_ne {cs cs' : List Char} (h : Edged cs cs') (hcolor : color? cs ≠ .ok none) :
    Css.color? cs' = Css.color? cs := by
  cases hone : parseOne? cs with
  | none =>
      rw [Css.color?, hone] at hcolor
      exact absurd rfl hcolor
  | some node =>
      have hnode : Css.color? cs = node.color? := by
        rw [Css.color?, hone]
      rw [hnode] at hcolor ⊢
      have hsignificant := significant_eq_of_parseOne? hone
      have hrow : FirmRow (Css.parse cs) :=
        firmRow_of_significant (hsignificant ▸ firmRow_of_color? hcolor)
      have htwins := (h.parse hrow).twins
      rw [hsignificant] at htwins
      obtain ⟨node', rest, htwin, hrest, hnodes⟩ := List.forall₂_cons_left_iff.mp htwins
      rw [List.forall₂_nil_left_iff.mp hrest] at hnodes
      rw [Css.color?, parseOne?, hnodes]
      exact htwin.color? hcolor

/-- **Blanks around a text do not matter for the colour that it is.** -/
theorem Edged.color? {cs cs' : List Char} (h : Edged cs cs') : color? cs' = color? cs := by
  by_cases hcolor : Css.color? cs = .ok none
  · by_cases hcolor' : Css.color? cs' = .ok none
    · rw [hcolor, hcolor']
    · exact (h.symm.color?_of_ne hcolor').symm
  · exact h.color?_of_ne hcolor

/-! ## Stripped texts -/

/-- The blanks around a text are ASCII blanks that a stylesheet has, not just any. -/
def PlainEdges (cs : List Char) : Prop :=
  ∃ lead trail, (∀ c ∈ lead ++ trail, c ∈ [' ', '\t', '\n', '\r', '\x0c']) ∧
    cs = lead ++ (Text.strip cs ++ trail)

theorem areSpaces_uniform {cs : List Char} (h : ∀ c ∈ cs, c ∈ [' ', '\t', '\n', '\r', '\x0c']) :
    AreSpaces (uniform cs) := by
  induction cs using uniform.induct with
  | case1 => exact areSpaces_nil
  | case2 cs ih =>
      rw [List.forall_mem_cons, List.forall_mem_cons] at h
      exact List.forall_mem_cons.mpr ⟨by decide, ih h.2.2⟩
  | case3 c cs hreturn ih =>
      rw [List.forall_mem_cons] at h
      rw [uniform.eq_3 c cs hreturn]
      refine List.forall_mem_cons.mpr ⟨?_, ih h.2⟩
      have hc := h.1
      simp only [List.mem_cons, List.not_mem_nil, or_false] at hc
      rcases hc with rfl | rfl | rfl | rfl | rfl <;> decide

/-- A trimmed text still begins with no blank when its line ends are made uniform. -/
theorem any_isSpace_uniform {cs : List Char} (h : cs.head?.any Text.isBlank = false) :
    (uniform cs).head?.any isSpace = false := by
  rw [← any_head?_uniform] at h
  cases huniform : uniform cs with
  | nil => rfl
  | cons c rest =>
      rw [huniform] at h
      exact not_isSpace h

theorem PlainEdges.edged {cs : List Char} (h : PlainEdges cs) : Edged cs (Text.strip cs) := by
  obtain ⟨lead, trail, hblanks, hcs⟩ := h
  rw [List.forall_mem_append] at hblanks
  obtain ⟨hlead, htrail⟩ := hblanks
  cases hcore : Text.strip cs with
  | nil =>
      rw [hcore, List.nil_append] at hcs
      have hall : AreSpaces (uniform cs) :=
        areSpaces_uniform (hcs ▸ List.forall_mem_append.mpr ⟨hlead, htrail⟩)
      exact ⟨uniform cs, [], [], [], (List.append_nil _).symm, rfl, hall, areSpaces_nil, rfl, rfl,
        .spaces areSpaces_nil areSpaces_nil⟩
  | cons c rest =>
      have hc : Text.isBlank c = false := Text.firm_strip cs c (by rw [hcore]; rfl)
      have hline : c ≠ '\n' := by
        rintro rfl
        cases hc
      have hfront : Apart lead (c :: rest ++ trail) := fun _ hhead => hline (Option.some.inj hhead)
      have hback : Apart (c :: rest) trail := by
        intro hlast
        rw [← hcore] at hlast
        cases Text.not_isBlank_of_getLast?_strip hlast
      rw [hcore] at hcs
      refine ⟨uniform lead, [], uniform (c :: rest ++ trail), uniform (c :: rest), ?_, rfl,
        areSpaces_uniform hlead, areSpaces_nil, any_isSpace_uniform hc, any_isSpace_uniform hc, ?_⟩
      · rw [hcs, uniform_append hfront]
      · have hends : Padded (uniform trail) [] := .spaces (areSpaces_uniform htrail) areSpaces_nil
        have hpadded := padded_append (uniform (c :: rest)) hends
        rwa [List.append_nil, ← uniform_append hback] at hpadded

/-- **A text is the colour that it is without the blanks around it.** -/
theorem color?_strip {cs : List Char} (h : PlainEdges cs) :
    color? (Text.strip cs) = color? cs :=
  h.edged.color?

end TokenCatalog.Css
