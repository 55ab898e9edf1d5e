import TokenCatalog.Proofs.Css.Edged
import TokenCatalog.Proofs.Value.HexColor
import TokenCatalog.Proofs.Value.Overflow

/-!
# What recognises a colour

Three functions say whether something is a colour: one for a declaration's value, one for a stop of
a gradient and a layer of a shadow, and one that gives the channels. Main statements:

* `color?_of_hashDigits?`: a hash colour that is recognised by its text is one by its tree;
* `rgba?_eq`: the channels of a text are those of the colour that its trimmed text is;
* `isColorNode_iff`: a component value counts as a colour in a gradient or a shadow if it is one,
  unless it is a hash with digits of another script;
* `recognizers_agree`: where the three agree on a text of one component value, and where they do
  not.
-/

namespace TokenCatalog.Value

open TokenCatalog.Css (Node Leaf Position Rgba Color ColorFault Spans PlainEdges)

/-! ## Digits -/

/-- Of ASCII characters, the digits of all scripts are those of ASCII. -/
theorem wideHexValue?_of_ascii {c : Char} (hc : c.toNat ≤ 0x7f) :
    Text.wideHexValue? c = Text.hexValue? c := by
  have hall : ∀ n ≤ 0x7f, Text.wideHexValue? (Char.ofNat n) = Text.hexValue? (Char.ofNat n) := by
    decide
  have hsame := hall c.toNat hc
  rwa [Char.ofNat_toNat] at hsame

theorem mapM_wideHexValue? {cs : List Char} (h : ∀ c ∈ cs, c.toNat ≤ 0x7f) :
    cs.mapM Text.wideHexValue? = cs.mapM Text.hexValue? := by
  induction cs with
  | nil => rfl
  | cons c cs ih =>
      rw [List.forall_mem_cons] at h
      rw [List.mapM_cons, List.mapM_cons, wideHexValue?_of_ascii h.1, ih h.2]

theorem ascii_of_mapM {cs : List Char} {digits : List Nat}
    (h : cs.mapM Text.hexValue? = some digits) :
    ∀ c ∈ cs, c.toNat ≤ 0x7f := by
  intro c hc
  cases hvalue : Text.hexValue? c with
  | none => exact absurd hc (Css.not_mem_of_mapM h hvalue)
  | some v =>
      have hcases := Text.hexValue?_cases hvalue
      omega

/-- Three, four, six or eight digits make a colour. -/
theorem digitsColor?_isSome (digits : List Nat) :
    (Css.digitsColor? digits).isSome = [3, 4, 6, 8].contains digits.length := by
  unfold Css.digitsColor?
  split
  · rfl
  · rfl
  · rfl
  · rfl
  · next h3 h4 h6 h8 =>
      refine (Bool.eq_false_iff.mpr fun hlength => ?_).symm
      match digits, hlength with
      | [r, g, b], _ => exact h3 r g b rfl
      | [r, g, b, a], _ => exact h4 r g b a rfl
      | [r, r', g, g', b, b'], _ => exact h6 r r' g g' b b' rfl
      | [r, r', g, g', b, b', a, a'], _ => exact h8 r r' g g' b b' a a' rfl
      | [], hlength | [_], hlength | [_, _], hlength | [_, _, _, _, _], hlength
      | [_, _, _, _, _, _, _], hlength => cases hlength
      | _ :: _ :: _ :: _ :: _ :: _ :: _ :: _ :: _ :: _, hlength => simp at hlength

/-- Digits that are read from a text have the right number to be a colour. -/
theorem exists_of_hexDigits? {cs : List Char} {digits : List Nat}
    (h : hexDigits? cs = some digits) :
    (Css.dropFinalNewline cs).mapM Text.hexValue? = some digits ∧
      ∃ c, Css.digitsColor? digits = some c := by
  unfold hexDigits? at h
  obtain ⟨found, hfound, hlength⟩ := Option.bind_eq_some_iff.mp h
  split at hlength
  · next hcount =>
      cases hlength
      exact ⟨hfound, Option.isSome_iff_exists.mp ((digitsColor?_isSome digits).trans hcount)⟩
  · cases hlength

theorem hashColor?_of_hexDigits? {cs : List Char} {digits : List Nat}
    (h : hexDigits? cs = some digits) :
    Css.hashColor? cs = (Css.digitsColor? digits).map Color.concrete := by
  have hdigits := (exists_of_hexDigits? h).1
  rw [Css.hashColor?, mapM_wideHexValue? (ascii_of_mapM hdigits), hdigits]
  rfl

/-- The digits of a hash colour are of ASCII exactly if its characters are. -/
theorem hexDigits?_isSome_iff {name : List Char} :
    (hexDigits? name).isSome ↔ (Css.hashColor? name).isSome ∧ ∀ c ∈ name, c.toNat ≤ 0x7f := by
  constructor
  · intro h
    obtain ⟨digits, hdigits⟩ := Option.isSome_iff_exists.mp h
    obtain ⟨hfound, c, hc⟩ := exists_of_hexDigits? hdigits
    refine ⟨by rw [hashColor?_of_hexDigits? hdigits, hc]; rfl, fun d hd => ?_⟩
    by_cases hline : d = '\n'
    · rw [hline]
      decide
    · exact ascii_of_mapM hfound d (Css.mem_dropFinalNewline hline hd)
  · rintro ⟨hcolor, hascii⟩
    obtain ⟨color, hcolor⟩ := Option.isSome_iff_exists.mp hcolor
    obtain ⟨digits, hdigits, hsome⟩ := Option.bind_eq_some_iff.mp hcolor
    obtain ⟨c, hc, -⟩ := Option.map_eq_some_iff.mp hsome
    rw [mapM_wideHexValue? fun d hd => hascii d (Css.dropFinalNewline_subset name hd)] at hdigits
    have hcount : [3, 4, 6, 8].contains digits.length = true := by
      rw [← digitsColor?_isSome, hc]
      rfl
    rw [hexDigits?, hdigits]
    show (if _ then some digits else none).isSome = true
    rw [if_pos hcount]
    rfl

/-! ## Hash colours -/

theorem isClean_of_isHex {c : Char} (h : Text.isHex c = true) : Css.IsClean c :=
  Text.forall_isHex (p := Css.IsClean) (by decide) h

theorem isNameChar_of_isHex {c : Char} (h : Text.isHex c = true) : Css.isNameChar c = true :=
  Text.forall_isHex (p := (Css.isNameChar · = true)) (by decide) h

/-- The tree of a hash colour. -/
theorem parse_hash {digits : List Char} (h : ∀ c ∈ digits, Text.isHex c = true)
    (hne : digits ≠ []) :
    Css.parse ('#' :: digits) = [.leaf .start (.hash digits (Css.startsIdent digits))] := by
  have hclean : ∀ c ∈ '#' :: digits, Css.IsClean c :=
    List.forall_mem_cons.mpr ⟨by decide, fun c hc => isClean_of_isHex (h c hc)⟩
  have hname : ∀ c ∈ digits, Css.isNameChar c = true := fun c hc => isNameChar_of_isHex (h c hc)
  have hstarts : (digits.head?.any Css.isNameChar || Css.startsEscape digits) = true := by
    obtain ⟨c, cs, rfl⟩ := List.exists_cons_of_ne_nil hne
    rw [List.head?_cons, Option.any_some, hname c List.mem_cons_self, Bool.true_or]
  have hscan : Css.scan '#' digits =
      .one (.hash digits (Css.startsIdent digits)) digits.length := by
    rw [Css.scan_of_isMark (by decide), Css.scanMark_hash, if_pos hstarts,
      Css.takeName_of_nameChars hname]
  have hspans : Spans ⟨.start, '#' :: digits⟩ [.leaf .start (.hash digits (Css.startsIdent digits))]
      ⟨Position.start.after ('#' :: digits), []⟩ := by
    refine .leaf hscan ?_
    simp only [Css.Point.skip, List.take_succ_cons, List.take_length, List.drop_succ_cons,
      List.drop_length]
    exact .nil _
  rw [Css.parse, Css.lexemes, Css.uniform_of_clean hclean]
  exact Css.nest_of_spans hspans rfl

/-- A hash colour that is recognised by its text, with or without a line feed at the end. -/
theorem exists_of_hashDigits? {cs : List Char} {digits : List Nat}
    (h : hashDigits? cs = some digits) :
    ∃ name, (∀ c ∈ name, Text.isHex c = true) ∧ name ≠ [] ∧ hexDigits? name = some digits ∧
      (cs = '#' :: name ∨ cs = '#' :: (name ++ ['\n'])) := by
  unfold hashDigits? at h
  split at h
  · next rest =>
      obtain ⟨hdigits, c, hc⟩ := exists_of_hexDigits? h
      have hhex : ∀ d ∈ Css.dropFinalNewline rest, Text.isHex d = true := by
        intro d hd
        cases hvalue : Text.hexValue? d with
        | none => exact absurd hd (Css.not_mem_of_mapM hdigits hvalue)
        | some v => rw [Text.isHex, hvalue]; rfl
      have hagain : Css.dropFinalNewline (Css.dropFinalNewline rest) =
          Css.dropFinalNewline rest := by
        refine if_neg fun hlast => ?_
        cases hhex _ (List.mem_of_getLast? hlast)
      refine ⟨Css.dropFinalNewline rest, hhex, ?_, ?_, ?_⟩
      · intro hnil
        rw [hnil] at hdigits
        cases hdigits
        cases hc
      · rw [hexDigits?, hagain, ← hexDigits?, h]
      · unfold Css.dropFinalNewline
        split
        · next hlast =>
            obtain ⟨front, rfl⟩ := List.getLast?_eq_some_iff.mp hlast
            rw [List.dropLast_concat]
            exact .inr rfl
        · exact .inl rfl
  · cases h

/-- **A hash colour that is recognised by its text is one by its tree.** -/
theorem color?_of_hashDigits? {cs : List Char} {digits : List Nat} {c : Rgba}
    (hdigits : hashDigits? cs = some digits) (hc : Css.digitsColor? digits = some c) :
    Css.color? cs = .ok (some (.concrete c)) := by
  obtain ⟨name, hhex, hne, hname, hcs⟩ := exists_of_hashDigits? hdigits
  have hcolor : Css.color? ('#' :: name) = .ok (some (.concrete c)) := by
    rw [Css.color?, Css.parseOne?, parse_hash hhex hne]
    show Except.ok (Css.hashColor? name) = _
    rw [hashColor?_of_hexDigits? hname, hc]
    rfl
  rcases hcs with rfl | rfl
  · exact hcolor
  · rw [← hcolor]
    have hclean : ∀ c ∈ '#' :: name, Css.IsClean c :=
      List.forall_mem_cons.mpr ⟨by decide, fun c hc => isClean_of_isHex (hhex c hc)⟩
    have hline : ∀ c ∈ '#' :: (name ++ ['\n']), Css.IsClean c := by
      rw [← List.cons_append, List.forall_mem_append]
      exact ⟨hclean, List.forall_mem_singleton.mpr (by decide)⟩
    have hpadded : Css.Padded ('#' :: name) ('#' :: (name ++ ['\n'])) := by
      have hend : Css.Padded [] ['\n'] :=
        .spaces Css.areSpaces_nil (by simp [Css.AreSpaces, Css.isSpace])
      have happend := Css.padded_append ('#' :: name) hend
      rwa [List.append_nil] at happend
    exact Css.Edged.color? ⟨[], [], _, _, Css.uniform_of_clean hclean, Css.uniform_of_clean hline,
      Css.areSpaces_nil, Css.areSpaces_nil, rfl, rfl, hpadded⟩

/-! ## Channels -/

/-- The channels of a concrete colour. -/
def concrete? : Option Color → Option Rgba
  | some (.concrete c) => some c
  | _ => none

/-- **The channels of a text are those of the colour that its trimmed text is.** -/
theorem rgba?_eq (cs : List Char) : rgba? cs = (Css.color? (Text.strip cs)).map concrete? := by
  unfold rgba?
  dsimp only
  split
  · next c hdigits =>
      obtain ⟨digits, hfound, hc⟩ := Option.bind_eq_some_iff.mp hdigits
      rw [color?_of_hashDigits? hfound hc]
      rfl
  · cases Css.color? (Text.strip cs) with
    | error fault => rfl
    | ok color? =>
        rcases color? with _ | _ | c <;> rfl

/-! ## Normal forms -/

/-- A colour that does not overflow has a normal form. -/
theorem formOf?_ok {node : Node} (h : ¬ Overflows node) {color? : Option Color}
    (hcolor : node.color? = .ok color?) (cs : List Char) :
    ∃ normal, formOf? cs color? = .ok normal ∧ (normal.isSome ↔ color?.isSome) := by
  rcases color? with _ | _ | c
  · exact ⟨none, rfl, Iff.rfl⟩
  · exact ⟨_, rfl, Iff.rfl⟩
  · show ∃ normal, (normalForm cs (.concrete c)).map some = .ok normal ∧ _
    cases hform : normalForm cs (.concrete c) with
    | ok text => exact ⟨some text, rfl, Iff.rfl⟩
    | error fault =>
        unfold normalForm at hform
        dsimp only at hform
        split at hform
        · next hopaque => exact absurd (.inr ⟨c, fault, hcolor, hopaque, hform⟩) h
        · split at hform <;> cases hform

section

variable {cs : List Char} {node : Node} (hone : Css.parseOne? cs = some node)

include hone

/-- Without a hint, a hash colour that is recognised by its text is the colour of its tree, and
anything else is read from the tree. -/
theorem normalColor?_of_parseOne? :
    (∃ c text, node.color? = .ok (some (.concrete c)) ∧ normalHash c = .ok text ∧
        normalColor? cs [] = .ok (some text)) ∨
      normalColor? cs [] = node.color? >>= formOf? cs := by
  have hnode : Css.color? cs = node.color? := by
    rw [Css.color?, hone]
  have hdigits : colorDigits? cs [] = hashDigits? cs := by
    rw [colorDigits?, if_neg (by decide)]
    cases hashDigits? cs <;> rfl
  rw [normalColor?_eq, hdigits, hnode]
  split
  · next c hhash =>
      obtain ⟨digits, hfound, hc⟩ := Option.bind_eq_some_iff.mp hhash
      obtain ⟨rest, -, hrest⟩ := exists_hexDigits?_of_colorDigits? (hdigits.trans hfound)
      obtain ⟨text, htext⟩ := normalHash_ok (lt_of_mem_hexDigits? hrest) hc
      rw [htext]
      exact .inl ⟨c, text, hnode ▸ color?_of_hashDigits? hfound hc, htext, rfl⟩
  · exact .inr rfl

/-- **Without a hint, a text that is one component value has a normal form as a colour exactly if
that value is one.** -/
theorem normalColor?_of_node (h : ¬ Overflows node) :
    ∃ color? normal, node.color? = .ok color? ∧ normalColor? cs [] = .ok normal ∧
      (normal.isSome ↔ color?.isSome) := by
  obtain ⟨color?, hcolor⟩ : ∃ color?, node.color? = .ok color? := by
    cases hcolor : node.color? with
    | ok color? => exact ⟨color?, rfl⟩
    | error fault => exact absurd (.inl ⟨fault, hcolor⟩) h
  refine ⟨color?, ?_⟩
  rcases normalColor?_of_parseOne? hone with ⟨c, text, hconcrete, -, hnormal⟩ | hnormal
  · cases hcolor.symm.trans hconcrete
    exact ⟨some text, hcolor, hnormal, Iff.rfl⟩
  · obtain ⟨normal, hform, hsome⟩ := formOf?_ok h hcolor cs
    rw [hcolor] at hnormal
    exact ⟨normal, hcolor, hnormal.trans hform, hsome⟩

/-- A colour that overflows has no normal form. -/
theorem normalColor?_of_overflows (h : Overflows node) :
    ∃ fault, normalColor? cs [] = .error fault := by
  rcases normalColor?_of_parseOne? hone with ⟨c, text, hconcrete, htext, -⟩ | hnormal
  · -- the channels of a hash colour are bytes
    obtain ⟨fault, hfault⟩ | ⟨c', fault, hcolor, -, hfault⟩ := h
    · cases hfault.symm.trans hconcrete
    · cases hcolor.symm.trans hconcrete
      rw [normalHash, hfault] at htext
      cases htext
  · obtain ⟨fault, hfault⟩ | ⟨c, fault, hcolor, hopaque, hfault⟩ := h
    · exact ⟨fault, by rw [hnormal, hfault]; rfl⟩
    · refine ⟨fault, hnormal.trans ?_⟩
      rw [hcolor]
      show (normalForm cs (.concrete c)).map some = .error fault
      rw [normalForm, if_pos hopaque, hfault]
      rfl

end

/-! ## Component values -/

/-- A hash with a character that is not of ASCII. -/
def WideHash : Node → Prop
  | .leaf _ (.hash name _) => ∃ c ∈ name, 0x7f < c.toNat
  | _ => False

/-- **A component value counts as a colour in a gradient or a shadow exactly if it is one, unless it
is a hash with digits of another script.** -/
theorem isColorNode_iff {node : Node} {color? : Option Color} (hcolor : node.color? = .ok color?) :
    ∃ accepted, isColorNode node = .ok accepted ∧
      (accepted = true ↔ color?.isSome ∧ ¬ WideHash node) := by
  have hsame : isColorNode node = (do .ok (← node.color?).isSome) → ¬ WideHash node →
      ∃ accepted, isColorNode node = .ok accepted ∧
        (accepted = true ↔ color?.isSome ∧ ¬ WideHash node) := by
    intro hnode hwide
    rw [hcolor] at hnode
    exact ⟨color?.isSome, hnode, (and_iff_left hwide).symm⟩
  cases node with
  | leaf p leaf =>
      cases leaf with
      | ident name => exact hsame rfl id
      | hash name flag =>
          cases hcolor
          refine ⟨(hexDigits? name).isSome, rfl,
            hexDigits?_isSome_iff.trans (and_congr_right fun _ => ?_)⟩
          simp [WideHash]
      | _ => exact hsame rfl id
  | function p name arguments => exact hsame rfl id
  | block p bracket content => exact hsame rfl id

/-! ## Agreement -/

theorem concrete?_eq_some_iff {color? : Option Color} {c : Rgba} :
    concrete? color? = some c ↔ color? = some (.concrete c) := by
  rcases color? with _ | _ | c' <;> simp [concrete?]

theorem concrete?_isSome_iff {color? : Option Color} :
    (concrete? color?).isSome ↔ color?.isSome ∧ color? ≠ some .current := by
  rcases color? with _ | _ | c <;> simp [concrete?]

/-- **The recognisers of colours agree.** For a text of one component value, whether it has a normal
form as a colour, whether the value counts as a colour in a gradient or a shadow, and whether the
text has channels is the same, except that a hash with digits of another script does not count, and
that the colour of the surrounding text has no channels. Blanks that a stylesheet does not have are
trimmed before channels are read, and a colour that overflows is refused instead of having a normal
form. -/
theorem recognizers_agree {cs : List Char} {node : Node} (hone : Css.parseOne? cs = some node) :
    (Overflows node → ∃ fault, normalColor? cs [] = .error fault) ∧
    (¬ Overflows node → ∃ normal accepted,
      normalColor? cs [] = .ok normal ∧ isColorNode node = .ok accepted ∧
      (accepted = true ↔ normal.isSome ∧ ¬ WideHash node) ∧
      (PlainEdges cs → ∃ rgba, rgba? cs = .ok rgba ∧
        (rgba.isSome ↔ normal.isSome ∧ node.color? ≠ .ok (some .current)) ∧
        ∀ c, rgba = some c ↔ node.color? = .ok (some (.concrete c)))) ∧
    rgba? cs = (Css.color? (Text.strip cs)).map concrete? := by
  refine ⟨normalColor?_of_overflows hone, fun h => ?_, rgba?_eq cs⟩
  obtain ⟨color?, normal, hcolor, hnormal, hsome⟩ := normalColor?_of_node hone h
  obtain ⟨accepted, haccepted, hiff⟩ := isColorNode_iff hcolor
  refine ⟨normal, accepted, hnormal, haccepted, ?_, fun hedges => ⟨concrete? color?, ?_, ?_, ?_⟩⟩
  · rw [hsome]
    exact hiff
  · have hnode : Css.color? cs = node.color? := by
      rw [Css.color?, hone]
    rw [rgba?_eq, Css.color?_strip hedges, hnode, hcolor]
    rfl
  · rw [concrete?_isSome_iff, hsome, hcolor, Ne, Ne, Except.ok.injEq]
  · intro c
    rw [concrete?_eq_some_iff, hcolor, Except.ok.injEq]

/-- A hash colour with an escape for its last digit, between blanks and before a comment. -/
def escapedHash : List Char := "\t#F0\\66 /* a */ ".toList

theorem recognizers_agree_escapedHash :
    ∃ node, Css.parseOne? escapedHash = some node ∧ ¬ Overflows node ∧ PlainEdges escapedHash ∧
      normalColor? escapedHash [] = .ok (some "#ff00ff".toList) ∧ isColorNode node = .ok true ∧
      ∃ rgba, rgba? escapedHash = .ok (some rgba) := by
  obtain ⟨node, hone⟩ : ∃ node, Css.parseOne? escapedHash = some node :=
    Option.isSome_iff_exists.mp (by decide +kernel)
  have hcolor : node.color? = .ok (some (.concrete (Css.opaqueColor 255 0 255))) := by
    have htext : Css.color? escapedHash = .ok (some (.concrete (Css.opaqueColor 255 0 255))) := by
      decide +kernel
    rwa [Css.color?, hone] at htext
  have hwritten : writeHash (Css.opaqueColor 255 0 255) = .ok "#ff00ff".toList := by decide +kernel
  have hfinite : ¬ Overflows node := by
    rintro (⟨fault, hfault⟩ | ⟨c, fault, hsome, -, hfault⟩)
    · cases hcolor.symm.trans hfault
    · cases hcolor.symm.trans hsome
      cases hwritten.symm.trans hfault
  have hwide : ¬ WideHash node := by
    have hascii : (Css.parseOne? escapedHash).map (fun node => isColorNode node) =
        some (.ok true) := by
      decide +kernel
    rw [hone] at hascii
    obtain ⟨accepted, haccepted, hiff⟩ := isColorNode_iff hcolor
    cases haccepted.symm.trans (Option.some.inj hascii)
    exact (hiff.mp rfl).2
  have hedges : PlainEdges escapedHash := ⟨['\t'], [' '], by simp, by decide +kernel⟩
  have hnormal : normalColor? escapedHash [] = .ok (some "#ff00ff".toList) := by decide +kernel
  obtain ⟨normal, accepted, hnormal', haccepted, hiff, hchannels⟩ :=
    (recognizers_agree hone).2.1 hfinite
  cases hnormal.symm.trans hnormal'
  obtain ⟨rgba, hrgba, -, hvalue⟩ := hchannels hedges
  rw [(hvalue _).mpr hcolor] at hrgba
  rw [hiff.mpr ⟨rfl, hwide⟩] at haccepted
  exact ⟨node, hone, hfinite, hedges, hnormal, haccepted, _, hrgba⟩

end TokenCatalog.Value
