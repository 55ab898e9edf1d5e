import TokenCatalog.Proofs.Css.Word
import TokenCatalog.Proofs.Value.HexColor
import TokenCatalog.Stylesheet.Scope

/-!
# Names as hints

A name is asked whether it holds a colour, a font family or a font size, and what it says comes
after what the value says by itself. Main statements:

* `HintAlike`: two names that answer the three questions alike; the sigil of a variable makes no
  difference (`hintAlike_stripSigil`);
* `recognize_of_bare`: digits without a hash are a length or nothing, as long as no name makes a
  colour of them;
* `Hinted`: the three changes that a name can make;
* `recognize_hinted`: it makes no others.
-/

namespace TokenCatalog.Value

open TokenCatalog.Css (Node Leaf ColorFault splitCommas significant)
open TokenCatalog.Stylesheet (Declaration Dialect Place Scope dialects stripSigil tokenOf literalOf)

/-! ## What is asked of a name -/

/-- Two names, in lower case, say the same about what they hold. -/
structure HintAlike (a b : List Char) : Prop where
  color : isColorName a = isColorName b
  family : isFamilyName a = isFamilyName b
  size : isSizeName a = isSizeName b

/-- **Only the three questions are asked of a name.** -/
theorem HintAlike.recognize_eq {a b : List Char} (h : HintAlike a b) (candidate : List Char) :
    recognize candidate a = recognize candidate b := by
  have hcolor : normalColor? candidate a = normalColor? candidate b := by
    rw [normalColor?, normalColor?, h.color]
  have hnodes : ∀ nodes, recognizeNodes candidate a nodes = recognizeNodes candidate b nodes := by
    intro nodes
    have hfamilies : families? nodes a = families? nodes b := by rw [families?, families?, h.family]
    have hlengths : lengths? nodes a = lengths? nodes b := by rw [lengths?, lengths?, h.size]
    rw [recognizeNodes, recognizeNodes, hfamilies, hlengths]
  rw [recognize, recognize, hcolor]
  simp only [hnodes]

/-- No character of a sigil begins a word that a name is searched for. -/
def IsSigil (sigil : List Char) : Prop :=
  ∀ c ∈ sigil, c.toLower ∉ ['c', 'f', 't', 's']

theorem occursIn_append {w : Char} {word front : List Char} (h : w ∉ front) (cs : List Char) :
    Text.occursIn (w :: word) (front ++ cs) = Text.occursIn (w :: word) cs := by
  induction front with
  | nil => rfl
  | cons c front ih =>
      rw [List.mem_cons, not_or] at h
      rw [List.cons_append, Text.occursIn, ih h.2, List.isPrefixOf, beq_false_of_ne h.1]
      rfl

theorem IsSigil.hintAlike {sigil : List Char} (h : IsSigil sigil) (name : List Char) :
    HintAlike (Text.asciiLower name) (Text.asciiLower (sigil ++ name)) := by
  have hskip : ∀ w ∈ ['c', 'f', 't', 's'], ∀ word,
      Text.occursIn (w :: word) (Text.asciiLower (sigil ++ name)) =
        Text.occursIn (w :: word) (Text.asciiLower name) := by
    intro w hw word
    rw [Text.asciiLower, List.map_append]
    refine occursIn_append (fun hmem => ?_) _
    obtain ⟨c, hc, rfl⟩ := List.mem_map.mp hmem
    exact h c hc hw
  have hc := hskip 'c' (by decide)
  have hf := hskip 'f' (by decide)
  have ht := hskip 't' (by decide)
  have hs := hskip 's' (by decide)
  constructor
  · exact congrArg₂ or (hc _).symm (hc _).symm
  · exact congrArg₂ or (hf _).symm (ht _).symm
  · exact congrArg₂ or (hs _).symm (hf _).symm

/-- **A variable's sigil says nothing about what the variable holds.** -/
theorem hintAlike_stripSigil {dialect : Dialect} (h : dialect ∈ dialects) (name : List Char) :
    HintAlike (Text.asciiLower (stripSigil dialect name)) (Text.asciiLower name) := by
  have hsigils : ∀ dialect ∈ dialects, ∀ sigil ∈ dialect.sigils,
      sigil.toList.length = sigil.length ∧
        sigil.toList.any (['c', 'f', 't', 's'].contains ·.toLower) = false := by
    decide
  unfold stripSigil
  cases hfound : dialect.sigils.findSome? fun sigil =>
      if sigil.toList.isPrefixOf name then some (name.drop sigil.length) else none with
  | none => exact ⟨rfl, rfl, rfl⟩
  | some rest =>
      obtain ⟨sigil, hsigil, hrest⟩ := List.exists_of_findSome?_eq_some hfound
      obtain ⟨hlength, hletters⟩ := hsigils dialect h sigil hsigil
      split at hrest
      · next hprefix =>
          cases hrest
          obtain ⟨tail, rfl⟩ := List.isPrefixOf_iff_prefix.mp hprefix
          rw [Option.getD_some, ← hlength, List.drop_left]
          refine IsSigil.hintAlike (fun c hc hmem => ?_) tail
          exact List.any_eq_false.mp hletters c hc (List.contains_iff_mem.mpr hmem)
      · cases hrest

theorem classify_stripSigil {dialect : Dialect} (h : dialect ∈ dialects) (raw name : List Char) :
    classify raw (some (stripSigil dialect name)) = classify raw (some name) := by
  rw [classify_eq, classify_eq]
  exact congrArg _ ((hintAlike_stripSigil h name).recognize_eq _)

/-! ## Digits without a hash -/

theorem isWordChar_of_isHex {c : Char} (h : Text.isHex c = true) : Css.isWordChar c = true :=
  Text.forall_isHex (p := fun c => Css.isWordChar c = true) (by decide) h

theorem isHex_toLower {c : Char} (h : Text.isHex c = true) : Text.isHex c.toLower = true :=
  Text.forall_isHex (p := fun c => Text.isHex c.toLower = true) (by decide) h

/-- A word with a letter that is no digit is not made of digits, in any letter case. -/
theorem asciiLower_ne_of_isHex {cs word : List Char} (h : ∀ c ∈ cs, Text.isHex c = true)
    (hword : word.any (!Text.isHex ·) = true) : Text.asciiLower cs ≠ word := by
  rintro rfl
  obtain ⟨d, hd, hnot⟩ := List.any_eq_true.mp hword
  obtain ⟨c, hc, rfl⟩ := List.mem_map.mp hd
  rw [isHex_toLower (h c hc)] at hnot
  cases hnot

theorem keywordColor?_eq_none {cs : List Char} (h : ∀ c ∈ cs, Text.isHex c = true) :
    Css.keywordColor? cs = none := by
  by_contra hcolor
  exact asciiLower_ne_of_isHex h (Css.letters_of_keywordColor? hcolor).2 rfl

/-- A leaf of digits is neither a colour nor a generic family. -/
structure IsDull (leaf : Leaf) : Prop where
  color : (Node.leaf .start leaf).color? = .ok none
  colorNode : isColorNode (.leaf .start leaf) = .ok false
  comma : (Node.leaf .start leaf).isLiteral [','] = false
  filler : (Node.leaf .start leaf).isFiller = false
  generic : isGeneric [.leaf .start leaf] = false

theorem isDull_of_isHex {cs : List Char} (h : ∀ c ∈ cs, Text.isHex c = true) {leaf : Leaf}
    (hleaf : Css.IsWordLeaf cs leaf) : IsDull leaf := by
  have hgenerics : ∀ word ∈ genericFamilies, word.toList.any (!Text.isHex ·) = true := by decide
  cases hleaf with
  | ident =>
      have hcolor : (Node.leaf .start (.ident cs)).color? = .ok none :=
        congrArg Except.ok (keywordColor?_eq_none h)
      refine ⟨hcolor, ?_, rfl, rfl, ?_⟩
      · rw [isColorNode, hcolor]
        rfl
      · refine List.any_eq_false.mpr fun word hword heq => ?_
        exact asciiLower_ne_of_isHex h (hgenerics word hword) (of_decide_eq_true heq)
  | number n => exact ⟨rfl, rfl, rfl, rfl, rfl⟩
  | dimension n unit => exact ⟨rfl, rfl, rfl, rfl, rfl⟩

namespace IsDull

variable {leaf : Leaf} (h : IsDull leaf)

include h

theorem splitCommas_eq : splitCommas [.leaf .start leaf] = [[.leaf .start leaf]] := by
  rw [splitCommas, h.comma]
  rfl

theorem significant_eq : significant [.leaf .start leaf] = [.leaf .start leaf] := by
  rw [significant, List.filter_cons_of_pos (by rw [h.filler]; rfl)]
  rfl

theorem isShadow_eq : isShadow [.leaf .start leaf] = .ok false := by
  have hlayer : isShadowLayer [.leaf .start leaf] = .ok false := by
    rw [isShadowLayer, h.significant_eq]
    cases hinset : isInset (.leaf .start leaf) with
    | true =>
        rw [List.filter_cons_of_neg (by rw [hinset]; decide)]
        rfl
    | false =>
        rw [List.filter_cons_of_pos (by rw [hinset]; decide)]
        simp only [List.filter_nil, List.getLast_singleton, h.colorNode]
        rfl
  rw [isShadow, h.splitCommas_eq, areShadowLayers, hlayer]
  rfl

/-- Without a name, such a leaf is a length or nothing. -/
theorem recognizeNodes_eq (candidate : List Char) :
    recognizeNodes candidate [] [.leaf .start leaf] = .ok (lengths? [.leaf .start leaf] []) := by
  have hgradient : isGradient [.leaf .start leaf] = .ok false := rfl
  have hfamilies : families? [.leaf .start leaf] [] = none := by
    rw [families?, h.splitCommas_eq]
    cases List.mapM family? [[Node.leaf .start leaf]] with
    | none => rfl
    | some families =>
        show (if (_ || Option.any isGeneric (some [Node.leaf .start leaf])) = true then
          some families else none) = none
        rw [Option.any_some, h.generic]
        rfl
  rw [recognizeNodes, hgradient, h.isShadow_eq, hfamilies]
  rfl

end IsDull

theorem kind_of_lengths?_nil {nodes : List Node} {c : Classified} (h : lengths? nodes [] = some c) :
    c.kind = .spacing := by
  unfold lengths? at h
  dsimp only at h
  split at h
  · cases h
    exact if_neg (by simp [isSizeName, Text.occursIn])
  · cases h

/-- **Without a name, digits without a hash are a length or nothing.** -/
theorem recognize_of_bare (h : HexText) :
    ∃ found, recognize h.digits [] = .ok found ∧ ∀ c ∈ found, c.kind = .spacing := by
  have hhex : ∀ d ∈ h.digits, Text.isHex d = true := fun d hd => HexText.isHex_of_mem hd
  have hne : h.digits ≠ [] := by cases h <;> exact List.cons_ne_nil _ _
  obtain ⟨leaf, hparse, hleaf⟩ := Css.parse_word hne fun d hd => isWordChar_of_isHex (hhex d hd)
  have hdull := isDull_of_isHex hhex hleaf
  have hdigits : colorDigits? h.digits [] = none := by
    rw [colorDigits?, h.hashDigits?_digits]
    rfl
  have hone : Css.parseOne? h.digits = some (.leaf .start leaf) := by
    rw [Css.parseOne?, hparse, hdull.significant_eq]
  have hcolor : normalColor? h.digits [] = .ok none := by
    rw [normalColor?_eq, hdigits, Css.color?, hone]
    show Css.Node.color? _ >>= formOf? h.digits = .ok none
    rw [hdull.color]
    rfl
  refine ⟨lengths? [.leaf .start leaf] [], ?_, fun c hc => kind_of_lengths?_nil hc⟩
  rw [recognize, List.isEmpty_eq_false_iff.mpr hne, hcolor, hparse]
  exact hdull.recognizeNodes_eq _

theorem length_of_mapM {α β : Type} {f : α → Option β} {xs : List α} {ys : List β}
    (h : xs.mapM f = some ys) : ys.length = xs.length := by
  induction xs generalizing ys with
  | nil =>
      cases h
      rfl
  | cons x xs ih =>
      rw [List.mapM_cons] at h
      obtain ⟨y, -, htail⟩ := Option.bind_eq_some_iff.mp h
      obtain ⟨rest, hrest, heq⟩ := Option.bind_eq_some_iff.mp htail
      cases heq
      rw [List.length_cons, List.length_cons, ih hrest]

/-- A trimmed text that is digits without a hash. -/
theorem exists_of_bareDigits? {cs : List Char} {digits : List Nat} (hstrip : Text.strip cs = cs)
    (hbare : bareDigits? cs = some digits) : ∃ h : HexText, h.IsBare ∧ h.digits = cs := by
  obtain ⟨found, hfound, hletter⟩ := Option.bind_eq_some_iff.mp hbare
  have hline : Css.dropFinalNewline cs = cs := by
    refine if_neg fun hlast => ?_
    rw [← hstrip] at hlast
    cases Text.not_isBlank_of_getLast?_strip hlast
  obtain ⟨hdigits, hlength⟩ : (∀ c ∈ cs, Text.isHex c = true) ∧ cs.length ∈ [3, 4, 6, 8] := by
    rw [hexDigits?, hline] at hfound
    obtain ⟨values, hvalues, hcount⟩ := Option.bind_eq_some_iff.mp hfound
    refine ⟨fun c hc => Option.isSome_iff_ne_none.mpr fun hnone => ?_, ?_⟩
    · exact Css.not_mem_of_mapM hvalues hnone hc
    · split at hcount
      · next hcontained => rwa [List.contains_iff_mem, length_of_mapM hvalues] at hcontained
      · cases hcount
  obtain ⟨h, rfl⟩ := HexText.exists_digits hdigits hlength
  refine ⟨h, ?_, rfl⟩
  cases h.hexDigits?_digits.symm.trans hfound
  split at hletter
  · next hboth =>
      rw [Bool.and_eq_true, bne_iff_ne, HexText.values, List.length_map] at hboth
      rw [HexText.IsBare, HexText.digits, List.length_map]
      obtain ⟨v, hv, hletter⟩ := List.any_eq_true.mp hboth.2
      obtain ⟨d, hd, rfl⟩ := List.mem_map.mp hv
      exact ⟨hboth.1, d.1, List.mem_map_of_mem hd,
        (Text.isAlpha_iff_of_hexValue? d.hexValue?_eq).mpr (of_decide_eq_true hletter)⟩
  · cases hletter

/-! ## What a name can change -/

/-- What a name, in lower case, can make of the result that a value has without one. -/
inductive Hinted (candidate name : List Char) :
    Except ColorFault Classified → Except ColorFault Classified → Prop
  | same (result : Except ColorFault Classified) : Hinted candidate name result result
  | color {c : Classified} (hkind : c.kind = .other ∨ c.kind = .spacing) {h : HexText}
      (hbare : h.IsBare) (hdigits : h.digits = candidate) (hname : isColorName name = true) :
      Hinted candidate name (.ok c) (.ok ⟨.color, String.ofList h.channels.text⟩)
  /-- Strings and identifiers between commas become families. -/
  | families {c : Classified} (hkind : c.kind = .other) {families : List (List Char)}
      (hfamilies : (splitCommas (Css.parse candidate)).mapM family? = some families)
      (hname : isFamilyName name = true) :
      Hinted candidate name (.ok c)
        (.ok ⟨.fontFamily, String.ofList (Text.joinWith [',', ' '] families)⟩)
  /-- A length becomes a font size with the same normal form. -/
  | size (value : String) (hname : isSizeName name = true) :
      Hinted candidate name (.ok ⟨.spacing, value⟩) (.ok ⟨.fontSize, value⟩)

theorem splitCommas_ne_nil (nodes : List Node) : splitCommas nodes ≠ [] := by
  cases nodes with
  | nil => exact List.cons_ne_nil _ _
  | cons node nodes =>
      rw [splitCommas]
      split
      · exact List.cons_ne_nil _ _
      · split <;> exact List.cons_ne_nil _ _

theorem exists_of_family? {part : List Node} {family : List Char} (h : family? part = some family) :
    ∃ node ∈ significant part, isLength node = false := by
  unfold family? at h
  split at h
  · cases h
  · next p value hpart => exact ⟨_, hpart ▸ List.mem_cons_self, rfl⟩
  · next nodes hne hstring =>
      obtain ⟨names, hnames, -⟩ := Option.map_eq_some_iff.mp h
      cases hnodes : significant part with
      | nil => exact absurd hnodes hne
      | cons node nodes =>
          rw [hnodes, List.mapM_cons] at hnames
          obtain ⟨name, hname, -⟩ := Option.bind_eq_some_iff.mp hnames
          refine ⟨node, List.mem_cons_self, ?_⟩
          unfold identName? at hname
          split at hname
          · rfl
          · cases hname

/-- Families are no lengths. -/
theorem lengths?_of_families {nodes : List Node} {families : List (List Char)}
    (h : (splitCommas nodes).mapM family? = some families) (name : List Char) :
    lengths? nodes name = none := by
  obtain ⟨part, hpart, node, hnode, hlength⟩ : ∃ part ∈ splitCommas nodes,
      ∃ node ∈ significant part, isLength node = false := by
    cases hparts : splitCommas nodes with
    | nil => exact absurd hparts (splitCommas_ne_nil nodes)
    | cons part parts =>
        refine ⟨part, List.mem_cons_self, ?_⟩
        rw [hparts, List.mapM_cons] at h
        obtain ⟨family, hfamily, -⟩ := Option.bind_eq_some_iff.mp h
        exact exists_of_family? hfamily
  have hmem : node ∈ significant nodes := by
    rw [significant, List.mem_filter] at hnode ⊢
    exact ⟨subset_of_mem_splitCommas hpart hnode.1, hnode.2⟩
  rw [lengths?]
  refine if_neg fun hall => ?_
  rw [Bool.and_eq_true, Bool.and_eq_true, List.all_eq_true] at hall
  rw [hall.2 node hmem] at hlength
  cases hlength

theorem families?_eq (nodes : List Node) (name : List Char) :
    families? nodes name = ((splitCommas nodes).mapM family?).bind fun families =>
      if isFamilyName name || (splitCommas nodes).getLast?.any isGeneric then some families
      else none :=
  rfl

/-- A name refines a length and changes nothing else about it. -/
theorem lengths?_hinted (text candidate name : List Char) (nodes : List Node) :
    Hinted candidate name (.ok (orOther text (lengths? nodes [])))
      (.ok (orOther text (lengths? nodes name))) := by
  unfold lengths?
  dsimp only
  split
  · rw [if_neg (by simp [isSizeName, Text.occursIn])]
    split
    · next hsize =>
        rw [Bool.and_eq_true] at hsize
        exact .size _ hsize.2
    · exact .same _
  · exact .same _

theorem recognizeNodes_hinted (text candidate name : List Char) :
    Hinted candidate name ((recognizeNodes candidate [] (Css.parse candidate)).map (orOther text))
      ((recognizeNodes candidate name (Css.parse candidate)).map (orOther text)) := by
  have hnone : isFamilyName [] = false := by decide
  unfold recognizeNodes
  cases isGradient (Css.parse candidate) with
  | error fault => exact .same _
  | ok gradient =>
      cases gradient with
      | true => exact .same _
      | false =>
          cases isShadow (Css.parse candidate) with
          | error fault => exact .same _
          | ok shadow =>
              cases shadow with
              | true => exact .same _
              | false =>
                  rw [families?_eq, families?_eq, hnone]
                  cases hfamilies : (splitCommas (Css.parse candidate)).mapM family? with
                  | none => exact lengths?_hinted text candidate name _
                  | some families =>
                      have hlengths := lengths?_of_families hfamilies
                      cases hgeneric : (splitCommas (Css.parse candidate)).getLast?.any
                        isGeneric with
                      | true =>
                          simp only [Option.bind_some, Bool.or_true, if_true]
                          exact .same _
                      | false =>
                          simp only [Option.bind_some, Bool.or_false, hlengths]
                          cases hname : isFamilyName name with
                          | true => exact .families rfl hfamilies hname
                          | false => exact .same _

/-- **A name makes no other changes.** -/
theorem recognize_hinted {candidate : List Char} (hstrip : Text.strip candidate = candidate)
    (text name : List Char) :
    Hinted candidate name ((recognize candidate []).map (orOther text))
      ((recognize candidate name).map (orOther text)) := by
  -- a name of a colour only tells apart digits without a number sign
  by_cases hbare : isColorName name = true ∧ hashDigits? candidate = none ∧
      (bareDigits? candidate).isSome = true
  · obtain ⟨hname, -, hdigits⟩ := hbare
    obtain ⟨digits, hdigits⟩ := Option.isSome_iff_exists.mp hdigits
    obtain ⟨h, hbare, rfl⟩ := exists_of_bareDigits? hstrip hdigits
    obtain ⟨found, hfound, hspacing⟩ := recognize_of_bare h
    have hne : h.digits ≠ [] := by cases h <;> exact List.cons_ne_nil _ _
    have hcolor := h.normalColor?_eq (h.colorDigits?_digits hbare hname)
    rw [hfound, recognize_of_normalColor? hne hcolor]
    refine .color ?_ hbare rfl hname
    cases found with
    | none => exact .inl rfl
    | some c => exact .inr (hspacing c rfl)
  · have hdigits : colorDigits? candidate name = colorDigits? candidate [] := by
      have hnone : isColorName [] = false := by decide
      rw [colorDigits?, colorDigits?, hnone]
      cases hhash : hashDigits? candidate with
      | some digits => rfl
      | none =>
          cases hname : isColorName name with
          | false => rfl
          | true =>
              refine Option.not_isSome_iff_eq_none.mp fun hsome => hbare ⟨hname, hhash, ?_⟩
              exact hsome
    rw [recognize, recognize, normalColor?_eq, normalColor?_eq, hdigits, ← normalColor?_eq]
    split
    · exact .same _
    · cases normalColor? candidate [] with
      | error fault => exact .same _
      | ok color? =>
          cases color? with
          | some color => exact .same _
          | none => exact recognizeNodes_hinted text candidate name

/-- **Names are only a second hint.** Whether a value can be classified does not depend on its name.
A colour, gradient, shadow or font family is one under every name, with the same normal form. Under
a name that says so, digits without a hash that are nothing else or a length become a colour, what
is nothing else becomes a font family, and a length becomes a font size with the same normal form;
nothing else changes. The sigil of a variable changes nothing, so a declaration has the same kind as
a token, for which the sigil is taken off, and outside every scope, where its name is taken as it
is. -/
theorem names_only_hint (raw name : List Char) :
    Hinted (bareText raw) (Text.asciiLower name) (classify raw none) (classify raw (some name)) ∧
      (∀ c, classify raw none = .ok c → c.kind ≠ .other → c.kind ≠ .spacing →
        classify raw (some name) = .ok c) ∧
      (∀ dialect ∈ dialects,
        classify raw (some (stripSigil dialect name)) = classify raw (some name)) ∧
      ∀ (place : Place) (scope : Scope) (d : Declaration), place.dialect ∈ dialects →
        (tokenOf place scope d).map (fun token => (token.kind, token.value)) =
            (classify d.value (some d.name)).map (fun c => (c.kind, Json.str c.value)) ∧
          (literalOf place d).map (fun literals => literals.map (·.kind)) =
            (classify d.value (some d.name)).map fun c =>
              if c.isHardCoded then [c.kind] else [] := by
  have hhinted : Hinted (bareText raw) (Text.asciiLower name) (classify raw none)
      (classify raw (some name)) := by
    rw [classify_eq, classify_eq]
    exact recognize_hinted (Text.strip_strip _) _ _
  refine ⟨hhinted, fun c hc hother hspacing => ?_,
    fun dialect hdialect => classify_stripSigil hdialect raw name,
    fun place scope d hdialect => ⟨?_, ?_⟩⟩
  · rw [hc] at hhinted
    generalize classify raw (some name) = result at hhinted
    cases hhinted with
    | same => rfl
    | color hkind => exact (hkind.elim hother hspacing).elim
    | families hkind => exact absurd hkind hother
    | size value => exact absurd rfl hspacing
  · rw [tokenOf, classify_stripSigil hdialect]
    cases classify d.value (some d.name) <;> rfl
  · rw [literalOf]
    cases classify d.value (some d.name) with
    | error fault => rfl
    | ok c =>
        show Except.map _ (if c.isHardCoded then _ else _) =
            Except.ok (if c.isHardCoded then _ else _)
        split <;> rfl

/-- Three digits with an exponent are zero without a name, and a colour under a colour's name with
or without its sigil. -/
theorem names_only_hint_exponent :
    classify "0e0".toList none = .ok ⟨.spacing, "0e0"⟩ ∧
      classify "0e0".toList (some "$brand-color".toList) = .ok ⟨.color, "#00ee00"⟩ ∧
      classify "0e0".toList (some "brand-color".toList) = .ok ⟨.color, "#00ee00"⟩ ∧
      Hinted "0e0".toList "$brand-color".toList
        (.ok ⟨.spacing, "0e0"⟩) (.ok ⟨.color, "#00ee00"⟩) := by
  have hplain : classify "0e0".toList none = .ok ⟨.spacing, "0e0"⟩ := by decide +kernel
  have hcolor : classify "0e0".toList (some "$brand-color".toList) = .ok ⟨.color, "#00ee00"⟩ := by
    decide +kernel
  have hbare : bareText "0e0".toList = "0e0".toList := by decide +kernel
  obtain ⟨hhinted, -, hsigil, -⟩ := names_only_hint "0e0".toList "$brand-color".toList
  have hstripped := hsigil Stylesheet.scss (by decide)
  rw [hcolor] at hstripped
  rw [hplain, hcolor, hbare] at hhinted
  exact ⟨hplain, hcolor, hstripped, hhinted⟩

end TokenCatalog.Value
