import TokenCatalog.Proofs.Css.ColorRange
import TokenCatalog.Proofs.Css.Within
import TokenCatalog.Value.Classify

/-!
# Values that cannot be classified

The only way for a value not to be classified is a colour function whose channels are beyond the end
of the number format, and only numbers of extreme size make such channels. Main statements:

* `Overflows`: a component value is a colour that has no value or no normal form;
* `extreme_of_overflows`: such a value is a colour function with an extreme number in it;
* `Calm.classify_ok`: a value without such a function in it is classified;
* `classify_overflows`: a value that is such a function is not.
-/

namespace TokenCatalog.Value

open TokenCatalog.Css (Node ColorFault Rgba Color Within ModerateRow significant splitCommas
  mem_dropFinalNewline not_mem_of_mapM)

/-! ## Normal forms -/

theorem writeChannel_ok {x : Binary64} {k : Nat} (h : x.AtMost k) (hk : k + 8 ≤ 1023) :
    ∃ cs, writeChannel x = .ok cs := by
  have hwhole : (Binary64.ofInt 255).AtMost 8 := Binary64.atMost_ofInt (by decide) (by decide)
  obtain ⟨s, m, e, hproduct⟩ := (Binary64.atMost_mul h hwhole hk).exists_finite
  rw [writeChannel, hproduct]
  exact ⟨_, rfl⟩

theorem writeHash_ok {c : Rgba} (h : c.InRange 1009) : ∃ cs, writeHash c = .ok cs := by
  obtain ⟨red, hred⟩ := writeChannel_ok h.red (by decide)
  obtain ⟨green, hgreen⟩ := writeChannel_ok h.green (by decide)
  obtain ⟨blue, hblue⟩ := writeChannel_ok h.blue (by decide)
  rw [writeHash, hred, hgreen, hblue]
  exact ⟨_, rfl⟩

/-- A hash colour has a normal form. -/
theorem normalHash_ok {digits : List Nat} {c : Rgba} (hdigits : ∀ d ∈ digits, d < 16)
    (h : Css.digitsColor? digits = some c) : ∃ cs, normalHash c = .ok cs := by
  obtain ⟨hrange, halpha⟩ := Css.digitsColor?_inRange hdigits h
  obtain ⟨hash, hhash⟩ := writeHash_ok hrange
  obtain ⟨alpha, hwritten⟩ := writeChannel_ok halpha (by decide)
  rw [normalHash, hhash, hwritten]
  show ∃ cs, (if isOpaque c then Except.ok hash else .ok (hash ++ alpha)) = .ok cs
  split
  · exact ⟨_, rfl⟩
  · exact ⟨_, rfl⟩

/-! ## Colours that overflow -/

/-- A component value is a colour that cannot be read, or an opaque one that cannot be written,
because a channel is beyond the end of the number format. -/
def Overflows (node : Node) : Prop :=
  (∃ fault, node.color? = .error fault) ∨
    ∃ c fault, node.color? = .ok (some (.concrete c)) ∧ isOpaque c = true ∧
      writeHash c = .error fault

theorem not_overflows_of_readsInRange {node : Node} (h : Css.ReadsInRange node.color?) :
    ¬ Overflows node := by
  obtain ⟨color?, hread, hrange⟩ := h
  rintro (⟨fault, hfault⟩ | ⟨c, fault, hcolor, -, hfault⟩)
  · cases hread.symm.trans hfault
  · cases hread.symm.trans hcolor
    obtain ⟨cs, hcs⟩ := writeHash_ok (hrange c rfl)
    cases hcs.symm.trans hfault

/-- A component value is a colour function with a number of extreme size in it. -/
inductive Extreme : Node → Prop
  | intro (position : Css.Position) {name : List Char} {arguments : List Node} {argument : Node}
      {n : Css.Numeral} (hname : ∃ f ∈ Css.colorFunctions, Text.asciiLower name = f.toList)
      (hargument : argument ∈ arguments) (hnumeral : argument.numeral? = some n)
      (hextreme : ¬ n.Moderate) : Extreme (.function position name arguments)

/-- **Only extreme numbers in a colour function make a colour overflow.** -/
theorem extreme_of_overflows {node : Node} (h : Overflows node) : Extreme node := by
  cases node with
  | leaf p leaf =>
      refine absurd h (not_overflows_of_readsInRange ?_)
      cases leaf with
      | ident name => exact ⟨_, rfl, fun c hc => Css.keywordColor?_inRange hc⟩
      | hash name isIdentifier => exact ⟨_, rfl, fun c hc => Css.hashColor?_inRange hc⟩
      | _ => exact Css.readsInRange_none
  | block p bracket content =>
      exact absurd h (not_overflows_of_readsInRange Css.readsInRange_none)
  | function p name arguments =>
      by_cases hname : ∃ f ∈ Css.colorFunctions, Text.asciiLower name = f.toList
      · by_cases hmoderate : ModerateRow arguments
        · exact absurd h (not_overflows_of_readsInRange (Css.functionColor?_inRange hmoderate))
        · unfold ModerateRow at hmoderate
          push Not at hmoderate
          obtain ⟨argument, hargument, n, hnumeral, hextreme⟩ := hmoderate
          exact .intro p hname hargument hnumeral hextreme
      · push Not at hname
        have hnone : (Node.function p name arguments).color? = .ok none :=
          Css.functionColor?_eq_none hname
        refine absurd h (not_overflows_of_readsInRange ?_)
        rw [hnone]
        exact Css.readsInRange_none

/-! ## Colours inside a value -/

def Calm (nodes : List Node) : Prop :=
  ∀ node, Within node nodes → ¬ Overflows node

theorem Calm.mono {nodes fewer : List Node} (h : Calm nodes) (hsub : fewer ⊆ nodes) : Calm fewer :=
  fun node hnode => h node (hnode.mono hsub)

/-- Values without functions and blocks in them are calm. -/
theorem calm_of_leaves {nodes : List Node} (h : ∀ node ∈ nodes, node.leaf?.isSome) :
    Calm nodes := by
  intro node hnode hoverflows
  obtain ⟨p, hname, hargument, hnumeral, hextreme⟩ := extreme_of_overflows hoverflows
  cases hnode with
  | here hmem => cases h _ hmem
  | argument hmem _ => cases h _ hmem
  | content hmem _ => cases h _ hmem

theorem Calm.color?_ok {nodes : List Node} (h : Calm nodes) {node : Node} (hnode : node ∈ nodes) :
    ∃ color?, node.color? = .ok color? := by
  cases hcolor : node.color? with
  | ok color? => exact ⟨color?, rfl⟩
  | error fault => exact absurd (.inl ⟨fault, hcolor⟩) (h node (.here hnode))

theorem Calm.isColorNode_ok {nodes : List Node} (h : Calm nodes) {node : Node}
    (hnode : node ∈ nodes) : ∃ b, isColorNode node = .ok b := by
  obtain ⟨color?, hcolor⟩ := h.color?_ok hnode
  unfold isColorNode
  split
  · exact ⟨_, rfl⟩
  · rw [hcolor]
    exact ⟨_, rfl⟩
  · rw [hcolor]
    exact ⟨_, rfl⟩
  · exact ⟨_, rfl⟩

theorem Calm.anyColor_ok {nodes : List Node} (h : Calm nodes) : ∃ b, anyColor nodes = .ok b := by
  induction nodes with
  | nil => exact ⟨false, rfl⟩
  | cons node nodes ih =>
      obtain ⟨here, hhere⟩ := h.isColorNode_ok List.mem_cons_self
      obtain ⟨later, hlater⟩ := ih (h.mono (List.subset_cons_self _ _))
      rw [anyColor, hhere, hlater]
      cases here
      · exact ⟨later, rfl⟩
      · exact ⟨true, rfl⟩

theorem subset_of_mem_splitCommas {nodes part : List Node} (h : part ∈ splitCommas nodes) :
    part ⊆ nodes := by
  induction nodes generalizing part with
  | nil =>
      rw [Css.splitCommas, List.mem_singleton] at h
      rw [h]
      exact List.nil_subset []
  | cons node nodes ih =>
      rw [Css.splitCommas] at h
      split at h
      · rcases List.mem_cons.mp h with rfl | hlater
        · exact List.nil_subset _
        · exact List.subset_cons_of_subset node (ih hlater)
      · split at h
        · rw [List.mem_singleton] at h
          rw [h]
          exact List.cons_subset_cons node (List.nil_subset nodes)
        · next first parts hparts =>
            rcases List.mem_cons.mp h with rfl | hlater
            · exact List.cons_subset_cons node (ih (hparts ▸ List.mem_cons_self))
            · exact List.subset_cons_of_subset node
                (ih (hparts ▸ List.mem_cons_of_mem first hlater))

theorem Calm.part {nodes part : List Node} (h : Calm nodes) (hpart : part ∈ splitCommas nodes) :
    Calm (significant part) :=
  h.mono (List.Subset.trans List.filter_sublist.subset (subset_of_mem_splitCommas hpart))

/-! ## Gradients and shadows -/

theorem countStops_ok {parts : List (List Node)} (h : ∀ part ∈ parts, Calm (significant part)) :
    ∃ n, countStops parts = .ok n := by
  induction parts with
  | nil => exact ⟨0, rfl⟩
  | cons part parts ih =>
      rw [List.forall_mem_cons] at h
      obtain ⟨here, hhere⟩ := h.1.anyColor_ok
      obtain ⟨rest, hrest⟩ := ih h.2
      rw [countStops, hhere, hrest]
      exact ⟨_, rfl⟩

theorem Calm.isGradientNode_ok {nodes : List Node} (h : Calm nodes) {node : Node}
    (hnode : node ∈ nodes) : ∃ b, isGradientNode node = .ok b := by
  cases node with
  | leaf p leaf => exact ⟨false, rfl⟩
  | block p bracket content => exact ⟨false, rfl⟩
  | function p name arguments =>
      have harguments : Calm arguments := fun inner hinner => h inner (.argument hnode hinner)
      obtain ⟨n, hn⟩ := countStops_ok fun part hpart => harguments.part hpart
      rw [isGradientNode, hn]
      split
      · exact ⟨_, rfl⟩
      · exact ⟨_, rfl⟩

theorem Calm.isGradient_ok {nodes : List Node} (h : Calm nodes) :
    ∃ b, isGradient nodes = .ok b := by
  induction nodes with
  | nil => exact ⟨false, rfl⟩
  | cons node nodes ih =>
      obtain ⟨here, hhere⟩ := h.isGradientNode_ok List.mem_cons_self
      obtain ⟨later, hlater⟩ := ih (h.mono (List.subset_cons_self _ _))
      rw [isGradient, hhere, hlater]
      cases here
      · exact ⟨later, rfl⟩
      · exact ⟨true, rfl⟩

theorem isShadowLayer_ok {part : List Node} (h : Calm (significant part)) :
    ∃ b, isShadowLayer part = .ok b := by
  unfold isShadowLayer
  split
  · exact ⟨false, rfl⟩
  · next first rest hlayer =>
      have hlayer : first :: rest ⊆ significant part := hlayer ▸ List.filter_sublist.subset
      obtain ⟨behind, hbehind⟩ := h.isColorNode_ok (hlayer (List.getLast_mem (by simp)))
      obtain ⟨ahead, hahead⟩ := h.isColorNode_ok (hlayer List.mem_cons_self)
      rw [hbehind, hahead]
      cases behind
      · cases ahead
        · exact ⟨_, rfl⟩
        · exact ⟨_, rfl⟩
      · exact ⟨_, rfl⟩

theorem areShadowLayers_ok {parts : List (List Node)}
    (h : ∀ part ∈ parts, Calm (significant part)) : ∃ b, areShadowLayers parts = .ok b := by
  induction parts with
  | nil => exact ⟨true, rfl⟩
  | cons part parts ih =>
      rw [List.forall_mem_cons] at h
      obtain ⟨here, hhere⟩ := isShadowLayer_ok h.1
      obtain ⟨rest, hrest⟩ := ih h.2
      rw [areShadowLayers, hhere, hrest]
      cases here
      · exact ⟨_, rfl⟩
      · exact ⟨_, rfl⟩

/-! ## Whole values -/

theorem Calm.classifyNodes_ok {nodes : List Node} (h : Calm nodes)
    (text candidate name : List Char) : ∃ c, classifyNodes text candidate name nodes = .ok c := by
  obtain ⟨gradient, hgradient⟩ := h.isGradient_ok
  obtain ⟨shadow, hshadow⟩ := areShadowLayers_ok fun part hpart => h.part hpart
  rw [classifyNodes, hgradient, isShadow, hshadow]
  cases gradient
  · cases shadow
    · cases hfamilies : families? nodes name with
      | none => exact ⟨_, rfl⟩
      | some families => exact ⟨_, rfl⟩
    · exact ⟨_, rfl⟩
  · exact ⟨_, rfl⟩

/-- Hexadecimal digits are below sixteen. -/
theorem lt_of_mem_hexDigits? {cs : List Char} {digits : List Nat}
    (h : hexDigits? cs = some digits) :
    ∀ d ∈ digits, d < 16 := by
  unfold hexDigits? at h
  obtain ⟨found, hfound, hlength⟩ := Option.bind_eq_some_iff.mp h
  have hdigits := Css.forall_mem_of_mapM hfound fun _ _ => Css.hexValue?_lt
  split at hlength
  · cases hlength
    exact hdigits
  · cases hlength

/-- The digits of a hash colour, or of one that is written without its hash under a color's name. -/
def colorDigits? (cs name : List Char) : Option (List Nat) :=
  hashDigits? cs <|> if isColorName name then bareDigits? cs else none

theorem exists_hexDigits?_of_colorDigits? {cs name : List Char} {digits : List Nat}
    (h : colorDigits? cs name = some digits) :
    ∃ rest, (cs = rest ∨ cs = '#' :: rest) ∧ hexDigits? rest = some digits := by
  unfold colorDigits? at h
  cases hhash : hashDigits? cs with
  | some digits' =>
      rw [hhash] at h
      cases h
      unfold hashDigits? at hhash
      split at hhash
      · exact ⟨_, .inr rfl, hhash⟩
      · cases hhash
  | none =>
      rw [hhash] at h
      change (if isColorName name then bareDigits? cs else none) = some digits at h
      split at h
      · obtain ⟨found, hfound, hletter⟩ := Option.bind_eq_some_iff.mp h
        split at hletter
        · cases hletter
          exact ⟨cs, .inl rfl, hfound⟩
        · cases hletter
      · cases h

def formOf? (cs : List Char) : Option Color → Except ColorFault (Option (List Char))
  | some color => (normalForm cs color).map some
  | none => .ok none

theorem normalColor?_eq (cs name : List Char) :
    normalColor? cs name =
      (match (colorDigits? cs name).bind Css.digitsColor? with
      | some c => (normalHash c).map some
      | none => Css.color? cs >>= formOf? cs) := by
  unfold normalColor?
  change (match (colorDigits? cs name).bind Css.digitsColor? with
    | some c => _
    | none => _) = _
  cases (colorDigits? cs name).bind Css.digitsColor? with
  | some c => rfl
  | none =>
      cases Css.color? cs with
      | error fault => rfl
      | ok color? => cases color? <;> rfl

/-- A text without a normal form as a colour is none. -/
theorem color?_of_normalColor? {cs name : List Char} (h : normalColor? cs name = .ok none) :
    Css.color? cs = .ok none := by
  rw [normalColor?_eq] at h
  split at h
  · next c hdigits =>
      cases hnormal : normalHash c <;> rw [hnormal] at h <;> cases h
  · cases hcolor : Css.color? cs with
    | error fault =>
        rw [hcolor] at h
        cases h
    | ok color? =>
        cases color? with
        | none => rfl
        | some color =>
            rw [hcolor] at h
            change (normalForm cs color).map some = .ok none at h
            cases hform : normalForm cs color <;> rw [hform] at h <;> cases h

theorem Calm.normalColor?_ok {cs : List Char} (h : Calm (Css.parse cs)) (name : List Char) :
    ∃ result, normalColor? cs name = .ok result := by
  rw [normalColor?_eq]
  cases hdigits : (colorDigits? cs name).bind Css.digitsColor? with
  | some c =>
      obtain ⟨digits, hfound, hcolor⟩ := Option.bind_eq_some_iff.mp hdigits
      -- digits of a colour are in range whatever the value is
      obtain ⟨rest, -, hrest⟩ := exists_hexDigits?_of_colorDigits? hfound
      obtain ⟨text, htext⟩ := normalHash_ok (lt_of_mem_hexDigits? hrest) hcolor
      dsimp only
      rw [htext]
      exact ⟨_, rfl⟩
  | none =>
      dsimp only
      unfold Css.color?
      cases hone : Css.parseOne? cs with
      | none => exact ⟨none, rfl⟩
      | some node =>
          have hnode : node ∈ Css.parse cs := by
            unfold Css.parseOne? at hone
            split at hone
            · next hsignificant =>
                cases hone
                exact List.filter_sublist.subset (hsignificant ▸ List.mem_cons_self)
            · cases hone
          obtain ⟨color?, hcolor⟩ := h.color?_ok hnode
          dsimp only
          rw [hcolor]
          cases color? with
          | none => exact ⟨none, rfl⟩
          | some color =>
              cases color with
              | current => exact ⟨_, rfl⟩
              | concrete c =>
                  show ∃ result, (normalForm cs (.concrete c)).map some = .ok result
                  rw [normalForm]
                  split
                  · next hopaque =>
                      cases hwrite : writeHash c with
                      | ok text => exact ⟨_, rfl⟩
                      | error fault =>
                          exact absurd (.inr ⟨c, fault, hcolor, hopaque, hwrite⟩)
                            (h node (.here hnode))
                  · split
                    · exact ⟨_, rfl⟩
                    · exact ⟨_, rfl⟩

/-- A value without its flags and the blanks around it. -/
def bareText (raw : List Char) : List Char :=
  stripFlags (Text.strip raw)

/-- **A value in which no colour overflows is classified.** -/
theorem Calm.classify_ok {raw : List Char} (h : Calm (Css.parse (bareText raw)))
    (name : Option (List Char)) : ∃ c, classify raw name = .ok c := by
  unfold classify
  dsimp only
  rw [← bareText]
  split
  · exact ⟨_, rfl⟩
  · obtain ⟨color?, hcolor⟩ := h.normalColor?_ok (Text.asciiLower (name.getD []))
    rw [hcolor]
    cases color? with
    | some color => exact ⟨_, rfl⟩
    | none => exact h.classifyNodes_ok _ _ _

section

variable {c : Char} (hhex : Text.hexValue? c = none) (hline : c ≠ '\n')

include hhex hline

/-- A text with some other character in it is not made of digits. -/
theorem hexDigits?_eq_none {cs : List Char} (h : c ∈ cs) : hexDigits? cs = none := by
  have hkept := mem_dropFinalNewline hline h
  cases hdigits : hexDigits? cs with
  | none => rfl
  | some digits =>
      unfold hexDigits? at hdigits
      obtain ⟨found, hfound, -⟩ := Option.bind_eq_some_iff.mp hdigits
      exact (not_mem_of_mapM hfound hhex hkept).elim

/-- A text with some other character in it is no hash colour, with or without its hash. -/
theorem colorDigits?_eq_none_of_mem (hhash : c ≠ '#') {cs : List Char} (h : c ∈ cs)
    (name : List Char) : colorDigits? cs name = none := by
  refine Option.eq_none_iff_forall_ne_some.mpr fun digits hdigits => ?_
  obtain ⟨rest, hrest, hfound⟩ := exists_hexDigits?_of_colorDigits? hdigits
  have hinside : c ∈ rest := by
    rcases hrest with rfl | rfl
    · exact h
    · exact (List.mem_cons.mp h).resolve_left hhash
  cases (hexDigits?_eq_none hhex hline hinside).symm.trans hfound

end

/-- A text with a bracket in it is no hash colour, with or without its hash. -/
theorem colorDigits?_eq_none {cs : List Char} (h : '(' ∈ cs) (name : List Char) :
    colorDigits? cs name = none :=
  colorDigits?_eq_none_of_mem (by decide) (by decide) (by decide) h name

/-- **A value that is a colour that overflows is not classified.** -/
theorem classify_overflows {raw : List Char} {node : Node}
    (hone : Css.parseOne? (bareText raw) = some node) (hbracket : '(' ∈ bareText raw)
    (h : Overflows node) (name : Option (List Char)) :
    ∃ fault, classify raw name = .error fault := by
  have hdigits : colorDigits? (bareText raw) (Text.asciiLower (name.getD [])) = none :=
    colorDigits?_eq_none hbracket _
  have hcolor : Css.color? (bareText raw) = node.color? := by
    rw [Css.color?, hone]
  have hempty : (bareText raw).isEmpty = false := by
    cases hbare : bareText raw with
    | nil =>
        rw [hbare] at hbracket
        cases hbracket
    | cons c cs => rfl
  have hnormal : ∃ fault, normalColor? (bareText raw) (Text.asciiLower (name.getD [])) =
      .error fault := by
    rw [normalColor?_eq, hdigits, hcolor]
    rcases h with ⟨fault, hfault⟩ | ⟨c, fault, hread, hopaque, hwrite⟩
    · rw [hfault]
      exact ⟨fault, rfl⟩
    · rw [hread]
      refine ⟨fault, ?_⟩
      show (normalForm (bareText raw) (.concrete c)).map some = .error fault
      rw [normalForm, if_pos hopaque, hwrite]
      rfl
  obtain ⟨fault, hfault⟩ := hnormal
  refine ⟨fault, ?_⟩
  unfold classify
  dsimp only
  rw [← bareText, hempty, if_neg Bool.false_ne_true, hfault]
  rfl

end TokenCatalog.Value
