import TokenCatalog.Proofs.Css.CollapsedColor
import TokenCatalog.Proofs.Css.Snug
import TokenCatalog.Proofs.Value.FunctionalColor

/-!
# The normal form of gradients and shadows

The normal form of a gradient or a shadow is its text with the blanks collapsed, those inside its
tokens too. Where that leaves the tokens as they are, the normal form holds the same component
values, and so it is classified as itself. Main statements:

* `isGradient_respaced` and `isShadow_respaced`: blanks and comments do not matter for either;
* `gradients_and_shadows_settled`: the component values of the normal form, and when it is
  classified as itself.
-/

namespace TokenCatalog.Value

open Text (isBlank)
open TokenCatalog.Css (Node ColorFault Respaced significant splitCommas isSnug)

/-! ## Single nodes -/

section

variable {x y : Node} (h : Respaced [x] [y])

include h

theorem color?_respaced : x.color? = y.color? := by
  refine h.apply (f := Node.color?) (fun _ _ => rfl) (fun _ _ => rfl)
    (fun _ _ l => ?_) fun _ _ opener _ _ hin => ?_
  · cases l <;> rfl
  · cases opener with
    | function name => exact hin.functionColor? name
    | block bracket => rfl

theorem isColorNode_respaced : isColorNode x = isColorNode y := by
  refine h.apply (f := isColorNode) (fun _ _ => rfl) (fun _ _ => rfl)
    (fun _ _ l => ?_) fun _ _ opener _ _ hin => ?_
  · cases l <;> rfl
  · cases opener with
    | function name =>
        exact congrArg (· >>= fun color? => .ok color?.isSome) (hin.functionColor? name)
    | block bracket => rfl

theorem isShadowLength_respaced : isShadowLength x = isShadowLength y := by
  refine h.apply (f := isShadowLength) (fun _ _ => rfl) (fun _ _ => rfl)
    (fun _ _ l => ?_) fun _ _ opener _ _ _ => ?_
  · cases l <;> rfl
  · cases opener <;> rfl

theorem isInset_respaced : isInset x = isInset y := by
  refine h.apply (f := isInset) (fun _ _ => rfl) (fun _ _ => rfl)
    (fun _ _ l => ?_) fun _ _ opener _ _ _ => ?_
  · cases l <;> rfl
  · cases opener <;> rfl

end

/-! ## Rows -/

section

variable {xs ys : List Node} (h : Respaced xs ys)

include h

theorem anyColor_respaced : anyColor xs = anyColor ys := by
  induction h using Respaced.nodewise with
  | nil => rfl
  | cons here _ ih => rw [anyColor, anyColor, isColorNode_respaced here, ih]

theorem splitCommas_respaced : List.Forall₂ Respaced (splitCommas xs) (splitCommas ys) := by
  induction h using Respaced.nodewise with
  | nil => exact .cons .nil .nil
  | @cons x y xs ys here _ ih =>
      rw [splitCommas, splitCommas, here.isLiteral]
      generalize splitCommas xs = parts at ih
      generalize splitCommas ys = parts' at ih
      split
      · exact .cons .nil ih
      · cases ih with
        | nil => exact .cons here .nil
        | cons hpart hparts => exact .cons (here.append hpart) hparts

end

theorem countStops_respaced {parts parts' : List (List Node)}
    (h : List.Forall₂ Respaced parts parts') : countStops parts = countStops parts' := by
  induction h with
  | nil => rfl
  | cons hpart _ ih => rw [countStops, countStops, anyColor_respaced hpart.significant, ih]

theorem isGradientNode_respaced {x y : Node} (h : Respaced [x] [y]) :
    isGradientNode x = isGradientNode y := by
  refine h.apply (f := isGradientNode) (fun _ _ => rfl) (fun _ _ => rfl)
    (fun _ _ l => ?_) fun p q opener _ _ hin => ?_
  · cases l <;> rfl
  · cases opener with
    | function name =>
        show isGradientNode (.function p name _) = isGradientNode (.function q name _)
        rw [isGradientNode, isGradientNode, countStops_respaced (splitCommas_respaced hin)]
    | block bracket => rfl

/-- **Blanks and comments do not matter for a gradient.** -/
theorem isGradient_respaced {xs ys : List Node} (h : Respaced xs ys) :
    isGradient xs = isGradient ys := by
  induction h using Respaced.nodewise with
  | nil => rfl
  | cons here _ ih => rw [isGradient, isGradient, isGradientNode_respaced here, ih]

/-! ## Shadows -/

section

variable {xs ys : List Node} (h : Respaced xs ys)

include h

theorem length_respaced : xs.length = ys.length := by
  induction h using Respaced.nodewise with
  | nil => rfl
  | cons here _ ih => rw [List.length_cons, List.length_cons, ih]

theorem areShadowLengths_respaced : areShadowLengths xs = areShadowLengths ys := by
  have hall : xs.all isShadowLength = ys.all isShadowLength := by
    induction h using Respaced.nodewise with
    | nil => rfl
    | cons here _ ih => rw [List.all_cons, List.all_cons, isShadowLength_respaced here, ih]
  rw [areShadowLengths, areShadowLengths, length_respaced h, hall]

theorem getLast_respaced (hxs : xs ≠ []) (hys : ys ≠ []) :
    Respaced [xs.getLast hxs] [ys.getLast hys] := by
  have hlast := h.drop (xs.length - 1)
  rwa [List.drop_length_sub_one hxs, length_respaced h, List.drop_length_sub_one hys] at hlast

theorem dropLast_respaced : Respaced xs.dropLast ys.dropLast := by
  rw [List.dropLast_eq_take, List.dropLast_eq_take, ← length_respaced h]
  exact h.take _

end

/-- Whether nodes other than the word for inwards are one layer of a shadow. -/
def isLayer : List Node → Except ColorFault Bool
  | [] => .ok false
  | first :: rest => do
    if ← isColorNode ((first :: rest).getLast (List.cons_ne_nil first rest)) then
      .ok (areShadowLengths (first :: rest).dropLast)
    else if ← isColorNode first then .ok (areShadowLengths rest)
    else .ok false

theorem isShadowLayer_eq (nodes : List Node) :
    isShadowLayer nodes = isLayer ((significant nodes).filter (!isInset ·)) :=
  rfl

theorem isLayer_respaced {xs ys : List Node} (h : Respaced xs ys) : isLayer xs = isLayer ys := by
  cases xs with
  | nil => rw [h.eq_nil]
  | cons x xs =>
      obtain ⟨y, ys, rfl, here, later⟩ := Css.respaced_cons h
      rw [isLayer, isLayer, isColorNode_respaced here, areShadowLengths_respaced later,
        areShadowLengths_respaced (dropLast_respaced h),
        isColorNode_respaced (getLast_respaced h (by simp) (by simp))]

theorem areShadowLayers_respaced {parts parts' : List (List Node)}
    (h : List.Forall₂ Respaced parts parts') : areShadowLayers parts = areShadowLayers parts' := by
  induction h with
  | nil => rfl
  | cons hpart _ ih =>
      have hlayer := hpart.significant.filter fun here => congrArg (!·) (isInset_respaced here)
      rw [areShadowLayers, areShadowLayers, isShadowLayer_eq, isShadowLayer_eq,
        isLayer_respaced hlayer, ih]

/-- **Blanks and comments do not matter for a shadow.** -/
theorem isShadow_respaced {xs ys : List Node} (h : Respaced xs ys) : isShadow xs = isShadow ys :=
  areShadowLayers_respaced (splitCommas_respaced h)

/-! ## The normal form -/

/-- **Blanks and comments do not matter for a colour.** -/
theorem color?_of_respaced {cs ds : List Char} (h : Respaced (Css.parse cs) (Css.parse ds)) :
    Css.color? cs = Css.color? ds := by
  have hrow := h.significant
  rw [Css.color?, Css.color?, Css.parseOne?, Css.parseOne?]
  generalize significant (Css.parse cs) = xs at hrow
  generalize significant (Css.parse ds) = ys at hrow
  cases xs with
  | nil => rw [hrow.eq_nil]
  | cons x xs =>
      obtain ⟨y, ys, rfl, here, later⟩ := Css.respaced_cons hrow
      cases xs with
      | nil =>
          rw [later.eq_nil]
          exact color?_respaced here
      | cons x' xs =>
          obtain ⟨y', ys, rfl, -, -⟩ := Css.respaced_cons later
          rfl

/-- A text that is no colour is none when it is collapsed to the same component values. -/
theorem normalColor?_collapse {cs name : List Char} (htrimmed : Text.strip cs = cs)
    (hrespaced : Respaced (Css.parse cs) (Css.parse (Text.collapse cs)))
    (h : normalColor? cs name = .ok none) : normalColor? (Text.collapse cs) name = .ok none := by
  by_cases hblank : ∃ c ∈ cs, isBlank c = true
  · obtain ⟨c, hc, hblank⟩ := hblank
    have hspace : ' ' ∈ Text.collapse cs := by
      rw [Text.collapse_eq_squeeze htrimmed]
      exact Text.space_mem_squeeze hc hblank
    rw [normalColor?_eq, colorDigits?_eq_none_of_mem (by decide) (by decide) (by decide) hspace,
      ← color?_of_respaced hrespaced, color?_of_normalColor? h]
    rfl
  -- a text without blanks is collapsed as it is
  · have hsame : Text.collapse cs = cs := by
      rw [Text.collapse_eq_squeeze htrimmed]
      exact Text.squeeze_of_forall fun c hc => Bool.eq_false_iff.mpr fun hc' => hblank ⟨c, hc, hc'⟩
    rwa [hsame]

/-- What a gradient or a shadow is recognized by, blanks and comments aside. -/
theorem recognizeNodes_of_classify {raw : List Char} {name : Option (List Char)} {c : Classified}
    (h : classify raw name = .ok c) (hkind : c.kind = .gradient ∨ c.kind = .shadow) :
    normalColor? (bareText raw) (Text.asciiLower (name.getD [])) = .ok none ∧
      c.value = String.ofList (Text.collapse (bareText raw)) ∧
      ∀ cs nodes, Respaced (Css.parse (bareText raw)) nodes →
        recognizeNodes cs (Text.asciiLower (name.getD [])) nodes =
          .ok (some ⟨c.kind, String.ofList (Text.collapse cs)⟩) := by
  have hcolor : c.kind ≠ .color := by
    rcases hkind with hkind | hkind <;> rw [hkind] <;> decide
  have hother : c.kind ≠ .other := by
    rcases hkind with hkind | hkind <;> rw [hkind] <;> decide
  obtain ⟨hnone, hcases⟩ := recognizes_of_classify h hcolor hother
  refine ⟨hnone, ?_⟩
  generalize hresult : Except.ok (some c) = result at hcases
  cases hcases with
  | gradientFault => cases hresult
  | shadowFault => cases hresult
  | gradient hgradient =>
      cases hresult
      refine ⟨rfl, fun cs nodes hnodes => ?_⟩
      rw [isGradient_respaced hnodes] at hgradient
      rw [recognizeNodes, hgradient]
      rfl
  | shadow hgradient hshadow =>
      cases hresult
      refine ⟨rfl, fun cs nodes hnodes => ?_⟩
      rw [isGradient_respaced hnodes] at hgradient
      rw [isShadow_respaced hnodes] at hshadow
      rw [recognizeNodes, hgradient]
      show (do if ← isShadow nodes then _ else _) = _
      rw [hshadow]
      rfl
  | families =>
      cases hresult
      rcases hkind with hkind | hkind <;> cases hkind
  | lengths hgradient hshadow hfamilies =>
      have hlengths := kind_of_lengths? (Except.ok.inj hresult).symm
      rcases hkind with hkind | hkind <;> rw [hkind] at hlengths <;> simp at hlengths

/-- **The normal form of gradients and shadows.** It is the text without its flags and with its
blanks collapsed, and no other text is the normal form of that. If the collapsing leaves every token
as it is, the normal form holds the same component values, and it is classified as itself. -/
theorem gradients_and_shadows_settled {raw : List Char} {name : Option (List Char)} {c : Classified}
    (h : classify raw name = .ok c) (hkind : c.kind = .gradient ∨ c.kind = .shadow) :
    c.value.toList = Text.collapse (bareText raw) ∧
      (∀ c', classify c.value.toList name = .ok c' → (c'.kind = .gradient ∨ c'.kind = .shadow) →
        c'.value = c.value) ∧
      (isSnug (Css.uniform (bareText raw)) = true →
        Respaced (Css.parse (bareText raw)) (Css.parse c.value.toList) ∧
          classify c.value.toList name = .ok c) := by
  obtain ⟨hnone, hvalue, hagain⟩ := recognizeNodes_of_classify h hkind
  have htrimmed := strip_bareText raw
  have htext : c.value.toList = Text.collapse (bareText raw) := by
    rw [hvalue, String.toList_ofList]
  have hbare := bareText_collapse raw
  rw [htext]
  refine ⟨rfl, fun c' h' hkind' => ?_, fun hsnug => ?_⟩
  · obtain ⟨-, hvalue', -⟩ := recognizeNodes_of_classify h' hkind'
    rw [hvalue', hbare, Text.collapse_collapse htrimmed, hvalue]
  · have hrespaced := Css.parse_collapse_of_isSnug htrimmed hsnug
    have hempty : (Text.collapse (bareText raw)).isEmpty = false := by
      refine List.isEmpty_eq_false_iff.mpr fun hnil => ?_
      rw [Text.collapse_eq_squeeze htrimmed] at hnil
      rw [classify_eq, Text.squeeze_eq_nil hnil] at h
      cases h
      rcases hkind with hkind | hkind <;> cases hkind
    refine ⟨hrespaced, ?_⟩
    rw [classify_eq, hbare, recognize, hempty, normalColor?_collapse htrimmed hrespaced hnone]
    show (recognizeNodes _ _ _).map _ = _
    rw [hagain _ _ hrespaced, Text.collapse_collapse htrimmed, ← hvalue]
    rfl

/-- A gradient with a line end, a comment, a string and an address. -/
theorem gradients_and_shadows_settled_layers :
    classify
        "url('my photo.png') ,\n linear-gradient( red, /* */ #00f  50%)!important".toList none =
        .ok ⟨.gradient, "url('my photo.png') , linear-gradient( red, /* */ #00f 50%)"⟩ ∧
      classify "url('my photo.png') , linear-gradient( red, /* */ #00f 50%)".toList none =
        .ok ⟨.gradient, "url('my photo.png') , linear-gradient( red, /* */ #00f 50%)"⟩ := by
  have hclass : classify
      "url('my photo.png') ,\n linear-gradient( red, /* */ #00f  50%)!important".toList none =
        .ok ⟨.gradient, "url('my photo.png') , linear-gradient( red, /* */ #00f 50%)"⟩ := by
    decide +kernel
  exact ⟨hclass, ((gradients_and_shadows_settled hclass (.inl rfl)).2.2 (by decide +kernel)).2⟩

end TokenCatalog.Value
