import TokenCatalog.Proofs.Except
import TokenCatalog.Proofs.Value.Overflow

/-!
# Recognizing values

Classification in two steps: what a text without flags is recognized as, and what becomes of a text
that is not recognized. Only the second step looks at the flags. Main statements:

* `recognize`: the kind and normal form of a text without flags, none if it is not recognized;
* `classify_eq`: classification is recognition, and a text that is not recognized is kept as it is;
* `recognizeNodes_cases` and `recognize_cases`: the ways of recognizing a text.
-/

namespace TokenCatalog.Value

open TokenCatalog.Css (Node ColorFault)

/-- The kind and normal form of a text that is no colour, given its component values; none if it is
not recognized. -/
def recognizeNodes (candidate name : List Char) (nodes : List Node) :
    Except ColorFault (Option Classified) := do
  if ← isGradient nodes then .ok (some ⟨.gradient, String.ofList (Text.collapse candidate)⟩)
  else if ← isShadow nodes then .ok (some ⟨.shadow, String.ofList (Text.collapse candidate)⟩)
  else
    match families? nodes name with
    | some families =>
        .ok (some ⟨.fontFamily, String.ofList (Text.joinWith [',', ' '] families)⟩)
    | none => .ok (lengths? nodes name)

/-- The kind and normal form of a text without flags; none if it is not recognized. -/
def recognize (candidate name : List Char) : Except ColorFault (Option Classified) := do
  if candidate.isEmpty then .ok none
  else
    match ← normalColor? candidate name with
    | some color => .ok (some ⟨.color, String.ofList color⟩)
    | none => recognizeNodes candidate name (Css.parse candidate)

def orOther (text : List Char) (found : Option Classified) : Classified :=
  found.getD ⟨.other, String.ofList text⟩

theorem classifyNodes_eq (text candidate name : List Char) (nodes : List Node) :
    classifyNodes text candidate name nodes =
      (recognizeNodes candidate name nodes).map (orOther text) := by
  unfold classifyNodes recognizeNodes
  cases isGradient nodes with
  | error fault => rfl
  | ok gradient =>
      cases gradient with
      | true => rfl
      | false =>
          cases isShadow nodes with
          | error fault => rfl
          | ok shadow =>
              cases shadow with
              | true => rfl
              | false => cases families? nodes name <;> rfl

/-- **Classification is recognition** of the text without its flags; the flags are kept only where
it is not recognized. -/
theorem classify_eq (raw : List Char) (name : Option (List Char)) :
    classify raw name =
      (recognize (bareText raw) (Text.asciiLower (name.getD []))).map
        (orOther (Text.strip raw)) := by
  unfold classify recognize
  dsimp only
  rw [← bareText]
  split
  · rfl
  · cases normalColor? (bareText raw) (Text.asciiLower (name.getD [])) with
    | error fault => rfl
    | ok color? =>
        cases color? with
        | some color => rfl
        | none => exact classifyNodes_eq _ _ _ _

/-! ## What can be recognized -/

/-- The ways of recognizing a text that is no colour. The rules are tried in order, and each stands
for the failure of those before it. -/
inductive Recognizes (candidate name : List Char) (nodes : List Node) :
    Except ColorFault (Option Classified) → Prop
  | gradientFault {fault : ColorFault} (h : isGradient nodes = .error fault) :
      Recognizes candidate name nodes (.error fault)
  | gradient (h : isGradient nodes = .ok true) :
      Recognizes candidate name nodes
        (.ok (some ⟨.gradient, String.ofList (Text.collapse candidate)⟩))
  | shadowFault {fault : ColorFault} (hgradient : isGradient nodes = .ok false)
      (h : isShadow nodes = .error fault) : Recognizes candidate name nodes (.error fault)
  | shadow (hgradient : isGradient nodes = .ok false) (h : isShadow nodes = .ok true) :
      Recognizes candidate name nodes
        (.ok (some ⟨.shadow, String.ofList (Text.collapse candidate)⟩))
  | families {families : List (List Char)} (hgradient : isGradient nodes = .ok false)
      (hshadow : isShadow nodes = .ok false) (h : families? nodes name = some families) :
      Recognizes candidate name nodes
        (.ok (some ⟨.fontFamily, String.ofList (Text.joinWith [',', ' '] families)⟩))
  | lengths (hgradient : isGradient nodes = .ok false) (hshadow : isShadow nodes = .ok false)
      (h : families? nodes name = none) :
      Recognizes candidate name nodes (.ok (lengths? nodes name))

theorem recognizeNodes_cases (candidate name : List Char) (nodes : List Node) :
    Recognizes candidate name nodes (recognizeNodes candidate name nodes) := by
  unfold recognizeNodes
  cases hgradient : isGradient nodes with
  | error fault => exact .gradientFault hgradient
  | ok gradient =>
      cases gradient with
      | true => exact .gradient hgradient
      | false =>
          cases hshadow : isShadow nodes with
          | error fault => exact .shadowFault hgradient hshadow
          | ok shadow =>
              cases shadow with
              | true => exact .shadow hgradient hshadow
              | false =>
                  cases hfamilies : families? nodes name with
                  | some families =>
                      have hcase : Recognizes candidate name nodes _ :=
                        .families hgradient hshadow hfamilies
                      exact hcase
                  | none =>
                      have hcase : Recognizes candidate name nodes _ :=
                        .lengths hgradient hshadow hfamilies
                      exact hcase

theorem isGradient_of_forall {nodes : List Node}
    (h : ∀ node ∈ nodes, isGradientNode node = .ok false) : isGradient nodes = .ok false := by
  induction nodes with
  | nil => rfl
  | cons node nodes ih =>
      rw [List.forall_mem_cons] at h
      rw [isGradient, h.1]
      exact ih h.2

theorem recognize_of_normalColor? {candidate name color : List Char} (hne : candidate ≠ [])
    (h : normalColor? candidate name = .ok (some color)) :
    recognize candidate name = .ok (some ⟨.color, String.ofList color⟩) := by
  rw [recognize, List.isEmpty_eq_false_iff.mpr hne, h]
  rfl

theorem kind_of_lengths? {nodes : List Node} {name : List Char} {c : Classified}
    (h : lengths? nodes name = some c) : c.kind = .fontSize ∨ c.kind = .spacing := by
  unfold lengths? at h
  dsimp only at h
  split at h
  · cases h
    dsimp only
    split
    · exact .inl rfl
    · exact .inr rfl
  · cases h

/-- A text that is no colour is not recognized as one. -/
theorem kind_of_recognizeNodes {candidate name : List Char} {nodes : List Node} {c : Classified}
    (h : recognizeNodes candidate name nodes = .ok (some c)) : c.kind ≠ .color := by
  have hcases := recognizeNodes_cases candidate name nodes
  rw [h] at hcases
  generalize hresult : Except.ok (some c) = result at hcases
  cases hcases with
  | gradientFault => cases hresult
  | shadowFault => cases hresult
  | gradient => cases hresult; exact nofun
  | shadow => cases hresult; exact nofun
  | families => cases hresult; exact nofun
  | lengths =>
      rcases kind_of_lengths? (Except.ok.inj hresult).symm with hkind | hkind <;> simp [hkind]

/-- What is recognized is a colour in its normal form, or of another kind by its component
values. -/
theorem recognize_cases {candidate name : List Char} {c : Classified}
    (h : recognize candidate name = .ok (some c)) :
    (∃ color, normalColor? candidate name = .ok (some color) ∧ c = ⟨.color, String.ofList color⟩) ∨
      (normalColor? candidate name = .ok none ∧
        recognizeNodes candidate name (Css.parse candidate) = .ok (some c)) := by
  unfold recognize at h
  split at h
  · cases h
  · cases hcolor : normalColor? candidate name with
    | error fault =>
        rw [hcolor] at h
        cases h
    | ok color? =>
        rw [hcolor] at h
        cases color? with
        | some color =>
            cases h
            exact .inl ⟨color, rfl, rfl⟩
        | none => exact .inr ⟨rfl, h⟩

/-- What is recognized as a colour has the normal form of one. -/
theorem normalColor?_of_recognize {candidate name : List Char} {c : Classified}
    (h : recognize candidate name = .ok (some c)) (hkind : c.kind = .color) :
    ∃ color, normalColor? candidate name = .ok (some color) ∧ c = ⟨.color, String.ofList color⟩ :=
  (recognize_cases h).resolve_right fun ⟨_, hnodes⟩ => kind_of_recognizeNodes hnodes hkind

/-- What is classified as no colour, but not as `other` either, is recognized by its component
values. -/
theorem recognizes_of_classify {raw : List Char} {name : Option (List Char)} {c : Classified}
    (h : classify raw name = .ok c) (hcolor : c.kind ≠ .color) (hother : c.kind ≠ .other) :
    normalColor? (bareText raw) (Text.asciiLower (name.getD [])) = .ok none ∧
      Recognizes (bareText raw) (Text.asciiLower (name.getD [])) (Css.parse (bareText raw))
        (.ok (some c)) := by
  rw [classify_eq] at h
  obtain ⟨found, hfound, heq⟩ := exists_of_map_eq_ok h
  cases found with
  | none =>
      cases heq
      exact absurd rfl hother
  | some d =>
      obtain rfl : d = c := heq
      rcases recognize_cases hfound with ⟨color, -, rfl⟩ | ⟨hnone, hnodes⟩
      · exact absurd rfl hcolor
      · rw [← hnodes]
        exact ⟨hnone, recognizeNodes_cases _ _ _⟩

end TokenCatalog.Value
