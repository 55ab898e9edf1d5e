import TokenCatalog.Extraction.SourceDocument
import TokenCatalog.Proofs.Catalog.Foreseen
import TokenCatalog.Proofs.Catalog.Merge

/-!
# Source documents of any shape

A source document may be any object. Main statements:

* `SourceDocument.catalog_foreseen`: it has a catalog, or there is a mistake in it;
* `SourceDocument.catalog_congr`: only the objects under the names of the source types count.
-/

namespace TokenCatalog.SourceDocument

/-- What a document keeps for a source type: an object, or nothing. -/
def kept? (type : SourceType) (document : Json) : Option Json :=
  (document.get? (key type)).filter isObject

theorem isObject_iff {value : Json} : isObject value = true ↔ value.HasMembers := by
  cases value <;> simp [isObject, Json.HasMembers]

theorem hasMembers_of_kept? {type : SourceType} {document value : Json}
    (h : kept? type document = some value) : value.HasMembers :=
  isObject_iff.mp (Option.filter_eq_some_iff.mp h).2

/-- The extraction that is kept for a source type, if there is one. -/
def extractionOf (document : Json) (type : SourceType) : Except ShapeFault (List Extraction) :=
  match kept? type document with
  | some value => (Extraction.ofJson (some type) value).map fun e => [e]
  | none => .ok []

/-- What is no object counts as absent. -/
theorem extractions_eq {document : Json} (h : document.HasMembers) :
    extractions document = (SourceType.all.mapM (extractionOf document)).map List.flatten := by
  have hone : ∀ type, (do
      let value ← document.getOr (key type) .null
      if isObject value then .ok [← Extraction.ofJson (some type) value] else .ok []) =
        extractionOf document type := by
    intro type
    rw [getOr_bind h, extractionOf, kept?]
    cases document.get? (key type) with
    | none => rfl
    | some value =>
        rw [Option.getD_some, Option.filter_some]
        cases isObject value with
        | false => rfl
        | true =>
            simp only [if_true]
            cases Extraction.ofJson (some type) value <;> rfl
  unfold extractions
  simp only [hone]
  cases SourceType.all.mapM (extractionOf document) <;> rfl

theorem extractionOf_foreseen (document : Json) (type : SourceType) :
    Foreseen (extractionOf document type) := by
  unfold extractionOf
  split
  · next value hvalue =>
      have hread := Extraction.ofJson_foreseen type (hasMembers_of_kept? hvalue)
      exact hread.map _
  · exact .ok []

/-- **An object has a catalog, or there is a mistake in it.** -/
theorem catalog_foreseen {document : Json} (h : document.HasMembers) :
    Foreseen (catalog document) := by
  have hextractions : Foreseen (extractions document) := by
    rw [extractions_eq h]
    have hkept : Foreseen (SourceType.all.mapM (extractionOf document)) :=
      .mapM fun type _ => extractionOf_foreseen document type
    exact hkept.map List.flatten
  exact hextractions.bind fun found _ => mergeChecked_foreseen found

/-- **Only the objects under the names of the source types count.** -/
theorem catalog_congr {a b : Json} (ha : a.HasMembers) (hb : b.HasMembers)
    (h : ∀ type, kept? type a = kept? type b) : catalog a = catalog b := by
  have hone : extractionOf a = extractionOf b := by
    funext type
    rw [extractionOf, extractionOf, h]
  rw [catalog, catalog, extractions_eq ha, extractions_eq hb, hone]

/-- Keyframes of a catalog that was merged are text. -/
theorem isText_of_catalog {document : Json} {c : Catalog} (h : catalog document = .ok c) :
    c.keyframes.isText := by
  obtain ⟨found, -, hmerged⟩ := exists_of_bind_eq_ok h
  rw [((mergeChecked_eq_ok_iff found).2 c |>.mp hmerged).2.keyframes]
  rfl

end TokenCatalog.SourceDocument
