import TokenCatalog.Proofs.Catalog.Merge

/-!
# Extractions in another order

Merging sorts extractions by their source types and otherwise keeps them as they are given. So all
that counts is how extractions of one source type follow each other, also where a group in them is
of another type than they are. Main statements:

* `Rearranged`: extractions in another order that keeps those of one source type in theirs;
* `Rearranged.ofType_eq`: for each source type, the same extractions are found in the same order;
* `mergeChecked_rearranged`: a merge does not tell such orders apart.
-/

namespace TokenCatalog

/-- The same extractions in another order, in which those of one source type follow each other as
before. Each goes with its first place, so that equal extractions are told apart. -/
def Rearranged (xs ys : List Extraction) : Prop :=
  ∃ placed : List (Extraction × Nat), placed.map (·.1) = ys ∧ placed.Perm xs.zipIdx ∧
    placed.Pairwise fun a b => a.1.sourceType = b.1.sourceType → a.2 < b.2

theorem pairwise_zipIdx {γ : Type} (xs : List γ) (i : Nat) :
    (xs.zipIdx i).Pairwise fun a b => a.2 < b.2 := by
  have hplaces : ((xs.zipIdx i).map Prod.snd).Pairwise (· < ·) := by
    rw [List.zipIdx_map_snd]
    exact List.pairwise_lt_range'
  exact List.pairwise_map.mp hplaces

theorem ofType_map_fst (type : SourceType) (placed : List (Extraction × Nat)) :
    ofType type (placed.map (·.1)) =
      (placed.filter fun e => e.1.sourceType = type).map (·.1) := by
  rw [ofType, List.filter_map]
  rfl

section

variable {xs ys : List Extraction}

/-- Extractions of one source type are found at increasing places in both orders, and an increasing
list is told by its members. -/
theorem Rearranged.ofType_eq (h : Rearranged xs ys) (type : SourceType) :
    ofType type ys = ofType type xs := by
  obtain ⟨placed, rfl, hperm, hkept⟩ := h
  let here (e : Extraction × Nat) : Bool := e.1.sourceType = type
  have hincreasing : (placed.filter here).Pairwise fun a b => a.2 < b.2 := by
    refine List.pairwise_filter.mpr (hkept.imp ?_)
    intro a b hab ha hb
    have htypes : a.1.sourceType = b.1.sourceType :=
      (of_decide_eq_true ha).trans (of_decide_eq_true hb).symm
    exact hab htypes
  have hbefore : (xs.zipIdx.filter here).Pairwise fun a b => a.2 < b.2 :=
    (pairwise_zipIdx xs 0).filter here
  have hsame : placed.filter here = xs.zipIdx.filter here := by
    refine (hperm.filter here).eq_of_pairwise ?_ hincreasing hbefore
    intro a b _ _ hab hba
    exact absurd hba (Nat.lt_asymm hab)
  have hxs : ofType type xs = (xs.zipIdx.filter here).map (·.1) := by
    rw [← ofType_map_fst, List.zipIdx_map_fst]
  rw [hxs, ofType_map_fst, ← hsame]

/-- Merging looks at extractions type by type only. -/
theorem mergeChecked_congr (h : ∀ type, ofType type ys = ofType type xs) :
    mergeChecked ys = mergeChecked xs := by
  have horder : inOrder ys = inOrder xs := by
    rw [inOrder, inOrder]
    exact congrArg List.flatten (List.map_congr_left fun type _ => h type)
  have hfault : mergeFault? ys = mergeFault? xs := by
    simp only [mergeFault?, badName?, badKeyframes?, horder]
  have hmerge : merge ys = merge xs := by
    rw [merge, merge, horder]
  rw [mergeChecked, mergeChecked, hfault, hmerge]

/-- **Merging is independent of the order of source types.** Whatever the groups inside extractions
are, extractions can change places as long as those of one source type stay in their order: the
merge gives the same catalog, or fails in the same way. -/
theorem mergeChecked_rearranged (h : Rearranged xs ys) : mergeChecked ys = mergeChecked xs :=
  mergeChecked_congr h.ofType_eq

end

/-- Two extractions of one type and one of another, all with tokens of a third type and of one
name. -/
theorem mergeChecked_rearranged_foreignGroups :
    let named (value : String) : Token :=
      { name := .str "a", value := .str value, sourceValue := .null }
    let found (type : SourceType) (value : String) : Extraction :=
      ⟨{ tokenGroups := [⟨.svg, [named value]⟩] }, type⟩
    let xs := [found .scss "1", found .css "2", found .scss "3"]
    let ys := [found .css "2", found .scss "1", found .scss "3"]
    Rearranged xs ys ∧ mergeChecked ys = mergeChecked xs := by
  intro named found xs ys
  have h : Rearranged xs ys := by
    refine ⟨[(found .css "2", 1), (found .scss "1", 0), (found .scss "3", 2)], rfl, ?_, ?_⟩
    · exact List.Perm.swap _ _ _
    · simp [found]
  exact ⟨h, mergeChecked_rearranged h⟩

end TokenCatalog
