import Mathlib.Data.List.Sort
import TokenCatalog.Catalog.Document
import TokenCatalog.Proofs.Catalog.Latest

/-!
# What merging gives

A catalog is described without saying how it is computed: extractions are sorted by source type, and
each part of the catalog is read off the sorted list. Main statements:

* `inOrder_eq_canonical`: taking the extractions type by type is the stable sort;
* `Catalog.Merges`: the description of the merged catalog, and `Catalog.Merges.unique`;
* `mergeChecked_eq_ok_iff`: merging succeeds exactly on extractions with proper names and keyframes,
  and gives the one catalog of the description.
-/

namespace TokenCatalog

/-! ## Canonical order -/

def Extraction.precedes (a b : Extraction) : Bool :=
  a.sourceType.rank ≤ b.sourceType.rank

/-- Extractions sorted by source type, those of one type as they were given. -/
def canonical (extractions : List Extraction) : List Extraction :=
  extractions.mergeSort Extraction.precedes

theorem SourceType.rank_injective : Function.Injective SourceType.rank := by
  intro a b
  cases a <;> cases b <;> decide

theorem SourceType.mem_all (type : SourceType) : type ∈ SourceType.all := by
  cases type <;> decide

theorem SourceType.all_increasing : SourceType.all.Pairwise (·.rank < ·.rank) := by
  decide

theorem Extraction.precedes_trans (a b c : Extraction) :
    a.precedes b → b.precedes c → a.precedes c := by
  simp only [precedes, decide_eq_true_eq]
  exact Nat.le_trans

theorem Extraction.precedes_total (a b : Extraction) : (a.precedes b || b.precedes a) = true := by
  simp only [precedes, Bool.or_eq_true, decide_eq_true_eq]
  exact Nat.le_total _ _

theorem canonical_sorted (extractions : List Extraction) :
    (canonical extractions).Pairwise (Extraction.precedes · ·) :=
  List.pairwise_mergeSort Extraction.precedes_trans Extraction.precedes_total extractions

theorem mem_canonical {extractions : List Extraction} {e : Extraction} :
    e ∈ canonical extractions ↔ e ∈ extractions :=
  List.mem_mergeSort

theorem sourceType_of_mem_ofType {type : SourceType} {extractions : List Extraction}
    {e : Extraction} (h : e ∈ ofType type extractions) : e.sourceType = type := by
  simpa using (List.mem_filter.mp h).2

theorem ofType_ofType (type : SourceType) (extractions : List Extraction) :
    ofType type (ofType type extractions) = ofType type extractions := by
  simp [ofType]

/-- Sorting is stable: it does not reorder the extractions of one type. -/
theorem ofType_canonical (type : SourceType) (extractions : List Extraction) :
    ofType type (canonical extractions) = ofType type extractions := by
  have hsorted : (ofType type extractions).Pairwise (Extraction.precedes · ·) := by
    apply List.pairwise_of_forall_mem_list
    intro a ha b hb
    rw [Extraction.precedes, sourceType_of_mem_ofType ha, sourceType_of_mem_ofType hb]
    exact decide_eq_true (Nat.le_refl _)
  -- a sorted part of the list stays a part of the sorted list, and no more of the type is there
  have hsub : (ofType type extractions).Sublist (canonical extractions) :=
    List.sublist_mergeSort Extraction.precedes_trans Extraction.precedes_total hsorted
      List.filter_sublist
  have hsub' := hsub.filter (·.sourceType = type)
  rw [show (ofType type extractions).filter (·.sourceType = type) = ofType type extractions from
    ofType_ofType type extractions] at hsub'
  have hperm : (ofType type (canonical extractions)).Perm (ofType type extractions) :=
    (List.mergeSort_perm extractions Extraction.precedes).filter _
  exact (hsub'.eq_of_length hperm.length_eq.symm).symm

/-- Of a sorted list, the extractions of the first type come first. -/
theorem ofType_append_of_sorted {type : SourceType} {extractions : List Extraction}
    (hsorted : extractions.Pairwise (Extraction.precedes · ·))
    (hleast : ∀ e ∈ extractions, type.rank ≤ e.sourceType.rank) :
    ofType type extractions ++ extractions.filter (·.sourceType ≠ type) = extractions := by
  induction extractions with
  | nil => rfl
  | cons e rest ih =>
      rw [List.pairwise_cons] at hsorted
      rw [List.forall_mem_cons] at hleast
      by_cases he : e.sourceType = type
      · have hrest := ih hsorted.2 hleast.2
        simpa [ofType, he] using hrest
      -- the first one is of a later type, so none after it is of this type
      · have hrest : ∀ e' ∈ rest, e'.sourceType ≠ type := by
          rintro e' he' rfl
          have hle := of_decide_eq_true (hsorted.1 e' he')
          exact he (SourceType.rank_injective (Nat.le_antisymm hle hleast.1))
        have hnone : ofType type (e :: rest) = [] := by
          simpa [ofType, he] using hrest
        rw [hnone, List.nil_append, List.filter_eq_self]
        simpa [he] using hrest

theorem flatMap_ofType_of_sorted {types : List SourceType}
    (htypes : types.Pairwise (·.rank < ·.rank)) {extractions : List Extraction}
    (hsorted : extractions.Pairwise (Extraction.precedes · ·))
    (hmem : ∀ e ∈ extractions, e.sourceType ∈ types) :
    types.flatMap (ofType · extractions) = extractions := by
  induction types generalizing extractions with
  | nil => exact (List.eq_nil_iff_forall_not_mem.mpr fun e he => nomatch hmem e he).symm
  | cons type types ih =>
      -- the first type is the least, so its extractions come first, and the rest is sorted again
      rw [List.pairwise_cons] at htypes
      have hleast : ∀ e ∈ extractions, type.rank ≤ e.sourceType.rank := fun e he =>
        match List.mem_cons.mp (hmem e he) with
        | .inl h => Nat.le_of_eq (congrArg SourceType.rank h.symm)
        | .inr h => Nat.le_of_lt (htypes.1 _ h)
      have hothers : ∀ other ∈ types, ofType other extractions =
          ofType other (extractions.filter (·.sourceType ≠ type)) := by
        intro other hother
        rw [ofType, ofType, List.filter_filter]
        apply List.filter_congr
        intro e _
        by_cases he : e.sourceType = other
        · have hne : other ≠ type := by
            rintro rfl
            exact Nat.lt_irrefl _ (htypes.1 _ hother)
          simp [he, hne]
        · simp [he]
      have hrest := ih htypes.2 (hsorted.filter (·.sourceType ≠ type)) fun e he => by
          obtain ⟨he, hne⟩ := List.mem_filter.mp he
          exact (List.mem_cons.mp (hmem e he)).resolve_left (by simpa using hne)
      calc (type :: types).flatMap (ofType · extractions)
        _ = ofType type extractions ++ types.flatMap (ofType · extractions) := List.flatMap_cons
        _ = ofType type extractions ++ extractions.filter (·.sourceType ≠ type) := by
            rw [← hrest]
            exact congrArg (_ ++ List.flatten ·) (List.map_congr_left hothers)
        _ = extractions := ofType_append_of_sorted hsorted hleast

/-- **Taking extractions type by type is the stable sort by type.** -/
theorem inOrder_eq_canonical (extractions : List Extraction) :
    inOrder extractions = canonical extractions := by
  have h := flatMap_ofType_of_sorted SourceType.all_increasing (canonical_sorted extractions)
    fun e _ => e.sourceType.mem_all
  rw [← h, inOrder]
  exact congrArg List.flatten (List.map_congr_left fun type _ => (ofType_canonical type _).symm)

/-! ## The description -/

def heldKeyframes (extractions : List Extraction) : List (List Char) :=
  ((extractions.map (·.keyframes)).map keyframesText).filter (· ≠ [])

/-- Whether every token has a name that can be told from others, and keyframes, where there are any,
are text. What parsers extract always is so. -/
structure Mergeable (extractions : List Extraction) : Prop where
  names : ∀ e ∈ extractions, ∀ g ∈ e.tokenGroups, ∀ t ∈ g.tokens, t.name.key?.isSome
  keyframes : ∀ e ∈ extractions, e.keyframes.truthy → e.keyframes.isText

/-- A catalog is the merged catalog of extractions. The tokens of a type are those of all groups of
that type, whatever the source types of their extractions, in canonical order. -/
structure Catalog.Merges (c : Catalog) (extractions : List Extraction) : Prop where
  /-- There is a group of a type exactly if there are tokens of that type. -/
  types : ∀ type, type ∈ c.tokenGroups.map (·.type) ↔ tokensOf type (canonical extractions) ≠ []
  increasing : c.tokenGroups.Pairwise (·.type.rank < ·.type.rank)
  /-- Names are those of the type, each at the place where it first appears. -/
  names : ∀ g ∈ c.tokenGroups, g.tokens.map Token.identity =
    ((tokensOf g.type (canonical extractions)).map Token.identity).eraseDups
  distinct : ∀ g ∈ c.tokenGroups, (g.tokens.map Token.identity).Nodup
  /-- After the token that is taken, none of its name follows. -/
  last : ∀ g ∈ c.tokenGroups, ∀ t ∈ g.tokens, ∃ before after,
    tokensOf g.type (canonical extractions) = before ++ t :: after ∧
      t.identity ∉ after.map Token.identity
  hardCodedValues : c.hardCodedValues = (canonical extractions).flatMap (·.hardCodedValues)
  keyframes : c.keyframes =
    .str (String.ofList (['\n', '\n'].intercalate (heldKeyframes (canonical extractions))))

theorem groupOf_eq (type : SourceType) (extractions : List Extraction) :
    groupOf type extractions =
      if tokensOf type extractions = [] then none
      else some ⟨type, latest (tokensOf type extractions)⟩ := by
  rw [groupOf]
  cases h : latest (tokensOf type extractions) with
  | nil => rw [if_pos (latest_eq_nil_iff.mp h)]
  | cons t rest =>
      rw [if_neg]
      intro hnil
      rw [latest_eq_nil_iff.mpr hnil] at h
      cases h

theorem mem_merge_tokenGroups {extractions : List Extraction} {g : TokenGroup} :
    g ∈ (merge extractions).tokenGroups ↔
      tokensOf g.type (canonical extractions) ≠ [] ∧
        g.tokens = latest (tokensOf g.type (canonical extractions)) := by
  rw [merge, inOrder_eq_canonical, List.mem_filterMap]
  constructor
  · rintro ⟨type, -, h⟩
    rw [groupOf_eq] at h
    split at h
    · cases h
    · next hne =>
        cases h
        exact ⟨hne, rfl⟩
  · rintro ⟨hne, htokens⟩
    refine ⟨g.type, g.type.mem_all, ?_⟩
    rw [groupOf_eq, if_neg hne, ← htokens]

theorem merge_increasing (extractions : List Extraction) :
    (merge extractions).tokenGroups.Pairwise (·.type.rank < ·.type.rank) := by
  apply List.Pairwise.filterMap (groupOf · (inOrder extractions)) _ SourceType.all_increasing
  intro type type' hlt g hg g' hg'
  rw [groupOf_eq] at hg hg'
  split at hg <;> cases hg
  split at hg' <;> cases hg'
  exact hlt

/-- Text is left out exactly if it is empty, and of what is no text only that is left out which
counts as false. -/
theorem truthy_eq_of_isText {value : Json} (h : value.truthy → value.isText) :
    value.truthy = decide (keyframesText value ≠ []) := by
  cases value with
  | str s => simp [Json.truthy, keyframesText, bne, Bool.beq_eq_decide_eq]
  | _ => simpa [Json.isText, keyframesText] using h

theorem joinKeyframes_eq {extractions : List Extraction}
    (h : ∀ e ∈ extractions, e.keyframes.truthy → e.keyframes.isText) :
    joinKeyframes (extractions.map (·.keyframes)) =
      .str (String.ofList (['\n', '\n'].intercalate (heldKeyframes extractions))) := by
  have hheld : ((extractions.map (·.keyframes)).filter Json.truthy).map keyframesText =
      heldKeyframes extractions := by
    rw [heldKeyframes, List.filter_map (f := keyframesText)]
    refine congrArg (List.map keyframesText) (List.filter_congr fun value hvalue => ?_)
    obtain ⟨e, he, rfl⟩ := List.mem_map.mp hvalue
    exact truthy_eq_of_isText (h e he)
  rw [joinKeyframes, hheld]
  rfl

theorem merge_merges {extractions : List Extraction} (h : Mergeable extractions) :
    (merge extractions).Merges extractions where
  types type := by
    constructor
    · intro htype
      obtain ⟨g, hg, rfl⟩ := List.mem_map.mp htype
      exact (mem_merge_tokenGroups.mp hg).1
    · intro hne
      let g : TokenGroup := ⟨type, latest (tokensOf type (canonical extractions))⟩
      exact List.mem_map.mpr ⟨g, mem_merge_tokenGroups.mpr ⟨hne, rfl⟩, rfl⟩
  increasing := merge_increasing extractions
  names g hg := (eq_latest_iff.mp (mem_merge_tokenGroups.mp hg).2).1
  distinct g hg := by
    rw [(mem_merge_tokenGroups.mp hg).2]
    exact latest_nodup _
  last g hg t ht := by
    have hlast := (eq_latest_iff.mp (mem_merge_tokenGroups.mp hg).2).2 t ht
    exact (lastBy_eq_some_iff.mp hlast).2
  hardCodedValues := by
    rw [merge, inOrder_eq_canonical]
  keyframes := by
    rw [merge, inOrder_eq_canonical]
    exact joinKeyframes_eq fun e he => h.keyframes e (mem_canonical.mp he)

/-! ## One catalog -/

section

variable {c d : Catalog} {extractions : List Extraction}

theorem Catalog.Merges.tokens (h : c.Merges extractions) {g : TokenGroup}
    (hg : g ∈ c.tokenGroups) : g.tokens = latest (tokensOf g.type (canonical extractions)) :=
  eq_latest_iff.mpr ⟨h.names g hg, fun t ht => lastBy_eq_some_iff.mpr ⟨rfl, h.last g hg t ht⟩⟩

theorem Catalog.Merges.tokenGroups (h : c.Merges extractions) :
    c.tokenGroups = (c.tokenGroups.map (·.type)).map fun type =>
      ⟨type, latest (tokensOf type (canonical extractions))⟩ := by
  rw [List.map_map]
  refine Eq.trans (List.map_id _).symm (List.map_congr_left fun g hg => ?_)
  rw [Function.comp, ← h.tokens hg, id]

theorem Catalog.Merges.sorted (h : c.Merges extractions) :
    (c.tokenGroups.map (·.type)).Pairwise fun a b => a.rank < b.rank :=
  List.pairwise_map.mpr h.increasing

/-- The description leaves no choice. -/
theorem Catalog.Merges.unique (hc : c.Merges extractions) (hd : d.Merges extractions) : c = d := by
  have htypes : c.tokenGroups.map (·.type) = d.tokenGroups.map (·.type) := by
    have hirrefl : Std.Irrefl fun a b : SourceType => a.rank < b.rank :=
      ⟨fun a => Nat.lt_irrefl a.rank⟩
    have hantisymm : Std.Antisymm fun a b : SourceType => a.rank < b.rank :=
      ⟨fun _ _ hab hba => absurd hba (Nat.lt_asymm hab)⟩
    exact hc.sorted.eq_of_mem_iff hd.sorted fun type => (hc.types type).trans (hd.types type).symm
  have hgroups : c.tokenGroups = d.tokenGroups := by
    rw [hc.tokenGroups, htypes, ← hd.tokenGroups]
  have hvalues := hc.hardCodedValues.trans hd.hardCodedValues.symm
  have hkeyframes := hc.keyframes.trans hd.keyframes.symm
  cases c
  cases d
  congr

end

/-! ## When merging succeeds -/

theorem badName?_eq_none_iff {extractions : List Extraction} :
    badName? extractions = none ↔
      ∀ e ∈ extractions, ∀ g ∈ e.tokenGroups, ∀ t ∈ g.tokens, t.name.key?.isSome := by
  simp [badName?, inOrder_eq_canonical, mem_canonical, TokenGroup.names, Option.isSome_iff_ne_none]

/-- Numbering values does not change which of them are found. -/
theorem find?_zipIdx_eq_none_iff {γ : Type} (p : γ → Bool) (xs : List γ) :
    xs.zipIdx.find? (fun x => p x.1) = none ↔ ∀ x ∈ xs, p x = false := by
  rw [List.find?_eq_none]
  constructor
  · intro h x hx
    obtain ⟨i, hi, rfl⟩ := List.mem_iff_getElem.mp hx
    simpa using h (xs[i], i) (List.mk_mem_zipIdx_iff_getElem?.mpr (List.getElem?_eq_getElem hi))
  · rintro h ⟨x, i⟩ hxi
    simpa using h x (List.fst_mem_of_mem_zipIdx hxi)

theorem badKeyframes?_eq_none_iff {extractions : List Extraction} :
    badKeyframes? extractions = none ↔
      ∀ e ∈ extractions, e.keyframes.truthy → e.keyframes.isText := by
  rw [badKeyframes?, inOrder_eq_canonical, Option.map_eq_none_iff,
    find?_zipIdx_eq_none_iff (!Json.isText ·)]
  simp [mem_canonical]

theorem mergeFault?_eq_none_iff {extractions : List Extraction} :
    mergeFault? extractions = none ↔ Mergeable extractions := by
  rw [mergeFault?]
  cases hname : badName? extractions with
  | some value =>
      refine iff_of_false (by simp) fun h => ?_
      rw [badName?_eq_none_iff.mpr h.names] at hname
      cases hname
  | none =>
      rw [Option.map_eq_none_iff, badKeyframes?_eq_none_iff]
      exact ⟨fun h => ⟨badName?_eq_none_iff.mp hname, h⟩, Mergeable.keyframes⟩

theorem mergeChecked_of_mergeable {extractions : List Extraction} (h : Mergeable extractions) :
    mergeChecked extractions = .ok (merge extractions) := by
  rw [mergeChecked, mergeFault?_eq_none_iff.mpr h]

theorem mergeable_of_mergeChecked {extractions : List Extraction} {c : Catalog}
    (h : mergeChecked extractions = .ok c) : Mergeable extractions := by
  rw [mergeChecked] at h
  split at h
  · cases h
  · next hfault => exact mergeFault?_eq_none_iff.mp hfault

/-- **Merging meets its description.** It succeeds exactly on extractions that can be merged, and
gives the one catalog that the description allows. -/
theorem mergeChecked_eq_ok_iff (extractions : List Extraction) :
    ((∃ c, mergeChecked extractions = .ok c) ↔ Mergeable extractions) ∧
      ∀ c, mergeChecked extractions = .ok c ↔ Mergeable extractions ∧ c.Merges extractions := by
  refine ⟨⟨fun ⟨c, h⟩ => mergeable_of_mergeChecked h,
    fun h => ⟨_, mergeChecked_of_mergeable h⟩⟩, fun c => ⟨fun hc => ?_, fun ⟨h, hc⟩ => ?_⟩⟩
  · have h := mergeable_of_mergeChecked hc
    rw [mergeChecked_of_mergeable h] at hc
    cases hc
    exact ⟨h, merge_merges h⟩
  · rw [hc.unique (merge_merges h), mergeChecked_of_mergeable h]

end TokenCatalog
