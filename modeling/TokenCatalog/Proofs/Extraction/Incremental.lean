import TokenCatalog.Proofs.Extraction.Extracted

/-!
# Merging in batches

Extractions are merged inside a file, for each parser and across parsers. What is merged at one
level stands for the extractions it was merged from at the next. Main statements:

* `Alike`: two lists of extractions that no merge can tell apart, also not among others
  (`Alike.append`);
* `merge_alike`: a list of extractions of one source type is like their merged catalog alone;
* `run_append_alike`: the runs over two lists of files are, type by type, like the run over both;
* `merge_incremental`: the result of a run does not depend on how its files are cut into batches.
-/

namespace TokenCatalog

/-! ## Keyframes in batches -/

def keyframesOf (extractions : List Extraction) : List Char :=
  ['\n', '\n'].intercalate (heldKeyframes extractions)

theorem heldKeyframes_append (xs ys : List Extraction) :
    heldKeyframes (xs ++ ys) = heldKeyframes xs ++ heldKeyframes ys := by
  simp [heldKeyframes]

theorem ne_nil_of_mem_heldKeyframes {extractions : List Extraction} {text : List Char}
    (h : text ∈ heldKeyframes extractions) : text ≠ [] := by
  simpa using (List.mem_filter.mp h).2

theorem keyframesOf_eq_nil_iff {extractions : List Extraction} :
    keyframesOf extractions = [] ↔ heldKeyframes extractions = [] := by
  rw [keyframesOf]
  cases h : heldKeyframes extractions with
  | nil => simp
  | cons text texts =>
      have hne : text ≠ [] := ne_nil_of_mem_heldKeyframes (by rw [h]; exact List.mem_cons_self)
      cases texts with
      | nil => simpa using hne
      | cons => simp [List.intercalate_cons_cons]

theorem keyframesOf_singleton (e : Extraction) : keyframesOf [e] = keyframesText e.keyframes := by
  by_cases h : keyframesText e.keyframes = [] <;> simp [keyframesOf, heldKeyframes, h]

/-- Texts with a separator between them can be joined in two parts. -/
theorem intercalate_append (separator : List Char) {xs ys : List (List Char)} (hxs : xs ≠ [])
    (hys : ys ≠ []) : separator.intercalate (xs ++ ys) =
      separator.intercalate xs ++ separator ++ separator.intercalate ys := by
  induction xs with
  | nil => exact absurd rfl hxs
  | cons x xs ih =>
      cases xs with
      | nil =>
          cases ys with
          | nil => exact absurd rfl hys
          | cons y ys => simp [List.intercalate_cons_cons]
      | cons x' xs =>
          have h := ih (List.cons_ne_nil x' xs)
          simp only [List.cons_append, List.intercalate_cons_cons] at h ⊢
          rw [h]
          simp

/-- The keyframes of a list are told by those of its parts. -/
theorem keyframesOf_append (xs ys : List Extraction) :
    keyframesOf (xs ++ ys) =
      if keyframesOf xs = [] then keyframesOf ys
      else if keyframesOf ys = [] then keyframesOf xs
      else keyframesOf xs ++ ['\n', '\n'] ++ keyframesOf ys := by
  simp only [keyframesOf_eq_nil_iff]
  by_cases hxs : heldKeyframes xs = []
  · rw [if_pos hxs, keyframesOf, heldKeyframes_append, hxs]
    rfl
  · rw [if_neg hxs]
    by_cases hys : heldKeyframes ys = []
    · rw [if_pos hys, keyframesOf, heldKeyframes_append, hys, List.append_nil]
      rfl
    · rw [if_neg hys, keyframesOf, heldKeyframes_append, intercalate_append _ hxs hys]
      rfl

/-! ## Extractions that cannot be told apart -/

/-- Two lists of extractions hold the same, as far as merging goes. -/
structure Alike (xs ys : List Extraction) : Prop where
  tokens : ∀ type, latest (tokensOf type xs) = latest (tokensOf type ys)
  hardCodedValues : xs.flatMap (·.hardCodedValues) = ys.flatMap (·.hardCodedValues)
  keyframes : keyframesOf xs = keyframesOf ys

section

variable {xs xs' ys ys' zs : List Extraction}

theorem Alike.refl (xs : List Extraction) : Alike xs xs :=
  ⟨fun _ => rfl, rfl, rfl⟩

theorem Alike.trans (h : Alike xs ys) (h' : Alike ys zs) : Alike xs zs :=
  ⟨fun type => (h.tokens type).trans (h'.tokens type),
    h.hardCodedValues.trans h'.hardCodedValues, h.keyframes.trans h'.keyframes⟩

theorem Alike.symm (h : Alike xs ys) : Alike ys xs :=
  ⟨fun type => (h.tokens type).symm, h.hardCodedValues.symm, h.keyframes.symm⟩

theorem tokensOf_append (type : SourceType) (xs ys : List Extraction) :
    tokensOf type (xs ++ ys) = tokensOf type xs ++ tokensOf type ys :=
  List.flatMap_append

/-- Lists that are alike stay so among others. -/
theorem Alike.append (hx : Alike xs xs') (hy : Alike ys ys') : Alike (xs ++ ys) (xs' ++ ys') where
  tokens type := by
    rw [tokensOf_append, tokensOf_append]
    exact latest_append_congr (hx.tokens type) (hy.tokens type)
  hardCodedValues := by
    rw [List.flatMap_append, List.flatMap_append, hx.hardCodedValues, hy.hardCodedValues]
  keyframes := by
    rw [keyframesOf_append, keyframesOf_append, hx.keyframes, hy.keyframes]

/-- A merge does not tell lists apart that are alike in canonical order. -/
theorem merge_eq_of_alike (hxs : Mergeable xs) (hys : Mergeable ys)
    (h : Alike (canonical xs) (canonical ys)) : merge xs = merge ys := by
  have hgroups : (groupOf · (canonical xs)) = (groupOf · (canonical ys)) := by
    funext type
    rw [groupOf, groupOf, h.tokens]
  have hkeyframes : joinKeyframes ((canonical xs).map (·.keyframes)) =
      joinKeyframes ((canonical ys).map (·.keyframes)) := by
    rw [joinKeyframes_eq fun e he => hxs.keyframes e (mem_canonical.mp he),
      joinKeyframes_eq fun e he => hys.keyframes e (mem_canonical.mp he)]
    exact congrArg (Json.str ∘ String.ofList) h.keyframes
  rw [merge, merge, inOrder_eq_canonical, inOrder_eq_canonical, h.hardCodedValues, hgroups,
    hkeyframes]

/-- Lists that are alike type by type are alike in canonical order. -/
theorem canonical_alike (h : ∀ type, Alike (ofType type xs) (ofType type ys)) :
    Alike (canonical xs) (canonical ys) := by
  have hall : ∀ types : List SourceType,
      Alike (types.flatMap (ofType · xs)) (types.flatMap (ofType · ys)) := by
    intro types
    induction types with
    | nil => exact Alike.refl []
    | cons type types ih => exact (h type).append ih
  rw [← inOrder_eq_canonical, ← inOrder_eq_canonical]
  exact hall SourceType.all

/-- The tokens of a type in a merged catalog, seen as an extraction. -/
theorem tokensOf_merge (h : Mergeable xs) (type t : SourceType) :
    tokensOf t [⟨merge xs, type⟩] = latest (tokensOf t (canonical xs)) := by
  have hmerges := merge_merges h
  -- groups are of distinct types, so at most one of them is of type `t`
  have hnodup : ((merge xs).tokenGroups.map (·.type)).Nodup :=
    hmerges.sorted.imp fun hlt heq => Nat.ne_of_lt hlt (congrArg SourceType.rank heq)
  have hone : ((merge xs).tokenGroups.map (·.type)).filter (· = t) =
      if t ∈ (merge xs).tokenGroups.map (·.type) then [t] else [] := by
    rw [List.filter_eq, hnodup.count]
    split <;> rfl
  rw [tokensOf, List.flatMap_singleton, hmerges.tokenGroups, List.filter_map]
  show List.flatMap _ (List.map _ (List.filter (· = t) _)) = _
  rw [hone]
  by_cases hmem : t ∈ (merge xs).tokenGroups.map (·.type)
  · rw [if_pos hmem, List.map_singleton, List.flatMap_singleton]
  · have hnone : tokensOf t (canonical xs) = [] := not_not.mp (mt (hmerges.types t).mpr hmem)
    rw [if_neg hmem, hnone]
    rfl

/-- Extractions of one type are in canonical order. -/
theorem canonical_eq_self {type : SourceType} (h : ∀ e ∈ xs, e.sourceType = type) :
    canonical xs = xs := by
  apply List.mergeSort_of_pairwise
  apply List.pairwise_of_forall_mem_list
  intro a ha b hb
  rw [Extraction.precedes, h a ha, h b hb]
  exact decide_eq_true (Nat.le_refl _)

/-- **A merged catalog stands for the extractions it was merged from**, if they are of one type. -/
theorem merge_alike {type : SourceType} (h : Mergeable xs)
    (htype : ∀ e ∈ xs, e.sourceType = type) : Alike [⟨merge xs, type⟩] xs := by
  have hmerges := merge_merges h
  refine ⟨fun t => ?_, ?_, ?_⟩
  · rw [tokensOf_merge h, latest_latest, canonical_eq_self htype]
  · rw [List.flatMap_singleton, hmerges.hardCodedValues, canonical_eq_self htype]
  · rw [keyframesOf_singleton, hmerges.keyframes, canonical_eq_self htype]
    exact String.toList_ofList

end

/-! ## Batches of one parser -/

namespace Parser

theorem extracts_extracted [Image.Decoder] (p : Parser) (files : List SourceFile) :
    ∀ e ∈ files.map p.extract, e.toCatalog.Extracted ∧ e.sourceType = p.sourceType := by
  intro e he
  obtain ⟨file, -, rfl⟩ := List.mem_map.mp he
  exact p.extract_extracted file

theorem extracts_mergeable [Image.Decoder] (p : Parser) (files : List SourceFile) :
    Mergeable (files.map p.extract) :=
  mergeable_of_extracted fun e he => (p.extracts_extracted files e he).1

/-- What a parser makes of files stands for what it extracts from each of them. -/
theorem combine_alike [Image.Decoder] (p : Parser) (files : List SourceFile) :
    Alike [p.combine (files.map p.extract)] (files.map p.extract) :=
  merge_alike (p.extracts_mergeable files) fun e he => (p.extracts_extracted files e he).2

/-- What a parser has combined of batches can be combined again. -/
theorem combine_batches_mergeable [Image.Decoder] (p : Parser) (batches : List (List SourceFile)) :
    Mergeable (batches.map fun batch => p.combine (batch.map p.extract)) := by
  refine mergeable_of_extracted fun e he => ?_
  obtain ⟨batch, -, rfl⟩ := List.mem_map.mp he
  exact merge_extracted fun e he => (p.extracts_extracted batch e he).1

theorem combine_batches_alike [Image.Decoder] (p : Parser) (batches : List (List SourceFile)) :
    Alike (batches.map fun batch => p.combine (batch.map p.extract))
      (batches.flatten.map p.extract) := by
  induction batches with
  | nil => exact Alike.refl []
  | cons batch batches ih =>
      rw [List.flatten_cons, List.map_append]
      exact (p.combine_alike batch).append ih

end Parser

/-! ## Batches of a run -/

theorem ofType_append (type : SourceType) (xs ys : List Extraction) :
    ofType type (xs ++ ys) = ofType type xs ++ ofType type ys :=
  List.filter_append xs ys

theorem ofType_cons (type : SourceType) (e : Extraction) (xs : List Extraction) :
    ofType type (e :: xs) = (if e.sourceType = type then [e] else []) ++ ofType type xs := by
  by_cases h : e.sourceType = type <;> simp [ofType, h]

theorem Registry.sourceType_of_mem_run [Image.Decoder] {registry : Registry}
    {files : List SourceFile}
    {e : Extraction} (h : e ∈ registry.run files) :
    e.sourceType ∈ registry.map Parser.sourceType := by
  induction registry generalizing files with
  | nil => exact absurd h List.not_mem_nil
  | cons p ps ih =>
      rw [run_cons, List.mem_cons] at h
      rcases h with rfl | h
      · exact List.mem_cons_self
      · exact List.mem_cons_of_mem _ (ih h)

theorem Registry.ofType_run_eq_nil [Image.Decoder] {registry : Registry} {type : SourceType}
    (h : type ∉ registry.map Parser.sourceType) (files : List SourceFile) :
    ofType type (registry.run files) = [] := by
  refine List.filter_eq_nil_iff.mpr fun e he => ?_
  have hmem := sourceType_of_mem_run he
  intro htype
  rw [of_decide_eq_true htype] at hmem
  exact h hmem

/-- **Runs over two lists of files are like the run over both**, as far as each source type goes, if
no two parsers are for the same type. -/
theorem Registry.run_append_alike [Image.Decoder] {registry : Registry}
    (hnodup : (registry.map Parser.sourceType).Nodup) (type : SourceType) (a b : List SourceFile) :
    Alike (ofType type (registry.run a ++ registry.run b))
      (ofType type (registry.run (a ++ b))) := by
  rw [ofType_append]
  induction registry generalizing a b with
  | nil => exact Alike.refl []
  | cons p ps ih =>
      rw [List.map_cons, List.nodup_cons] at hnodup
      rw [run_cons, run_cons, run_cons, ofType_cons, ofType_cons, ofType_cons, List.filter_append]
      by_cases htype : p.sourceType = type
      -- only the first parser is for this type, and it takes its own files from both lists
      · subst htype
        have hown : p.own (a ++ b) = p.own a ++ p.own b := List.filter_append a b
        have hthis : ∀ files, (p.parse files).sourceType = p.sourceType := fun _ => rfl
        rw [ofType_run_eq_nil hnodup.1, ofType_run_eq_nil hnodup.1, ofType_run_eq_nil hnodup.1,
          if_pos (hthis a), if_pos (hthis b), if_pos (hthis (a ++ b)), List.append_nil,
          List.append_nil, List.append_nil]
        refine ((p.combine_alike _).append (p.combine_alike _)).trans ?_
        rw [← List.map_append, ← hown]
        exact (p.combine_alike _).symm
      · have hother : ∀ files, (p.parse files).sourceType ≠ type := fun _ => htype
        rw [if_neg (hother a), if_neg (hother b), if_neg (hother (a ++ b))]
        exact ih hnodup.2 _ _

/-- **Extraction is incremental.** Runs over two lists of files merge into the catalog of both, and
a parser combines what it has combined of batches of files into what it would have combined of all.
None of these merges fails. -/
theorem merge_incremental [Image.Decoder] :
    (∀ (imageExtensions : List String) (a b : List SourceFile),
      let registry := Registry.create imageExtensions
      mergeChecked (registry.run (a ++ b)) = .ok (registry.catalog (a ++ b)) ∧
        mergeChecked (registry.run a ++ registry.run b) = .ok (registry.catalog (a ++ b))) ∧
    ∀ (p : Parser) (batches : List (List SourceFile)),
      let single := batches.flatten.map p.extract
      let combined := batches.map fun batch => p.combine (batch.map p.extract)
      mergeFault? single = none ∧ mergeFault? combined = none ∧
        p.combine combined = p.combine single := by
  constructor
  · intro imageExtensions a b registry
    have hnodup : (registry.map Parser.sourceType).Nodup := by
      show SourceType.all.Nodup
      decide
    have hboth := mergeable_of_extracted (registry.run_extracted (a ++ b))
    have hruns := mergeable_of_extracted
      (List.forall_mem_append.mpr ⟨registry.run_extracted a, registry.run_extracted b⟩)
    have hmerge : merge (registry.run a ++ registry.run b) = registry.catalog (a ++ b) :=
      merge_eq_of_alike hruns hboth
        (canonical_alike fun type => Registry.run_append_alike hnodup type a b)
    refine ⟨mergeChecked_of_mergeable hboth, ?_⟩
    rw [mergeChecked_of_mergeable hruns, hmerge]
  · intro p batches single combined
    have hsingle := p.extracts_mergeable batches.flatten
    have hcombined := p.combine_batches_mergeable batches
    have htype : ∀ e ∈ combined, e.sourceType = p.sourceType := by
      intro e he
      obtain ⟨batch, -, rfl⟩ := List.mem_map.mp he
      rfl
    have halike : Alike (canonical combined) (canonical single) := by
      rw [canonical_eq_self htype,
        canonical_eq_self fun e he => (p.extracts_extracted batches.flatten e he).2]
      exact p.combine_batches_alike batches
    exact ⟨mergeFault?_eq_none_iff.mpr hsingle, mergeFault?_eq_none_iff.mpr hcombined,
      congrArg (Extraction.mk · p.sourceType) (merge_eq_of_alike hcombined hsingle halike)⟩

end TokenCatalog
