import TokenCatalog.Proofs.Catalog.Document
import TokenCatalog.Proofs.Catalog.Merge
import TokenCatalog.Proofs.Except
import TokenCatalog.Proofs.Extraction.Registered

/-!
# What parsers extract

A catalog may hold any value in its fields, since documents may; what parsers put there are texts,
numbers and truth values. Main statements:

* `Parser.extract_extracted`: so it is for every file of every parser, whether or not the file can
  be parsed;
* `merge_extracted`: merging adds nothing of its own;
* `Registry.run_extracted` and `mergeable_of_extracted`: what a run extracts can be merged.
-/

namespace TokenCatalog

/-- A token as parsers make it: named by text, and all of it survives being written as text. -/
structure Token.Extracted (t : Token) : Prop extends t.Plain where
  named : t.name.isText

structure Catalog.Extracted (c : Catalog) : Prop where
  tokens : ∀ g ∈ c.tokenGroups, ∀ t ∈ g.tokens, t.Extracted
  hardCodedValues : ∀ h ∈ c.hardCodedValues, h.Plain
  keyframes : c.keyframes.isText

theorem Json.plain_of_isText {value : Json} (h : value.isText) : value.Plain := by
  cases value with
  | str s => exact .str s
  | _ => cases h

theorem Catalog.Extracted.plain {c : Catalog} (h : c.Extracted) : c.Plain where
  tokens g hg t ht := (h.tokens g hg t ht).toPlain
  hardCodedValues := h.hardCodedValues
  keyframes := Json.plain_of_isText h.keyframes

theorem Extraction.empty_extracted (type : SourceType) :
    (Extraction.empty type).toCatalog.Extracted where
  tokens _ hg := absurd hg List.not_mem_nil
  hardCodedValues _ hh := absurd hh List.not_mem_nil
  keyframes := rfl

/-- A catalog of one group, or of none. -/
theorem Catalog.extracted_of_tokens {type : SourceType} {tokens : List Token}
    (h : ∀ t ∈ tokens, t.Extracted) :
    ({ tokenGroups := [⟨type, tokens⟩] } : Catalog).Extracted where
  tokens g hg t ht := by
    rw [List.mem_singleton.mp hg] at ht
    exact h t ht
  hardCodedValues _ hh := absurd hh List.not_mem_nil
  keyframes := rfl

theorem latest_extracted {tokens : List Token} (h : ∀ t ∈ tokens, t.Extracted) :
    ∀ t ∈ latest tokens, t.Extracted := by
  intro t ht
  obtain ⟨-, before, after, hsplit, -⟩ := lastBy_eq_some_iff.mp (lastBy_of_mem_latest ht)
  exact h t (by simp [hsplit])

/-! ## Stylesheets -/

namespace Stylesheet

theorem optional_plain (s : Option String) : (optional s).Plain := by
  cases s with
  | none => exact .null
  | some s => exact .str s

theorem tokenOf_extracted {place : Place} {scope : Scope} {d : Declaration} {t : Token}
    (h : tokenOf place scope d = .ok t) : t.Extracted := by
  obtain ⟨c, -, h⟩ := exists_of_bind_eq_ok h
  cases h
  exact
    { name := .str _
      value := .str _
      sourceValue := .str _
      category := optional_plain _
      presenter := optional_plain _
      description := .null
      isAlias := .bool _
      aliasOf := optional_plain _
      sourceFile := .str _
      metadata := .obj (by simp) List.nodup_nil (by simp)
      named := rfl }

theorem literalOf_plain {place : Place} {d : Declaration} {values : List HardCodedValue}
    (h : literalOf place d = .ok values) : ∀ value ∈ values, value.Plain := by
  obtain ⟨c, -, h⟩ := exists_of_bind_eq_ok h
  split at h
  · cases h
    intro value hvalue
    rw [List.mem_singleton.mp hvalue]
    exact ⟨.str _, .str _, .int _, .int _, .str _, .str _⟩
  · cases h
    intro value hvalue
    cases hvalue

/-- A description does not change what else a token holds. -/
theorem described_extracted {t : Token} (h : t.Extracted) (comment : List Char) :
    ({ t with description := descriptionOf comment } : Token).Extracted :=
  { h with description := .str _ }

theorem remark_extracted {w : Walk} (h : ∀ t ∈ w.settled, t.Extracted) (text : List Char)
    (line : Nat) : ∀ t ∈ (w.remark text line).settled, t.Extracted := by
  unfold Walk.remark
  split
  · exact h
  split
  · next token endLine hprevious =>
      split
      · intro t ht
        rw [List.mem_singleton.mp ht]
        refine described_extracted (h token ?_) text
        simp [Walk.settled, hprevious]
      · exact h
  · exact h

theorem comment_extracted {w : Walk} (h : ∀ t ∈ w.settled, t.Extracted) (text : List Char)
    (line : Nat) : ∀ t ∈ (w.comment text line).settled, t.Extracted := by
  unfold Walk.comment
  split
  · exact h
  · exact h
  · exact remark_extracted h text line

structure Findings.Extracted (found : Findings) : Prop where
  tokens : ∀ t ∈ found.tokens, t.Extracted
  hardCoded : ∀ value ∈ found.hardCoded, value.Plain

theorem Findings.Extracted.append {a b : Findings} (ha : a.Extracted) (hb : b.Extracted) :
    (a ++ b).Extracted where
  tokens := List.forall_mem_append.mpr ⟨ha.tokens, hb.tokens⟩
  hardCoded := List.forall_mem_append.mpr ⟨ha.hardCoded, hb.hardCoded⟩

theorem settled_extracted {w : Walk} (h : ∀ t ∈ w.settled, t.Extracted) :
    ({ tokens := w.settled } : Findings).Extracted :=
  ⟨h, fun _ hvalue => absurd hvalue List.not_mem_nil⟩

theorem declaration_extracted {w next : Walk} {place : Place} {d : Declaration} {found : Findings}
    (h : w.declaration place d = .ok (found, next)) :
    found.Extracted ∧ ∀ t ∈ next.settled, t.Extracted := by
  unfold Walk.declaration at h
  split at h
  · cases h
    exact ⟨⟨by simp, by simp⟩, by simp [Walk.settled]⟩
  split at h
  · obtain ⟨token, htoken, h⟩ := exists_of_bind_eq_ok h
    cases h
    refine ⟨⟨by simp, by simp⟩, fun t ht => ?_⟩
    rw [List.mem_singleton.mp ht]
    exact tokenOf_extracted htoken
  · obtain ⟨values, hvalues, h⟩ := exists_of_bind_eq_ok h
    cases h
    exact ⟨⟨by simp, literalOf_plain hvalues⟩, by simp [Walk.settled]⟩

/-- The walk finds what parsers extract, if the token before it is such. -/
theorem walk_extracted (place : Place) (outer : Option Scope) (w : Walk) (block : List Statement) :
    ∀ found, (∀ t ∈ w.settled, t.Extracted) → walk place outer w block = .ok found →
      found.Extracted := by
  induction place, outer, w, block using walk.induct with
  | case1 place outer w =>
      intro found hw h
      rw [walk] at h
      cases h
      exact settled_extracted hw
  | case2 place outer w text line rest ih =>
      intro found hw h
      rw [walk] at h
      exact ih found (comment_extracted hw text line) h
  | case3 place outer w d rest ih =>
      intro found hw h
      rw [walk] at h
      obtain ⟨⟨here, next⟩, hhere, h⟩ := exists_of_bind_eq_ok h
      obtain ⟨after, hafter, h⟩ := exists_of_bind_eq_ok h
      cases h
      obtain ⟨hfound, hnext⟩ := declaration_extracted hhere
      exact ((settled_extracted hw).append hfound).append (ih next after hnext hafter)
  | case4 place outer w head body inner rest hkey ih =>
      intro found hw h
      rw [walk, if_pos hkey] at h
      obtain ⟨inside, hinside, h⟩ := exists_of_bind_eq_ok h
      cases hinside
      obtain ⟨after, hafter, h⟩ := exists_of_bind_eq_ok h
      cases h
      refine ((settled_extracted hw).append ⟨by simp, by simp⟩).append (ih after ?_ hafter)
      simp [Walk.settled]
  | case5 place outer w head body inner rest scope hkey ih1 ih2 =>
      intro found hw h
      rw [walk, if_neg hkey] at h
      obtain ⟨inside, hinside, h⟩ := exists_of_bind_eq_ok h
      obtain ⟨after, hafter, h⟩ := exists_of_bind_eq_ok h
      cases h
      have hin := ih2 inside (by simp [Walk.settled, Walk.enter]) hinside
      have hout := ih1 after (by simp [Walk.settled]) hafter
      exact ((settled_extracted hw).append hin).append hout

theorem findings_extracted {dialect : Dialect} {filename : String} {text : List Char}
    {found : Findings} (h : findings dialect filename text = .ok found) : found.Extracted := by
  unfold findings at h
  dsimp only at h
  split at h
  · cases h
  split at h
  · next hwalk =>
      cases h
      exact walk_extracted _ _ _ _ _ (by simp [Walk.settled, Walk.enter]) hwalk
  · cases h

theorem toExtraction_extracted {found : Findings} (h : found.Extracted) (type : SourceType) :
    (found.toExtraction type).toCatalog.Extracted where
  tokens g hg t ht := by
    unfold Findings.toExtraction at hg
    split at hg
    · cases hg
    · rw [List.mem_singleton.mp hg] at ht
      exact latest_extracted h.tokens t ht
  hardCodedValues := h.hardCoded
  keyframes := rfl

theorem parseFile_extracted {dialect : Dialect} {file : SourceFile} {e : Extraction}
    (h : parseFile dialect file = .ok e) :
    e.toCatalog.Extracted ∧ e.sourceType = dialect.sourceType := by
  unfold parseFile at h
  split at h
  · cases h
  · next text htext =>
      obtain ⟨found, hfound, rfl⟩ := exists_of_map_eq_ok h
      exact ⟨toExtraction_extracted (findings_extracted hfound) _, rfl⟩

end Stylesheet

/-! ## Vector and raster files -/

theorem Icon.tokenOf_extracted (filename : String) (icon : List Char × List Char) :
    (Icon.tokenOf filename icon).Extracted where
  name := .str _
  value := .str _
  sourceValue := .str _
  category := .null
  presenter := .null
  description := .null
  isAlias := .bool _
  aliasOf := .null
  sourceFile := .str _
  metadata := .obj (by simp [Icon.tokenOf]) List.nodup_nil (by simp [Icon.tokenOf])
  named := rfl

theorem Icon.parseFile_extracted {file : SourceFile} {e : Extraction}
    (h : Icon.parseFile file = .ok e) : e.toCatalog.Extracted ∧ e.sourceType = .svg := by
  obtain ⟨text, -, h⟩ := exists_of_bind_eq_ok h
  obtain ⟨found, -, h⟩ := exists_of_bind_eq_ok h
  have htokens : ∀ t ∈ latest (found.map (tokenOf file.filename)), t.Extracted := by
    refine latest_extracted fun t ht => ?_
    obtain ⟨icon, -, rfl⟩ := List.mem_map.mp ht
    exact tokenOf_extracted _ icon
  split at h
  · cases h
    exact ⟨Extraction.empty_extracted .svg, rfl⟩
  · cases h
    exact ⟨Catalog.extracted_of_tokens htokens, rfl⟩

theorem Image.tokenOf_extracted (file : SourceFile) (header : Header) :
    (Image.tokenOf file header).Extracted where
  name := .str _
  value := .str _
  sourceValue := .str _
  category := .null
  presenter := .null
  description := .null
  isAlias := .bool _
  aliasOf := .null
  sourceFile := .str _
  metadata := by
    show (record [("width", .int header.width), ("height", .int header.height),
      ("format", .str header.format.name), ("mime_type", .str header.format.mediaType),
      ("size_bytes", .int file.data.length)]).Plain
    refine record_plain (by simp) ?_
    rw [List.forall_mem_cons, List.forall_mem_cons, List.forall_mem_cons, List.forall_mem_cons,
      List.forall_mem_singleton]
    exact ⟨.int _, .int _, .str _, .str _, .int _⟩
  named := rfl

theorem Image.parseFile_extracted [Image.Decoder] {file : SourceFile} {e : Extraction}
    (h : Image.parseFile file = .ok e) : e.toCatalog.Extracted ∧ e.sourceType = .image := by
  obtain ⟨header, -, rfl⟩ := exists_of_map_eq_ok h
  refine ⟨Catalog.extracted_of_tokens fun t ht => ?_, rfl⟩
  rw [List.mem_singleton.mp ht]
  exact tokenOf_extracted file header

/-! ## Parsers -/

/-- **Parsers extract texts, numbers and truth values**, under names that are texts and for the
source type of the parser. -/
theorem Parser.extract_extracted [Image.Decoder] (p : Parser) (file : SourceFile) :
    (p.extract file).toCatalog.Extracted ∧ (p.extract file).sourceType = p.sourceType := by
  unfold extract
  split
  · next found hfound =>
      cases p with
      | stylesheets dialect => exact Stylesheet.parseFile_extracted (eq_ok_of_mapError hfound)
      | icons => exact Icon.parseFile_extracted (eq_ok_of_mapError hfound)
      | images extensions => exact Image.parseFile_extracted (eq_ok_of_mapError hfound)
  · exact ⟨Extraction.empty_extracted _, rfl⟩

/-! ## Merging -/

theorem mem_tokensOf {type : SourceType} {extractions : List Extraction} {t : Token} :
    t ∈ tokensOf type extractions ↔
      ∃ e ∈ extractions, ∃ g ∈ e.tokenGroups, g.type = type ∧ t ∈ g.tokens := by
  simp [tokensOf, and_assoc]

theorem merge_extracted {extractions : List Extraction}
    (h : ∀ e ∈ extractions, e.toCatalog.Extracted) : (merge extractions).Extracted where
  tokens g hg := by
    rw [(mem_merge_tokenGroups.mp hg).2]
    refine latest_extracted fun t ht => ?_
    obtain ⟨e, he, g', hg', -, ht⟩ := mem_tokensOf.mp ht
    exact (h e (mem_canonical.mp he)).tokens g' hg' t ht
  hardCodedValues value hvalue := by
    rw [merge, inOrder_eq_canonical] at hvalue
    obtain ⟨e, he, hvalue⟩ := List.mem_flatMap.mp hvalue
    exact (h e (mem_canonical.mp he)).hardCodedValues value hvalue
  keyframes := rfl

theorem mergeable_of_extracted {extractions : List Extraction}
    (h : ∀ e ∈ extractions, e.toCatalog.Extracted) : Mergeable extractions where
  names e he g hg t ht := by
    have hnamed := ((h e he).tokens g hg t ht).named
    cases hname : t.name with
    | str s => rfl
    | _ =>
        rw [hname] at hnamed
        cases hnamed
  keyframes e he _ := (h e he).keyframes

theorem Parser.parse_extracted [Image.Decoder] (p : Parser) (files : List SourceFile) :
    (p.parse files).toCatalog.Extracted := by
  refine merge_extracted fun e he => ?_
  obtain ⟨file, -, rfl⟩ := List.mem_map.mp he
  exact (p.extract_extracted file).1

theorem Registry.run_extracted [Image.Decoder] (registry : Registry) (files : List SourceFile) :
    ∀ e ∈ registry.run files, e.toCatalog.Extracted := by
  induction registry generalizing files with
  | nil => exact fun e he => absurd he List.not_mem_nil
  | cons p ps ih =>
      rw [run_cons, List.forall_mem_cons]
      exact ⟨p.parse_extracted files, ih _⟩

end TokenCatalog
