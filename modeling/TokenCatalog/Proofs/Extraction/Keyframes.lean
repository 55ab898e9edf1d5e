import TokenCatalog.Proofs.Extraction.Routing
import TokenCatalog.Proofs.Stylesheet.Keyframes
import TokenCatalog.Proofs.Stylesheet.Unmarked

/-!
# Keyframes of a catalog

Keyframes are joined three times over: the rules of a file, the files of a parser, and the parsers.
Empty texts are skipped at some of these levels and cannot occur at others, so that in the end all
rules stand in one row with one separator between neighbours. Main statements:

* `Joins`: the keyframes of extractions are a row of pieces, each with something in it;
* `Joins.append` and `Parser.parse_joins`: what holds of files holds of the parsers that read them;
* `Registry.keyframes_collected`: the keyframes of a catalog are the rules of its stylesheets.
-/

namespace TokenCatalog

open Stylesheet (Dialect RuleSite keyframesRules statements nodesOf isKeyframes)

/-! ## One row of pieces -/

/-- The keyframes of extractions are pieces with a separator between neighbours. -/
structure Joins (extractions : List Extraction) (pieces : List (List Char)) : Prop where
  text : keyframesOf extractions = ['\n', '\n'].intercalate pieces
  nonempty : ∀ piece ∈ pieces, piece ≠ []

theorem intercalate_eq_nil_iff {separator : List Char} {pieces : List (List Char)}
    (h : ∀ piece ∈ pieces, piece ≠ []) : separator.intercalate pieces = [] ↔ pieces = [] := by
  cases pieces with
  | nil => simp
  | cons piece pieces =>
      have hpiece : piece ≠ [] := h piece List.mem_cons_self
      cases pieces with
      | nil => simpa using hpiece
      | cons => simp [List.intercalate_cons_cons, hpiece]

section

variable {xs ys : List Extraction} {ps qs : List (List Char)}

theorem Joins.nil : Joins [] [] :=
  ⟨rfl, nofun⟩

theorem Joins.eq_nil_iff (h : Joins xs ps) : keyframesOf xs = [] ↔ ps = [] := by
  rw [h.text, intercalate_eq_nil_iff h.nonempty]

/-- **Rows are joined like the extractions they come from**; no separator is lost or doubled, since
rows without pieces are skipped. -/
theorem Joins.append (hx : Joins xs ps) (hy : Joins ys qs) : Joins (xs ++ ys) (ps ++ qs) := by
  refine ⟨?_, ?_⟩
  · rw [keyframesOf_append]
    simp only [hx.eq_nil_iff, hy.eq_nil_iff]
    by_cases hps : ps = []
    · rw [if_pos hps, hy.text, hps, List.nil_append]
    · rw [if_neg hps]
      by_cases hqs : qs = []
      · rw [if_pos hqs, hx.text, hqs, List.append_nil]
      · rw [if_neg hqs, hx.text, hy.text, intercalate_append _ hps hqs]
  · intro piece hpiece
    rcases List.mem_append.mp hpiece with h | h
    · exact hx.nonempty piece h
    · exact hy.nonempty piece h

theorem Joins.of_alike (halike : Alike xs ys) (h : Joins ys ps) : Joins xs ps :=
  ⟨halike.keyframes.trans h.text, h.nonempty⟩

end

/-! ## Files -/

/-- The keyframes rules of a stylesheet that can be parsed, as written, in document order; those
inside another one are not listed. -/
def keyframesTexts (dialect : Dialect) (file : SourceFile) : List (List Char) :=
  match file.text, Stylesheet.parseFile dialect file with
  | .ok text, .ok _ =>
    (keyframesRules [] (statements dialect (nodesOf dialect text))).map RuleSite.text
  | _, _ => []

theorem keyframesTexts_trimmed {dialect : Dialect} {file : SourceFile} {piece : List Char}
    (h : piece ∈ keyframesTexts dialect file) : piece ≠ [] ∧ Text.strip piece = piece := by
  unfold keyframesTexts at h
  split at h
  · obtain ⟨r, -, rfl⟩ := List.mem_map.mp h
    exact r.text_trimmed
  · cases h

/-- What a parser collects of keyframes in a file. -/
def Parser.keyframesTexts : Parser → SourceFile → List (List Char)
  | stylesheets dialect, file =>
    if dialect.collectsKeyframes then TokenCatalog.keyframesTexts dialect file else []
  | icons, _ => []
  | images _, _ => []

theorem Stylesheet.keyframes_of_parseFile {dialect : Dialect} {file : SourceFile}
    {found : Extraction} (h : parseFile dialect file = .ok found) :
    found.keyframes = .str (String.ofList (['\n', '\n'].intercalate
      ((Parser.stylesheets dialect).keyframesTexts file))) := by
  have hparse := h
  unfold parseFile at h
  split at h
  · cases h
  · next text htext =>
      obtain ⟨findings, hfindings, rfl⟩ := exists_of_map_eq_ok h
      have htexts : (Parser.stylesheets dialect).keyframesTexts file =
          collected dialect (keyframesRules [] (statements dialect (nodesOf dialect text))) := by
        simp only [Parser.keyframesTexts, TokenCatalog.keyframesTexts, htext, hparse, collected]
      rw [htexts, ← keyframes_of_findings (sound_of_findings hfindings) hfindings]
      rfl

namespace Parser

variable (p : Parser)

/-- A file that is refused has no keyframes, and one that is parsed has those of its rules. -/
theorem keyframesText_extract [Image.Decoder] (file : SourceFile) :
    keyframesText (p.extract file).keyframes =
      ['\n', '\n'].intercalate (p.keyframesTexts file) := by
  unfold extract
  cases hparse : p.parseFile file with
  | ok found =>
      cases p with
      | stylesheets dialect =>
          rw [Stylesheet.keyframes_of_parseFile (eq_ok_of_mapError hparse)]
          exact String.toList_ofList
      | icons =>
          have hicons := eq_ok_of_mapError hparse
          unfold Icon.parseFile at hicons
          obtain ⟨text, -, hicons⟩ := exists_of_bind_eq_ok hicons
          obtain ⟨icons, -, hicons⟩ := exists_of_bind_eq_ok hicons
          split at hicons <;> cases hicons <;> rfl
      | images extensions =>
          obtain ⟨header, -, rfl⟩ := exists_of_map_eq_ok (eq_ok_of_mapError hparse)
          rfl
  | error fault =>
      cases p with
      | stylesheets dialect =>
          obtain ⟨inner, hinner, -⟩ := exists_of_mapError_eq_error hparse
          have hnone : TokenCatalog.keyframesTexts dialect file = [] := by
            unfold TokenCatalog.keyframesTexts
            rw [hinner]
            split
            · next hok => cases hok
            · rfl
          simp [keyframesTexts, hnone, Extraction.empty, keyframesText]
      | icons => rfl
      | images extensions => rfl

theorem keyframesTexts_nonempty {file : SourceFile} {piece : List Char}
    (h : piece ∈ p.keyframesTexts file) : piece ≠ [] := by
  cases p with
  | stylesheets dialect =>
      rw [keyframesTexts] at h
      split at h
      · exact (keyframesTexts_trimmed h).1
      · cases h
  | icons => cases h
  | images extensions => cases h

theorem extract_joins [Image.Decoder] (files : List SourceFile) :
    Joins (files.map p.extract) (files.flatMap p.keyframesTexts) := by
  induction files with
  | nil => exact .nil
  | cons file files ih =>
      have hfile : Joins [p.extract file] (p.keyframesTexts file) := by
        refine ⟨?_, fun _ => p.keyframesTexts_nonempty⟩
        rw [keyframesOf_singleton, p.keyframesText_extract]
      exact hfile.append ih

/-- **The keyframes of a parser's files are those of each, in the order of the files.** -/
theorem parse_joins [Image.Decoder] (files : List SourceFile) :
    Joins [p.parse files] ((p.own files).flatMap p.keyframesTexts) :=
  (p.extract_joins (p.own files)).of_alike (p.combine_alike (p.own files))

end Parser

/-! ## Catalogs -/

namespace Registry

variable (imageExtensions : List String) (files : List SourceFile)

/-- The parser for stylesheets of the second dialect gets all its files: the first handles none. -/
theorem own_scss :
    (Parser.ofType .scss).own
        (files.filter fun file => !(Parser.ofType .css).handles file.filename) =
      filesOfType .scss files := by
  rw [Parser.own, filesOfType, List.filter_filter]
  refine List.filter_congr fun file _ => ?_
  have hextensions : ∀ extension, SourceType.scss.extensions.contains extension = true →
      SourceType.css.extensions.contains extension = false := by
    intro extension h
    rw [← Bool.not_eq_true, List.contains_iff_mem]
    intro hcss
    cases extensions_disjoint .scss (SourceType.mem_all _) .css (SourceType.mem_all _) extension
      (List.contains_iff_mem.mp h) hcss
  rw [Parser.handles, Parser.handles, extensions_ofType, extensions_ofType]
  show (SourceType.scss.extensions.contains file.extension &&
    !SourceType.css.extensions.contains file.extension) = _
  cases h : SourceType.scss.extensions.contains file.extension with
  | true => rw [hextensions _ h]; rfl
  | false => rfl

theorem canonical_run [Image.Decoder] :
    canonical ((create imageExtensions).run files) = (create imageExtensions).run files := by
  refine List.mergeSort_of_pairwise ?_
  have htypes : (((create imageExtensions).run files).map (·.sourceType)).Pairwise
      fun a b => a.rank ≤ b.rank := by
    show SourceType.all.Pairwise fun a b => a.rank ≤ b.rank
    decide
  exact (List.pairwise_map.mp htypes).imp fun h => decide_eq_true h

theorem run_joins [Image.Decoder] :
    Joins ((create imageExtensions).run files)
      ((filesOfType .css files).flatMap (keyframesTexts Stylesheet.css) ++
        (filesOfType .scss files).flatMap (keyframesTexts Stylesheet.scss)) := by
  have hnone : ∀ (p : Parser) (files : List SourceFile), (∀ file, p.keyframesTexts file = []) →
      Joins [p.parse files] [] := by
    intro p files hp
    have hjoins := p.parse_joins files
    rwa [List.flatMap_eq_nil_iff.mpr fun file _ => hp file] at hjoins
  have hcss := (Parser.ofType .css).parse_joins files
  have hscss := (Parser.ofType .scss).parse_joins
    (files.filter fun file => !(Parser.ofType .css).handles file.filename)
  rw [own_ofType] at hcss
  rw [own_scss] at hscss
  have hothers : ∀ less svg images, Joins
      ([(Parser.ofType .less).parse less] ++ ([(Parser.ofType .svg).parse svg] ++
        [(Parser.ofImages imageExtensions).parse images])) [] := by
    intro less svg images
    have himages := hnone (.ofImages imageExtensions) images fun _ => rfl
    exact (hnone (.ofType .less) less fun _ => rfl).append
      ((hnone (.ofType .svg) svg fun _ => rfl).append himages)
  have hall := fun less svg images => hcss.append (hscss.append (hothers less svg images))
  simp only [List.append_nil] at hall
  rw [create]
  simp only [run_cons, run_nil]
  exact hall _ _ _

/-- **Keyframes are collected completely and in order.** Whatever the extensions of images, the
keyframes of a catalog are the outermost keyframes rules of the CSS files that can be parsed, then
those of the SCSS files, files in their order and rules in document order, each as written and
trimmed, with one blank line between neighbours; other files contribute nothing. A rule is a
keyframes rule by the name of the at-keyword that its head begins with, in any letter case and
behind any vendor; a line feed that ends the name, which takes an escape, is overlooked. -/
theorem keyframes_collected [Image.Decoder] :
    ((create imageExtensions).catalog files).keyframes =
        .str (String.ofList (['\n', '\n'].intercalate
          ((filesOfType .css files).flatMap (keyframesTexts Stylesheet.css) ++
            (filesOfType .scss files).flatMap (keyframesTexts Stylesheet.scss)))) ∧
      (∀ dialect file, ∀ piece ∈ keyframesTexts dialect file,
        piece ≠ [] ∧ Text.strip piece = piece) ∧
      ∀ head, isKeyframes head = true ↔
        ∃ p name rest, Css.significant head = .leaf p (.atKeyword name) :: rest ∧
          Stylesheet.NamesKeyframes (Text.asciiLower name) := by
  refine ⟨?_, fun _ _ _ => keyframesTexts_trimmed, fun _ => Stylesheet.isKeyframes_iff⟩
  have hmerges := merge_merges (mergeable_of_extracted
      ((create imageExtensions).run_extracted files))
  rw [catalog, hmerges.keyframes, canonical_run]
  exact congrArg (Json.str ∘ String.ofList) (run_joins imageExtensions files).text

end Registry

end TokenCatalog
