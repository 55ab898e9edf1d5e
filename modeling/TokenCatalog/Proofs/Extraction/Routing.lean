import TokenCatalog.Proofs.Catalog.Rearranged
import TokenCatalog.Proofs.Extraction.Omission

/-!
# Which files a parser gets

A run gives each file to the first parser of its registry that handles the name, while a parser on
its own takes the files that it handles. In the standard registry no two parsers handle the same
name, so that the two ways agree. Main statements:

* `Registry.run_eq_routed`: a run is what each parser makes of the files that are routed to it;
* `Registry.routed_eq_own`: if no two parsers handle one name, those are the parser's own files;
* `Registry.entry_points_agree`: the entry points for single source types, merged in any order, give
  the catalog of a run, which depends on the files of each source type only.
-/

namespace TokenCatalog

namespace Registry

/-! ## Routing -/

/-- The files for which a registry chooses a parser. -/
def routed (registry : Registry) (p : Parser) (files : List SourceFile) : List SourceFile :=
  files.filter fun file => registry.parser? file.filename = some p

variable {registry : Registry} {p : Parser}

theorem parser?_eq_some {filename : String} (h : registry.parser? filename = some p) :
    p ∈ registry ∧ p.handles filename = true :=
  ⟨List.mem_of_find?_eq_some h, by simpa using List.find?_some h⟩

theorem parser?_cons_self {ps : Registry} (hnot : p ∉ ps) (filename : String) :
    Registry.parser? (p :: ps) filename = some p ↔ p.handles filename = true := by
  rw [parser?_cons]
  constructor
  · intro h
    by_contra hhandles
    rw [if_neg hhandles] at h
    exact hnot (parser?_eq_some h).1
  · intro hhandles
    rw [if_pos hhandles]

theorem parser?_cons_other {ps : Registry} {q : Parser} (hne : q ≠ p) (filename : String) :
    Registry.parser? (p :: ps) filename = some q ↔
      p.handles filename = false ∧ Registry.parser? ps filename = some q := by
  rw [parser?_cons]
  cases p.handles filename with
  | true => simp [Ne.symm hne]
  | false => simp

/-- **A run routes every file to one parser**, the first that handles its name, and each parser
combines what it extracts from the files that are routed to it. -/
theorem run_eq_routed [Image.Decoder] (hnodup : registry.Nodup) (files : List SourceFile) :
    registry.run files =
      registry.map fun p => p.combine ((registry.routed p files).map p.extract) := by
  induction registry generalizing files with
  | nil => rfl
  | cons p ps ih =>
      obtain ⟨hnot, hnodup⟩ := List.nodup_cons.mp hnodup
      have hfirst : p.own files = routed (p :: ps) p files := by
        refine List.filter_congr fun file _ => ?_
        simp only [parser?_cons_self hnot, Bool.decide_eq_true]
      -- the other parsers are asked about the files that the first one leaves
      have hothers : ∀ q ∈ ps, routed ps q (files.filter fun file => !p.handles file.filename) =
          routed (p :: ps) q files := by
        intro q hq
        have hne : q ≠ p := by
          rintro rfl
          exact hnot hq
        rw [routed, routed, List.filter_filter]
        refine List.filter_congr fun file _ => ?_
        rw [decide_eq_decide.mpr (parser?_cons_other hne file.filename), Bool.decide_and,
          Bool.and_comm]
        simp
      rw [run_cons, ih hnodup, List.map_cons, Parser.parse, hfirst]
      congr 1
      refine List.map_congr_left fun q hq => ?_
      rw [hothers q hq]

def Exclusive (registry : Registry) : Prop :=
  ∀ p ∈ registry, ∀ q ∈ registry, ∀ filename,
    p.handles filename = true → q.handles filename = true → p = q

theorem Exclusive.parser?_eq_some_iff (h : registry.Exclusive) (hp : p ∈ registry)
    {filename : String} : registry.parser? filename = some p ↔ p.handles filename = true := by
  constructor
  · intro hrouted
    exact (parser?_eq_some hrouted).2
  · intro hhandles
    cases hrouted : registry.parser? filename with
    | none =>
        have hnone := List.find?_eq_none.mp hrouted p hp
        exact absurd hhandles hnone
    | some q =>
        obtain ⟨hq, hqhandles⟩ := parser?_eq_some hrouted
        rw [h q hq p hp filename hqhandles hhandles]

/-- **Routing agrees with choosing files by extension.** -/
theorem routed_eq_own (h : registry.Exclusive) (hp : p ∈ registry) (files : List SourceFile) :
    registry.routed p files = p.own files := by
  refine List.filter_congr fun file _ => ?_
  simp only [h.parser?_eq_some_iff hp, Bool.decide_eq_true]

theorem run_of_exclusive [Image.Decoder] (hnodup : registry.Nodup) (h : registry.Exclusive)
    (files : List SourceFile) : registry.run files = registry.map (·.parse files) := by
  rw [run_eq_routed hnodup]
  refine List.map_congr_left fun p hp => ?_
  rw [routed_eq_own h hp, Parser.parse]

end Registry

/-! ## The standard registry -/

def SourceType.extensions : SourceType → List String
  | css => [".css"]
  | scss => [".scss"]
  | less => [".less"]
  | svg => [".svg"]
  | image => [".png", ".jpeg", ".jpg", ".gif"]

/-- The files of a source type, in their order. -/
def filesOfType (type : SourceType) (files : List SourceFile) : List SourceFile :=
  files.filter fun file => type.extensions.contains file.extension

theorem extensions_ofType (type : SourceType) :
    (Parser.ofType type).extensions = type.extensions := by
  cases type <;> decide +kernel

theorem own_ofType (type : SourceType) (files : List SourceFile) :
    (Parser.ofType type).own files = filesOfType type files := by
  rw [Parser.own, filesOfType, ← extensions_ofType]
  rfl

/-- No two source types share an extension. -/
theorem extensions_disjoint : ∀ type ∈ SourceType.all, ∀ type' ∈ SourceType.all,
    ∀ extension ∈ type.extensions, extension ∈ type'.extensions → type = type' := by
  decide +kernel

namespace Registry

theorem standard_eq : standard = SourceType.all.map Parser.ofType :=
  rfl

theorem ofType_mem_standard (type : SourceType) : Parser.ofType type ∈ standard :=
  List.mem_map_of_mem type.mem_all

theorem standard_nodup : standard.Nodup := by
  decide +kernel

theorem standard_exclusive : standard.Exclusive := by
  intro p hp q hq filename hphandles hqhandles
  rw [standard_eq] at hp hq
  obtain ⟨type, htype, rfl⟩ := List.mem_map.mp hp
  obtain ⟨type', htype', rfl⟩ := List.mem_map.mp hq
  simp only [Parser.handles, extensions_ofType, List.contains_iff_mem] at hphandles hqhandles
  rw [extensions_disjoint type htype type' htype' _ hphandles hqhandles]

theorem standard_run [Image.Decoder] (files : List SourceFile) :
    standard.run files = SourceType.all.map fun type => (Parser.ofType type).parse files := by
  rw [run_of_exclusive standard_nodup standard_exclusive, standard_eq, List.map_map]
  rfl

theorem standard_run_congr [Image.Decoder] {files files' : List SourceFile}
    (h : ∀ type, filesOfType type files = filesOfType type files') :
    standard.run files = standard.run files' := by
  rw [standard_run, standard_run]
  refine List.map_congr_left fun type _ => ?_
  rw [Parser.parse, Parser.parse, own_ofType, own_ofType, h]

end Registry

/-! ## Results in any order -/

/-- Where no two extractions are of one type, their order does not matter. -/
theorem ofType_eq_of_perm {xs ys : List Extraction} (hperm : ys.Perm xs)
    (hnodup : (xs.map (·.sourceType)).Nodup) (type : SourceType) :
    ofType type ys = ofType type xs := by
  have hfiltered : (ofType type ys).Perm (ofType type xs) := hperm.filter _
  have hdistinct : ((ofType type xs).map (·.sourceType)).Nodup :=
    hnodup.sublist (List.filter_sublist.map _)
  cases hfound : ofType type xs with
  | nil =>
      rw [hfound] at hfiltered
      exact hfiltered.eq_nil
  | cons e rest =>
      cases rest with
      | nil =>
          rw [hfound] at hfiltered
          exact List.perm_singleton.mp hfiltered
      | cons e' rest =>
          have he : e.sourceType = type := sourceType_of_mem_ofType (by rw [hfound]; simp)
          have he' : e'.sourceType = type := sourceType_of_mem_ofType (by rw [hfound]; simp)
          rw [hfound] at hdistinct
          simp [he, he'] at hdistinct

theorem Registry.mergeChecked_of_perm_run [Image.Decoder] {results : List Extraction}
    {files : List SourceFile} (h : results.Perm (standard.run files)) :
    mergeChecked results = .ok (standard.catalog files) := by
  have hnodup : ((standard.run files).map (·.sourceType)).Nodup := by
    rw [standard_run, List.map_map]
    show SourceType.all.Nodup
    decide
  rw [mergeChecked_congr (ofType_eq_of_perm h hnodup)]
  exact mergeChecked_of_mergeable (mergeable_of_extracted (standard.run_extracted files))

/-- **The entry points agree with the engine, and only the order within a source type matters.** The
files that the standard registry routes to the parser of a source type are those with its
extensions. What the entry points for stylesheets of each dialect, icons and images give can be
merged in any order into the catalog of a run, and lists of files in which the files of each source
type are the same have the same catalog. -/
theorem Registry.entry_points_agree [Image.Decoder] :
    (∀ (files : List SourceFile) (type : SourceType),
      standard.routed (.ofType type) files = filesOfType type files ∧
        (Parser.ofType type).own files = filesOfType type files) ∧
    (∀ files : List SourceFile, ∃ css scss less,
      parseStylesheets? .css files = some css ∧ parseStylesheets? .scss files = some scss ∧
        parseStylesheets? .less files = some less ∧
        ∀ results : List Extraction,
          results.Perm [css, scss, less, Parser.icons.parse files,
            (Parser.ofImages Parser.imageExtensions).parse files] →
          mergeChecked results = .ok (standard.catalog files)) ∧
    ∀ files files' : List SourceFile, (∀ type, filesOfType type files = filesOfType type files') →
      standard.catalog files = standard.catalog files' := by
  refine ⟨?_, ?_, ?_⟩
  · intro files type
    rw [routed_eq_own standard_exclusive (ofType_mem_standard type), own_ofType]
    exact ⟨rfl, rfl⟩
  · intro files
    refine ⟨(Parser.ofType .css).parse files, (Parser.ofType .scss).parse files,
      (Parser.ofType .less).parse files, rfl, rfl, rfl, ?_⟩
    intro results hperm
    refine mergeChecked_of_perm_run ?_
    rw [standard_run]
    exact hperm
  · intro files files' h
    rw [catalog, catalog, standard_run_congr h]

/-- Names in mixed case, with back slashes and without a stem. -/
theorem Registry.entry_points_agree_mixedNames :
    let sheet : SourceFile := ⟨"themes\\Main.CSS", .text "/* @tokens */ p \x7b --a: red \x7d"⟩
    let later : SourceFile := ⟨"b/.min.css", .text "/* @tokens */ p \x7b --a: blue \x7d"⟩
    let nameless : SourceFile := ⟨"b/.css", .text "/* @tokens */ p \x7b --a: green \x7d"⟩
    let icon : SourceFile := ⟨"x.Svg", .text "<svg/>"⟩
    let files := [sheet, later, icon]
    let files' := [nameless, icon, sheet, later]
    (∀ type, filesOfType type files = filesOfType type files') ∧
      standard.catalog files = standard.catalog files' ∧
      ∃ css scss less, mergeChecked [(Parser.ofImages Parser.imageExtensions).parse files,
        Parser.icons.parse files, less, scss, css] = .ok (standard.catalog files') := by
  intro sheet later nameless icon files files'
  have hfiles : ∀ type, filesOfType type files = filesOfType type files' := by
    intro type
    cases type <;> decide +kernel
  have hcatalog := entry_points_agree.2.2 files files' hfiles
  obtain ⟨css, scss, less, -, -, -, hmerge⟩ := entry_points_agree.2.1 files
  refine ⟨hfiles, hcatalog, css, scss, less, ?_⟩
  rw [← hcatalog]
  exact hmerge _ (List.reverse_perm [css, scss, less, Parser.icons.parse files,
    (Parser.ofImages Parser.imageExtensions).parse files])

end TokenCatalog
