import TokenCatalog.Proofs.Extraction.Incremental

/-!
# Files that are left out

What a run gives when some of its files are left out. Two lists of extractions may agree in their
tokens only, which is less than being alike. Main statements:

* `Omits`: some files of a kind have been taken out of a list, wherever they stood;
* `Registry.run_omits`: files from which nothing is extracted can be left out of a run;
* `Registry.tokenGroups_omits`: files without tokens can be left out as far as tokens go.
-/

namespace TokenCatalog

/-! ## Lists with and without some files -/

/-- Some files of a kind have been taken out of a list, wherever they stood. -/
inductive Omits (kind : SourceFile → Prop) : List SourceFile → List SourceFile → Prop
  | nil : Omits kind [] []
  | keep {fewer files : List SourceFile} (file : SourceFile) (h : Omits kind fewer files) :
      Omits kind (file :: fewer) (file :: files)
  | leave {fewer files : List SourceFile} {file : SourceFile} (hkind : kind file)
      (h : Omits kind fewer files) : Omits kind fewer (file :: files)

variable {kind : SourceFile → Prop} {fewer files : List SourceFile}

theorem Omits.filter (h : Omits kind fewer files) (p : SourceFile → Bool) :
    Omits (fun file => kind file ∧ p file = true) (fewer.filter p) (files.filter p) := by
  induction h with
  | nil => exact .nil
  | keep file h ih =>
      cases hp : p file with
      | true => simpa [hp] using ih.keep file
      | false => simpa [hp] using ih
  | @leave fewer files file hkind h ih =>
      cases hp : p file with
      | true => simpa [hp] using ih.leave ⟨hkind, hp⟩
      | false => simpa [hp] using ih

theorem Omits.mono {kind' : SourceFile → Prop} (h : Omits kind fewer files)
    (himp : ∀ file, kind file → kind' file) : Omits kind' fewer files := by
  induction h with
  | nil => exact .nil
  | keep file h ih => exact ih.keep file
  | leave hkind h ih => exact ih.leave (himp _ hkind)

/-! ## What parsers make of them -/

/-- What the parser for files of a name extracts from the file has a property. -/
def Registry.Yields [Image.Decoder] (registry : Registry) (property : Extraction → Prop)
    (file : SourceFile) :
    Prop :=
  ∀ parser, registry.parser? file.filename = some parser → property (parser.extract file)

theorem Registry.parser?_cons (p : Parser) (ps : Registry) (filename : String) :
    Registry.parser? (p :: ps) filename =
      if p.handles filename then some p else Registry.parser? ps filename := by
  rw [parser?, List.find?_cons]
  cases p.handles filename <;> rfl

section

variable {p : Parser} {ps : Registry} {property : Extraction → Prop} {file : SourceFile}

theorem Registry.Yields.first [Image.Decoder] (h : Registry.Yields (p :: ps) property file)
    (hhandles : p.handles file.filename = true) : property (p.extract file) :=
  h p (by rw [parser?_cons, if_pos hhandles])

theorem Registry.Yields.later [Image.Decoder] (h : Registry.Yields (p :: ps) property file)
    (hhandles : (!p.handles file.filename) = true) : Registry.Yields ps property file := by
  intro parser hparser
  rw [Bool.not_eq_true'] at hhandles
  exact h parser (by rw [parser?_cons, hhandles, if_neg Bool.false_ne_true, hparser])

/-- The first parser's own files differ by files of which it extracts what has the property. -/
theorem Omits.own [Image.Decoder] (h : Omits (Registry.Yields (p :: ps) property) fewer files) :
    Omits (fun file => property (p.extract file)) (p.own fewer) (p.own files) :=
  (h.filter _).mono fun _ hfile => hfile.1.first hfile.2

/-- The files that it leaves to the others differ by files of which they do. -/
theorem Omits.others [Image.Decoder] (h : Omits (Registry.Yields (p :: ps) property) fewer files) :
    Omits (Registry.Yields ps property) (fewer.filter fun file => !p.handles file.filename)
      (files.filter fun file => !p.handles file.filename) :=
  (h.filter _).mono fun _ hfile => hfile.1.later hfile.2

end

/-! ## Files from which nothing is extracted -/

/-- The empty extraction adds nothing to others. -/
theorem Alike.cons_empty {xs ys : List Extraction} (type : SourceType) (h : Alike xs ys) :
    Alike xs (.empty type :: ys) :=
  h.trans ⟨fun _ => rfl, rfl, rfl⟩

def Extraction.IsEmpty (e : Extraction) : Prop :=
  ∃ type, e = .empty type

theorem Omits.alike {extract : SourceFile → Extraction}
    (h : Omits (fun file => (extract file).IsEmpty) fewer files) :
    Alike (fewer.map extract) (files.map extract) := by
  induction h with
  | nil => exact Alike.refl []
  | keep file h ih => exact (Alike.refl [extract file]).append ih
  | leave hempty h ih =>
      obtain ⟨type, htype⟩ := hempty
      rw [List.map_cons, htype]
      exact ih.cons_empty type

/-- A parser does not tell lists of files apart from which it extracts the same. -/
theorem Parser.parse_eq_of_alike [Image.Decoder] {p : Parser} {xs ys : List SourceFile}
    (h : Alike ((p.own xs).map p.extract) ((p.own ys).map p.extract)) :
    p.parse xs = p.parse ys := by
  have hself : ∀ files, canonical ((p.own files).map p.extract) = (p.own files).map p.extract :=
    fun files => canonical_eq_self fun e he => (p.extracts_extracted _ e he).2
  rw [← hself xs, ← hself ys] at h
  exact congrArg (Extraction.mk · p.sourceType)
    (merge_eq_of_alike (p.extracts_mergeable _) (p.extracts_mergeable _) h)

/-- **Files from which nothing is extracted can be left out of a run.** -/
theorem Registry.run_omits [Image.Decoder] {registry : Registry}
    (h : Omits (registry.Yields Extraction.IsEmpty) fewer files) :
    registry.run fewer = registry.run files := by
  induction registry generalizing fewer files with
  | nil => rfl
  | cons p ps ih => rw [run_cons, run_cons, Parser.parse_eq_of_alike h.own.alike, ih h.others]

/-! ## Files without tokens -/

/-- Two lists of extractions hold the same tokens, as far as merging goes. -/
def SameTokens (xs ys : List Extraction) : Prop :=
  ∀ type, latest (tokensOf type xs) = latest (tokensOf type ys)

theorem SameTokens.append {xs xs' ys ys' : List Extraction} (hx : SameTokens xs xs')
    (hy : SameTokens ys ys') : SameTokens (xs ++ ys) (xs' ++ ys') := by
  intro type
  rw [tokensOf_append, tokensOf_append]
  exact latest_append_congr (hx type) (hy type)

theorem SameTokens.cons {xs ys : List Extraction} (e : Extraction) (h : SameTokens xs ys) :
    SameTokens (e :: xs) (e :: ys) := by
  have hsame : SameTokens [e] [e] := fun _ => rfl
  exact hsame.append h

theorem Omits.sameTokens {extract : SourceFile → Extraction}
    (h : Omits (fun file => (extract file).tokenGroups = []) fewer files) :
    SameTokens (fewer.map extract) (files.map extract) := by
  induction h with
  | nil => exact fun _ => rfl
  | keep file h ih => exact ih.cons (extract file)
  | leave hnone h ih =>
      intro type
      rw [ih type, List.map_cons, tokensOf, tokensOf, List.flatMap_cons, hnone]
      rfl

theorem Registry.run_sameTokens [Image.Decoder] {registry : Registry}
    (h : Omits (registry.Yields fun e => e.tokenGroups = []) fewer files) (type : SourceType) :
    SameTokens (ofType type (registry.run fewer)) (ofType type (registry.run files)) := by
  induction registry generalizing fewer files with
  | nil => exact fun _ => rfl
  | cons p ps ih =>
      rw [run_cons, run_cons, ofType_cons, ofType_cons]
      refine SameTokens.append ?_ (ih h.others)
      by_cases htype : p.sourceType = type
      · have hthis : ∀ files, (p.parse files).sourceType = type := fun _ => htype
        rw [if_pos (hthis fewer), if_pos (hthis files)]
        intro t
        exact ((p.combine_alike _).tokens t).trans
          ((h.own.sameTokens t).trans ((p.combine_alike _).tokens t).symm)
      · have hother : ∀ files, (p.parse files).sourceType ≠ type := fun _ => htype
        rw [if_neg (hother fewer), if_neg (hother files)]
        exact fun _ => rfl

/-- **Files without tokens can be left out**, as far as the tokens of a catalog go. -/
theorem Registry.tokenGroups_omits [Image.Decoder] {registry : Registry}
    (h : Omits (registry.Yields fun e => e.tokenGroups = []) fewer files) :
    (registry.catalog fewer).tokenGroups = (registry.catalog files).tokenGroups := by
  have hall : ∀ types : List SourceType,
      SameTokens (types.flatMap (ofType · (registry.run fewer)))
        (types.flatMap (ofType · (registry.run files))) := by
    intro types
    induction types with
    | nil => exact fun _ => rfl
    | cons type types ih => exact (Registry.run_sameTokens h type).append ih
  have hgroups : (groupOf · (inOrder (registry.run fewer))) =
      (groupOf · (inOrder (registry.run files))) := by
    funext type
    rw [groupOf, groupOf, inOrder, inOrder, hall]
  exact congrArg (SourceType.all.filterMap ·) hgroups

end TokenCatalog
