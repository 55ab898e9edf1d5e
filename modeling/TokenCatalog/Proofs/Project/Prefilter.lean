import TokenCatalog.Proofs.Extraction.Omission
import TokenCatalog.Proofs.Project.Loading
import TokenCatalog.Proofs.Source.Extension
import TokenCatalog.Proofs.Stylesheet.Unmarked
import TokenCatalog.Proofs.Text.Squeeze

/-!
# Leaving out stylesheets without a marker

A stylesheet is left out by the extension at its path and by its text as it is in the file; what it
would have contributed is decided by the parser for the name under which it is known, from a text
that has been rewritten twice. Below a root, a link may give it a name of another kind. Main
statements:

* `Registry.routed_of_extension`: the name of a stylesheet leads to a parser of stylesheets or to
  none;
* `load_omits`: requiring markers leaves out stylesheets without the opening word, and what such a
  link makes of one, and nothing else;
* `tokenGroups_of_requiring`: the tokens of a project are the same with and without the requirement.
-/

namespace TokenCatalog

open Project (Path Tree Outcome LoadOptions Reader stylesheetExtensions extensionAt)

/-! ## Names of stylesheets -/

/-- A path as text ends in its last name. -/
theorem exists_pathOfNames_end (leading : List Char) {names : Path} {last : List Char}
    (hlast : names.getLast? = some last) :
    ∃ before, Project.pathOfNames leading names = before ++ last := by
  have hend : ∃ before, Text.joinWith ['/'] names = before ++ last :=
    Text.exists_joinWith_append hlast
  obtain ⟨before, hbefore⟩ := hend
  have hne : ¬ (leading.isEmpty && names.isEmpty) = true := by
    cases names with
    | nil => cases hlast
    | cons name names => simp
  refine ⟨leading ++ before, ?_⟩
  rw [Project.pathOfNames, if_neg hne, Path.text, hbefore, List.append_assoc]

/-- The extensions of stylesheets hold no separators of names. -/
theorem not_mem_extensionAt {path : Path} (h : extensionAt path ∈ stylesheetExtensions) {c : Char}
    (hc : c = '/' ∨ c = '\\') : c ∉ suffixOf (path.getLast?.getD []) := by
  intro hmem
  have hplain : ∀ e ∈ stylesheetExtensions, '/' ∉ e.toList ∧ '\\' ∉ e.toList := by decide
  have hlower : c.toLower ∈ (extensionAt path).toList := by
    rw [extensionAt, String.toList_ofList]
    refine mem_lower_of_mem hmem ?_
    rcases hc with rfl | rfl <;> decide
  rcases hc with rfl | rfl
  · exact (hplain _ h).1 hlower
  · exact (hplain _ h).2 hlower

/-- **A name that ends as a path of a stylesheet does** has an extension of stylesheets, or none. -/
theorem extensionOf_of_end {name : String} {path : Path}
    (h : extensionAt path ∈ stylesheetExtensions)
    (hname : ∀ last, path.getLast? = some last → ∃ before, name.toList = before ++ last) :
    extensionOf name = [] ∨ String.ofList (extensionOf name) ∈ stylesheetExtensions := by
  have hnone : "" ∉ stylesheetExtensions := by decide
  have hsuffix : suffixOf (path.getLast?.getD []) ≠ [] := by
    intro hnil
    rw [extensionAt, hnil] at h
    exact hnone h
  obtain ⟨last, hlast⟩ : ∃ last, path.getLast? = some last := by
    cases hpath : path.getLast? with
    | some last => exact ⟨last, rfl⟩
    | none =>
        rw [hpath] at hsuffix
        exact absurd rfl hsuffix
  have hslash := not_mem_extensionAt h (.inl rfl)
  have hback := not_mem_extensionAt h (.inr rfl)
  obtain ⟨before, hbefore⟩ := hname last hlast
  rw [extensionAt] at h
  rw [hlast, Option.getD_some] at h hsuffix hslash hback
  obtain ⟨stem, extension, hsplit, hne, hdot, heq⟩ := exists_of_suffixOf hsuffix
  rw [heq] at h
  rw [heq, List.mem_cons, not_or] at hslash hback
  rw [hsplit, ← List.append_assoc] at hbefore
  refine (extensionOf_append hbefore hne hdot hslash.2 hback.2).imp_right fun hlower => ?_
  rwa [hlower]

def isStylesheet (path : Path) : Bool :=
  stylesheetExtensions.contains (extensionAt path)

/-- Whether a link leads from the path of a stylesheet to a place of another kind. -/
def isDiverted (t : Tree) (path : Path) : Bool :=
  path.isPossible && isStylesheet path &&
    (t.resolve path).toOption.any fun place => !isStylesheet place

/-- The name under which a stylesheet is known has an extension of stylesheets, or none. -/
theorem extensionOf_displayName {t : Tree} {project : String} {root? : Option Path} {path : Path}
    {name : String} (hstays : root? ≠ none → isDiverted t path = false)
    (h : extensionAt path ∈ stylesheetExtensions)
    (hname : t.displayName project root? path = .ok name) :
    extensionOf name = [] ∨ String.ofList (extensionOf name) ∈ stylesheetExtensions := by
  -- without a root the name is the path as given; below one it is the place that links lead to
  have hgiven : ∀ last, path.getLast? = some last → ∃ before,
      (String.ofList (Project.namesBelow project.toList path)).toList = before ++ last := by
    intro last hlast
    rw [String.toList_ofList]
    refine exists_pathOfNames_end _ ?_
    rw [List.getLast?_append, hlast]
    rfl
  unfold Tree.displayName at hname
  cases root? with
  | none =>
      cases hname
      exact extensionOf_of_end h hgiven
  | some root =>
      dsimp only at hname
      split at hname
      · next hpossible =>
        obtain ⟨place, hplace, hname⟩ := exists_of_map_eq_ok hname
        have hkind : extensionAt place ∈ stylesheetExtensions := by
          have hsame := hstays nofun
          rw [isDiverted, hpossible, isStylesheet, List.contains_iff_mem.mpr h, hplace] at hsame
          simpa [isStylesheet, Except.toOption] using hsame
        split at hname
        · cases hname
          cases hdrop : place.drop root.length with
          | nil => exact .inl (by decide)
          | cons first rest =>
              refine extensionOf_of_end hkind fun last hlast => ?_
              have hshort : ¬ place.length ≤ root.length := by
                intro hle
                rw [List.drop_eq_nil_of_le hle] at hdrop
                cases hdrop
              rw [String.toList_ofList]
              refine exists_pathOfNames_end _ ?_
              rw [← hdrop, List.getLast?_drop, if_neg hshort, hlast]
        · cases hname
          exact extensionOf_of_end h hgiven
      · cases hname
        exact extensionOf_of_end h hgiven

theorem dotted_ne_empty (extension : String) : Parser.dotted extension ≠ "" := by
  have hdot : '.' ∈ (Parser.dotted extension).toList := by
    rw [Parser.dotted, String.toList_ofList]
    split
    · next hhead =>
        refine mem_lower_of_mem (c := '.') ?_ (by decide)
        exact List.mem_of_mem_head? hhead
    · exact List.mem_cons_self
  intro hempty
  rw [hempty] at hdot
  cases hdot

/-- A name without extension, or with that of a stylesheet, leads to a parser of stylesheets or to
none. -/
theorem Registry.routed_of_extension {imageExtensions : List String} {filename : String}
    {parser : Parser}
    (hextension : extensionOf filename = [] ∨
      String.ofList (extensionOf filename) ∈ stylesheetExtensions)
    (hrouted : (Registry.create imageExtensions).parser? filename = some parser) :
    ∃ dialect, parser = .stylesheets dialect := by
  have hhandles : ∀ p : Parser,
      p.handles filename = p.extensions.contains (String.ofList (extensionOf filename)) :=
    fun _ => rfl
  rw [create] at hrouted
  simp only [parser?_cons, hhandles] at hrouted
  have hcases : String.ofList (extensionOf filename) ∈ "" :: stylesheetExtensions :=
    List.mem_cons.mpr (hextension.imp_left fun hnone => congrArg String.ofList hnone)
  generalize String.ofList (extensionOf filename) = extension at hcases hrouted
  rcases List.mem_cons.mp hcases with rfl | hstylesheet
  · have himages : ¬ (Parser.ofImages imageExtensions).extensions.contains "" = true := by
      rw [List.contains_iff_mem]
      intro hmem
      obtain ⟨extension, -, hdotted⟩ := List.mem_map.mp hmem
      exact dotted_ne_empty extension hdotted
    rw [if_neg (by decide), if_neg (by decide), if_neg (by decide), if_neg (by decide),
      if_neg himages] at hrouted
    cases hrouted
  · have hlist : stylesheetExtensions = [".css", ".scss", ".less"] := rfl
    rw [hlist] at hstylesheet
    rcases hstylesheet with - | ⟨-, - | ⟨-, - | ⟨-, ⟨⟩⟩⟩⟩
    · rw [if_pos (by decide)] at hrouted
      cases hrouted
      exact ⟨_, rfl⟩
    · rw [if_neg (by decide), if_pos (by decide)] at hrouted
      cases hrouted
      exact ⟨_, rfl⟩
    · rw [if_neg (by decide), if_neg (by decide), if_pos (by decide)] at hrouted
      cases hrouted
      exact ⟨_, rfl⟩

/-! ## Loading -/

/-- A file that is a stylesheet or of no kind by its name and whose text lacks the opening word. -/
structure UnmarkedFile (file : SourceFile) : Prop where
  named : extensionOf file.filename = [] ∨ String.ofList (extensionOf file.filename) ∈
    stylesheetExtensions
  unmarked : ∀ text, file.text = .ok text → ¬ Stylesheet.openWord <:+: text

/-- What a file without a marker would contribute to a run holds no tokens. -/
theorem UnmarkedFile.yields [Image.Decoder] {file : SourceFile} (h : UnmarkedFile file)
    (imageExtensions : List String) :
    (Registry.create imageExtensions).Yields (fun e => e.tokenGroups = []) file := by
  intro parser hrouted
  obtain ⟨dialect, rfl⟩ := Registry.routed_of_extension h.named hrouted
  exact Stylesheet.extract_of_unmarked h.unmarked

/-- The extensions of stylesheets are none of those whose files are read as bytes. -/
def ReadsStylesheets (imageExtensions : List String) : Prop :=
  ∀ extension ∈ stylesheetExtensions, extension ∉ imageExtensions

/-- Whether what is read is text without the opening word. -/
def lacksMarker : Except Project.AccessFault (List UInt8) → Bool
  | .error _ => false
  | .ok bytes =>
    match Project.readText bytes with
    | .error _ => false
    | .ok text => !Text.occursIn Stylesheet.openWord text

/-- **What the requirement changes**: a stylesheet whose text lacks the opening word is left out. -/
theorem outcome_of_lacksMarker {imageExtensions : List String}
    (h : ReadsStylesheets imageExtensions)
    {extension : String} (hextension : extension ∈ stylesheetExtensions)
    {content : Except Project.AccessFault (List UInt8)} (hlacks : lacksMarker content = true)
    (name : String) :
    ∃ text, ¬ Stylesheet.openWord <:+: text ∧
      (LoadOptions.mk imageExtensions true).outcome name extension content = .unmarked name ∧
      (LoadOptions.mk imageExtensions false).outcome name extension content =
        .loaded ⟨name, .text (String.ofList text)⟩ := by
  have himage : ¬ imageExtensions.contains extension = true :=
    fun hmem => h extension hextension (List.contains_iff_mem.mp hmem)
  unfold lacksMarker at hlacks
  cases content with
  | error fault => cases hlacks
  | ok bytes =>
      unfold LoadOptions.outcome
      dsimp only at hlacks ⊢
      rw [if_neg himage, if_neg himage, List.contains_iff_mem.mpr hextension]
      cases htext : Project.readText bytes with
      | error fault =>
          rw [htext] at hlacks
          cases hlacks
      | ok text =>
          rw [htext] at hlacks
          dsimp only at hlacks ⊢
          refine ⟨text, fun hword => ?_, ?_, rfl⟩
          · rw [Text.occursIn_iff.mpr hword] at hlacks
            cases hlacks
          · rw [hlacks]
            rfl

/-- Nothing else is. -/
theorem outcome_of_marked {imageExtensions : List String} (h : ReadsStylesheets imageExtensions)
    {extension : String} {content : Except Project.AccessFault (List UInt8)}
    (hmarked : ¬ (extension ∈ stylesheetExtensions ∧ lacksMarker content = true)) (name : String) :
    (LoadOptions.mk imageExtensions true).outcome name extension content =
      (LoadOptions.mk imageExtensions false).outcome name extension content := by
  unfold LoadOptions.outcome
  dsimp only
  rw [Bool.true_and, Bool.false_and]
  by_cases hextension : extension ∈ stylesheetExtensions
  · have himage : ¬ imageExtensions.contains extension = true :=
      fun hmem => h extension hextension (List.contains_iff_mem.mp hmem)
    have hword : ¬ lacksMarker content = true := fun hlacks => hmarked ⟨hextension, hlacks⟩
    unfold lacksMarker at hword
    cases content with
    | error fault => rfl
    | ok bytes =>
        dsimp only at hword ⊢
        rw [if_neg himage, if_neg himage]
        cases htext : Project.readText bytes with
        | error fault => rfl
        | ok text =>
            rw [htext] at hword
            dsimp only at hword ⊢
            rw [Bool.eq_false_of_not_eq_true hword, Bool.and_false, Bool.false_and]
  · have hother : stylesheetExtensions.contains extension = false := by
      rw [List.contains_eq_mem, decide_eq_false hextension]
    rw [hother]

section

variable {imageExtensions : List String} {t : Tree} (project : String) {root? : Option Path}
  {read : Path → Except Project.AccessFault (List UInt8)}

/-- Whether a file is known from a root as one of another kind, where it leads to, and has no
marker. -/
def isLost (t : Tree) (root? : Option Path) (read : Path → Except Project.AccessFault (List UInt8))
    (path : Path) : Bool :=
  root?.isSome && isDiverted t path && lacksMarker (read path)

/-- The outcomes at a path with and without the requirement. -/
theorem outcomeAt_requiring (h : ReadsStylesheets imageExtensions) {path : Path}
    (hkept : isLost t root? read path = false) :
    let reader : Reader := ⟨t.displayName project root?, read⟩
    (LoadOptions.mk imageExtensions true).outcomeAt reader path =
        (LoadOptions.mk imageExtensions false).outcomeAt reader path ∨
      ∃ name file, UnmarkedFile file ∧
        (LoadOptions.mk imageExtensions true).outcomeAt reader path = .unmarked name ∧
        (LoadOptions.mk imageExtensions false).outcomeAt reader path = .loaded file := by
  dsimp only [LoadOptions.outcomeAt]
  cases hname : t.displayName project root? path with
  | error loop => exact .inl rfl
  | ok name =>
      dsimp only
      split
      · by_cases hlacks : extensionAt path ∈ stylesheetExtensions ∧ lacksMarker (read path) = true
        · obtain ⟨text, hword, hstrict, hlax⟩ := outcome_of_lacksMarker h hlacks.1 hlacks.2 name
          have hstays : root? ≠ none → isDiverted t path = false := by
            intro hsome
            simpa [isLost, Option.isSome_iff_ne_none.mpr hsome, hlacks.2] using hkept
          refine .inr ⟨name, _, ⟨extensionOf_displayName hstays hlacks.1 hname, ?_⟩, hstrict, hlax⟩
          intro text' htext
          have hfile : SourceFile.text ⟨name, .text (String.ofList text)⟩ = .ok text :=
            congrArg Except.ok String.toList_ofList
          cases hfile.symm.trans htext
          exact hword
        · exact .inl (outcome_of_marked h hlacks name)
      · exact .inl rfl

theorem exists_displayName_iff {path : Path} :
    (path.isPossible = true ∧ ∃ name, t.displayName project root? path = .ok name) ↔
      path.isPossible = true ∧ (root? ≠ none → ∃ place, t.resolve path = .ok place) := by
  refine and_congr_right fun hpossible => ?_
  unfold Tree.displayName
  cases root? with
  | none => simp
  | some root =>
      simp only [hpossible, if_true]
      cases t.resolve path <;> simp [Except.map]

/-- A file that is lost is left out for lack of a marker. -/
theorem outcomeAt_of_isLost (h : ReadsStylesheets imageExtensions) {path : Path}
    (hlost : isLost t root? read path = true) :
    ∃ name, (LoadOptions.mk imageExtensions true).outcomeAt ⟨t.displayName project root?, read⟩
      path = .unmarked name := by
  simp only [isLost, isDiverted, isStylesheet, Bool.and_eq_true, Option.any_eq_true,
    List.contains_iff_mem] at hlost
  obtain ⟨⟨-, ⟨hpossible, hextension⟩, place, hplace, -⟩, hlacks⟩ := hlost
  have hresolve : ∃ place, t.resolve path = .ok place := by
    cases hpath : t.resolve path with
    | error loop =>
        rw [hpath] at hplace
        cases hplace
    | ok place => exact ⟨place, rfl⟩
  obtain ⟨-, name, hname⟩ :=
    (exists_displayName_iff project).mpr ⟨hpossible, fun _ => hresolve⟩
  obtain ⟨-, -, hstrict, -⟩ := outcome_of_lacksMarker h hextension hlacks name
  refine ⟨name, ?_⟩
  dsimp only [LoadOptions.outcomeAt]
  rw [hname]
  dsimp only
  rw [if_pos hpossible, hstrict]

/-- **Requiring markers leaves out what is lost, stylesheets without the opening word, and nothing
else.** -/
theorem load_omits (h : ReadsStylesheets imageExtensions) (paths : List Path) :
    let reader : Reader := ⟨t.displayName project root?, read⟩
    let kept := paths.filter fun path => !isLost t root? read path
    (∃ fault, (LoadOptions.load ⟨imageExtensions, true⟩ reader paths).result = .error fault ∧
        (LoadOptions.load ⟨imageExtensions, false⟩ reader kept).result = .error fault) ∨
      ∃ fewer files,
        (LoadOptions.load ⟨imageExtensions, true⟩ reader paths).result = .ok fewer ∧
        (LoadOptions.load ⟨imageExtensions, false⟩ reader kept).result = .ok files ∧
        Omits UnmarkedFile fewer files := by
  intro reader
  induction paths with
  | nil => exact .inr ⟨[], [], rfl, rfl, .nil⟩
  | cons path paths hrest =>
      simp only [LoadOptions.load, List.map_cons] at hrest ⊢
      cases hlost : isLost t root? read path with
      | true =>
          obtain ⟨name, hstrict⟩ := outcomeAt_of_isLost project h hlost
          rw [List.filter_cons_of_neg (by rw [hlost]; decide), hstrict]
          exact hrest
      | false =>
          rw [List.filter_cons_of_pos (by rw [hlost]; rfl), List.map_cons]
          rcases outcomeAt_requiring project h hlost with
            hsame | ⟨name, file, hunmarked, hstrict, hlax⟩
          · rw [hsame]
            cases (LoadOptions.mk imageExtensions false).outcomeAt reader path with
            | loaded file =>
                simp only [Project.loadedFiles]
                rcases hrest with ⟨fault, hstrict, hlax⟩ | ⟨fewer, files, hstrict, hlax, homits⟩
                · rw [hstrict, hlax]
                  exact .inl ⟨fault, rfl, rfl⟩
                · rw [hstrict, hlax]
                  exact .inr ⟨_, _, rfl, rfl, homits.keep file⟩
            | unreadable name reason => exact hrest
            | unmarked name => exact hrest
            | givenUp fault => exact .inl ⟨fault, rfl, rfl⟩
          · rw [hstrict, hlax]
            simp only [Project.loadedFiles]
            rcases hrest with ⟨fault, hstrict, hlax⟩ | ⟨fewer, files, hstrict, hlax, homits⟩
            · rw [hlax]
              exact .inl ⟨fault, hstrict, rfl⟩
            · rw [hlax]
              exact .inr ⟨_, _, hstrict, rfl, homits.leave hunmarked⟩

end

/-- The tokens of the files at paths, with their names from a root if there is one. -/
def tokensAt [Image.Decoder] (registered : List String) (options : LoadOptions) (t : Tree)
    (project : String)
    (root? : Option Path) (read : Path → Except Project.AccessFault (List UInt8))
    (paths : List Path) :
    Except Project.LoadFault (List TokenGroup) :=
  (options.loadFrom t project root? read paths).result.map fun files =>
    ((Registry.create registered).catalog files).tokenGroups

section

variable {imageExtensions : List String} {t : Tree} {project : String} {root? : Option Path}
  {read : Path → Except Project.AccessFault (List UInt8)} {paths : List Path}

/-- Whatever the links, requiring markers leaves the tokens of the files that are not lost. -/
theorem tokensAt_requiring [Image.Decoder] (h : ReadsStylesheets imageExtensions)
    (registered : List String) (paths : List Path) :
    tokensAt registered ⟨imageExtensions, true⟩ t project root? read paths =
      tokensAt registered ⟨imageExtensions, false⟩ t project root? read
        (paths.filter fun path => !isLost t root? read path) := by
  rw [tokensAt, tokensAt]
  cases hroot : root?.mapM t.resolve with
  | error loop =>
      rw [LoadOptions.loadFrom, LoadOptions.loadFrom, hroot]
  | ok place? =>
      have hlost : isLost t root? read = isLost t place? read := by
        cases root? with
        | none =>
            cases hroot
            rfl
        | some root =>
            obtain ⟨place, -, rfl⟩ := exists_of_map_eq_ok hroot
            rfl
      rw [LoadOptions.loadFrom_eq t project root? read hroot,
        LoadOptions.loadFrom_eq t project root? read hroot, hlost]
      rcases load_omits project h paths with
        ⟨fault, hstrict, hlax⟩ | ⟨fewer, files, hstrict, hlax, homits⟩
      · rw [hstrict, hlax]
      · rw [hstrict, hlax]
        refine congrArg Except.ok (Registry.tokenGroups_omits (homits.mono fun file hfile => ?_))
        exact hfile.yields registered

/-- A path at which a batch is not given up. -/
theorem not_stops_iff (h : ReadsStylesheets imageExtensions) {reader : Reader} {path : Path}
    (requireSentinel : Bool) :
    (∀ fault, ¬ LoadOptions.Stops ⟨imageExtensions, requireSentinel⟩ reader path fault) ↔
      path.isPossible = true ∧ ∃ name, reader.name path = .ok name := by
  constructor
  · intro hnone
    cases hname : reader.name path with
    | error loop => exact absurd (.looping hname) (hnone _)
    | ok name =>
        refine ⟨?_, name, rfl⟩
        cases hpossible : path.isPossible with
        | true => rfl
        | false => exact absurd (.impossible hname hpossible) (hnone _)
  · rintro ⟨hpossible, name, hname⟩ fault hstops
    refine hstops.not_known ?_ name ⟨hname, hpossible⟩
    rintro ⟨-, hstylesheet, himage, -⟩
    exact h _ hstylesheet himage

/-- Tokens are loaded unless links lead to each other that must be followed, or nothing can be
looked for at a path. -/
theorem exists_tokensAt_iff [Image.Decoder] (h : ReadsStylesheets imageExtensions)
    (registered : List String) (requireSentinel : Bool) :
    (∃ groups, tokensAt registered ⟨imageExtensions, requireSentinel⟩ t project root? read paths =
        .ok groups) ↔
      (∃ place?, root?.mapM t.resolve = .ok place?) ∧
        ∀ path ∈ paths, path.isPossible = true ∧
          (root? ≠ none → ∃ place, t.resolve path = .ok place) := by
  cases hroot : root?.mapM t.resolve with
  | error loop =>
      rw [tokensAt, LoadOptions.loadFrom, hroot]
      refine iff_of_false ?_ ?_
      · rintro ⟨groups, h⟩
        cases h
      · rintro ⟨⟨place?, h⟩, -⟩
        cases h
  | ok place? =>
      have hsome : place? = none ↔ root? = none := by
        cases root? with
        | none =>
            cases hroot
            exact Iff.rfl
        | some root =>
            obtain ⟨place, -, rfl⟩ := exists_of_map_eq_ok hroot
            simp
      rw [tokensAt, LoadOptions.loadFrom_eq t project root? read hroot]
      simp only [exists_map_eq_ok_iff, LoadOptions.exists_load_iff, not_stops_iff h,
        exists_displayName_iff, ne_eq, hsome]
      exact (and_iff_right ⟨place?, rfl⟩).symm

end

def twoStylesheets : Tree :=
  (Project.Layout.ofPaths [["p".toList, "a.css".toList], ["p".toList, "b.css".toList]] []).tree
    "/p".toList ["p".toList]

/-- What they hold; the second one has a marker. -/
def twoTexts (path : Path) : Except Project.AccessFault (List UInt8) :=
  .ok (Utf8.encode
    (if path = ["a.css".toList] then "p \x7b --a: red \x7d".toList
      else "/* @tokens Brand */ p \x7b --b: blue \x7d".toList))

/-- A project in which the path of a stylesheet leads to an icon. -/
def linkedIcon : Tree :=
  Project.Layout.tree
    { Project.Layout.ofPaths [["p".toList, "icons.svg".toList]] [] with
      links := [(["p".toList, "theme.css".toList], some ["p".toList, "icons.svg".toList])] }
    "/p".toList ["p".toList]

/-- Below a root, the icon at the path of a stylesheet is lost if markers are required. -/
example :
    let tokens (requireSentinel : Bool) : Except Project.LoadFault (List TokenGroup) :=
      tokensAt Parser.imageExtensions ⟨Parser.imageExtensions, requireSentinel⟩ linkedIcon "/p"
        (some []) (fun _ => .ok (Utf8.encode "<svg><symbol id=\"a\"/></svg>".toList))
          [["theme.css".toList]]
    (tokens true).map List.length = .ok 0 ∧ (tokens false).map List.length = .ok 1 := by
  decide +kernel

end TokenCatalog
