import TokenCatalog.Project.Disk
import TokenCatalog.Project.Load
import TokenCatalog.Proofs.Text.Search
import TokenCatalog.Settings.Check

/-!
# Loading a batch

Files are loaded one by one: what becomes of a path does not depend on the others. There are three
ways in which the whole batch is given up: at a path whose links lead to each other, at one at which
nothing can be looked for, and at a stylesheet whose extension is also one of raster files, if a
marker is required. Main statements:

* `LoadOptions.becomes_outcomeAt`: what becomes of a single path;
* `LoadOptions.load_cases`: a batch is loaded as a whole, or given up at its first path of any of
  these kinds;
* `LoadOptions.load_returns`: when a batch is loaded, what it yields, and when it is given up.
-/

namespace TokenCatalog.Project

/-! ## Outcomes -/

def Outcome.file? : Outcome → Option SourceFile
  | .loaded file => some file
  | _ => none

theorem loadedFiles_cons {outcome : Outcome} (h : outcome.goesOn = true) (outcomes : List Outcome) :
    loadedFiles (outcome :: outcomes) = (loadedFiles outcomes).map (outcome.file?.toList ++ ·) := by
  have hmap : ∀ answer : Except LoadFault (List SourceFile),
      answer.map (none.toList ++ ·) = answer := by
    rintro (fault | files) <;> rfl
  cases outcome with
  | loaded file => rfl
  | unreadable name reason => exact (hmap _).symm
  | unmarked name => exact (hmap _).symm
  | givenUp fault => cases h

theorem loadRecords_cons {outcome : Outcome} (h : outcome.goesOn = true) (outcomes : List Outcome) :
    loadRecords (outcome :: outcomes) = outcome.record?.toList ++ loadRecords outcomes := by
  rw [loadRecords, List.takeWhile_cons_of_pos h, List.filterMap_cons]
  cases outcome.record? <;> rfl

/-! ## Single paths -/

namespace LoadOptions

variable (options : LoadOptions) (reader : Reader) (path : Path)

/-- What the file at a path holds: bytes if the extension is one of raster files, or else the text
that the bytes encode. There is nothing if the bytes cannot be read or encode no text. -/
def contentAt? : Option Content :=
  match reader.read path with
  | .error _ => none
  | .ok bytes =>
    if extensionAt path ∈ options.imageExtensions then some (.bytes bytes)
    else
      match readText bytes with
      | .error _ => none
      | .ok text => some (.text (String.ofList text))

/-- A stylesheet whose text lacks the opening word of markers, while markers are required. -/
def Unmarked : Prop :=
  options.requireSentinel = true ∧ extensionAt path ∈ stylesheetExtensions ∧
    ∃ text, options.contentAt? reader path = some (.text text) ∧
      ¬ Stylesheet.openWord <:+: text.toList

/-- A stylesheet that can be read and has an extension of raster files, while markers are
required. -/
def Unsearchable : Prop :=
  options.requireSentinel = true ∧ extensionAt path ∈ stylesheetExtensions ∧
    extensionAt path ∈ options.imageExtensions ∧ ∃ bytes, reader.read path = .ok bytes

/-- A path that has a name and at which something can be looked for. -/
structure Known (name : String) : Prop where
  named : reader.name path = .ok name
  possible : path.isPossible = true

/-- What a batch is given up at. -/
inductive Stops : LoadFault → Prop
  | looping {loop : Looping} (h : reader.name path = .error loop) : Stops (.looping loop)
  | impossible {name : String} (hname : reader.name path = .ok name)
      (h : path.isPossible = false) : Stops .impossible
  | unsearchable {name : String} (hknown : Known reader path name)
      (h : options.Unsearchable reader path) : Stops .unsearchable

inductive Becomes : Outcome → Prop
  | unreadable {name : String} (hknown : Known reader path name) (reason : List Char)
      (hcontent : options.contentAt? reader path = none) : Becomes (.unreadable name reason)
  | unmarked {name : String} (hknown : Known reader path name)
      (h : options.Unmarked reader path) : Becomes (.unmarked name)
  | loaded {name : String} (hknown : Known reader path name) (content : Content)
      (hcontent : options.contentAt? reader path = some content)
      (hmarked : ¬ options.Unmarked reader path) (hsearch : ¬ options.Unsearchable reader path) :
      Becomes (.loaded ⟨name, content⟩)
  | givenUp {fault : LoadFault} (h : options.Stops reader path fault) : Becomes (.givenUp fault)

theorem unmarked_iff {text : List Char}
    (hcontent : options.contentAt? reader path = some (.text (String.ofList text))) :
    options.Unmarked reader path ↔
      (options.requireSentinel && stylesheetExtensions.contains (extensionAt path) &&
        !Text.occursIn Stylesheet.openWord text) = true := by
  rw [Bool.and_eq_true, Bool.and_eq_true, List.contains_iff_mem, Bool.not_eq_true',
    ← Bool.not_eq_true, Text.occursIn_iff, and_assoc]
  refine and_congr_right fun _ => and_congr_right fun _ => ?_
  constructor
  · rintro ⟨text', htext', hlacks⟩
    cases hcontent.symm.trans htext'
    rwa [String.toList_ofList] at hlacks
  · exact fun hlacks => ⟨_, hcontent, by rwa [String.toList_ofList]⟩

theorem unsearchable_iff {bytes : List UInt8} (hread : reader.read path = .ok bytes)
    (himage : extensionAt path ∈ options.imageExtensions) :
    options.Unsearchable reader path ↔
      (options.requireSentinel && stylesheetExtensions.contains (extensionAt path)) = true := by
  rw [Bool.and_eq_true, List.contains_iff_mem]
  refine and_congr_right fun _ => and_iff_left ?_
  exact ⟨himage, bytes, hread⟩

/-- What becomes of a path that has a name and at which something can be looked for. -/
theorem becomes_outcome {name : String} (hknown : Known reader path name) :
    options.Becomes reader path (options.outcome name (extensionAt path) (reader.read path)) := by
  unfold outcome
  dsimp only
  cases hread : reader.read path with
  | error fault => exact .unreadable hknown _ (by rw [contentAt?, hread])
  | ok bytes =>
      dsimp only
      -- bytes are only searched for a marker if the extension is one of stylesheets too
      by_cases himage : extensionAt path ∈ options.imageExtensions
      · have hcontent : options.contentAt? reader path = some (.bytes bytes) := by
          simp [contentAt?, hread, himage]
        rw [if_pos (List.contains_iff_mem.mpr himage)]
        split
        · next hsearched =>
            exact .givenUp (.unsearchable hknown
              ((unsearchable_iff options reader path hread himage).mpr hsearched))
        · next hsearched =>
            refine .loaded hknown _ hcontent ?_
              fun h => hsearched ((unsearchable_iff options reader path hread himage).mp h)
            rintro ⟨-, -, text, htext, -⟩
            cases hcontent.symm.trans htext
      · rw [if_neg fun hraster => himage (List.contains_iff_mem.mp hraster)]
        cases hdecoded : readText bytes with
        | error fault => exact .unreadable hknown _ (by simp [contentAt?, hread, himage, hdecoded])
        | ok text =>
            have hcontent : options.contentAt? reader path = some (.text (String.ofList text)) := by
              simp [contentAt?, hread, himage, hdecoded]
            dsimp only
            split
            · next hlacks =>
                exact .unmarked hknown ((unmarked_iff options reader path hcontent).mpr hlacks)
            · next hmarked =>
                exact .loaded hknown _ hcontent
                  (fun h => hmarked ((unmarked_iff options reader path hcontent).mp h))
                  fun hsearch => himage hsearch.2.2.1

/-- **What becomes of a single path.** -/
theorem becomes_outcomeAt : options.Becomes reader path (options.outcomeAt reader path) := by
  rw [outcomeAt]
  cases hname : reader.name path with
  | error loop => exact .givenUp (.looping hname)
  | ok name =>
      dsimp only
      split
      · next hpossible => exact becomes_outcome options reader path ⟨hname, hpossible⟩
      · next himpossible => exact .givenUp (.impossible hname (Bool.not_eq_true _ ▸ himpossible))

variable {options reader path}

theorem Stops.not_known {fault : LoadFault} (h : options.Stops reader path fault)
    (hsearch : ¬ options.Unsearchable reader path) (name : String) : ¬ Known reader path name := by
  intro hknown
  cases h with
  | looping h => cases hknown.named.symm.trans h
  | impossible _ h => cases hknown.possible.symm.trans h
  | unsearchable _ h => exact hsearch h

/-- The batch is given up where it must be, and nowhere else. -/
theorem Becomes.goesOn_iff {outcome : Outcome} (h : options.Becomes reader path outcome) :
    outcome.goesOn = true ↔ ∀ fault, ¬ options.Stops reader path fault := by
  cases h with
  | @unreadable name hknown reason hcontent =>
      refine iff_of_true rfl fun fault hstops => hstops.not_known ?_ name hknown
      rintro ⟨-, -, himage, bytes, hread⟩
      simp [contentAt?, hread, himage] at hcontent
  | @unmarked name hknown h =>
      refine iff_of_true rfl fun fault hstops => hstops.not_known ?_ name hknown
      rintro ⟨-, -, himage, bytes, hread⟩
      obtain ⟨-, -, text, hcontent, -⟩ := h
      simp [contentAt?, hread, himage] at hcontent
  | @loaded name hknown content hcontent hmarked hsearch =>
      exact iff_of_true rfl fun fault hstops => hstops.not_known hsearch name hknown
  | givenUp h => exact iff_of_false Bool.false_ne_true fun hnone => hnone _ h

/-! ## Batches -/

variable (options reader) in
/-- **A batch**: the files that are kept with what they hold, in the order of the paths, and the
records: one warning for each path that cannot be read, one remark for each stylesheet without a
marker, and nothing for the others. -/
inductive Loads : List Path → List SourceFile → List Log.Record → Prop
  | done : Loads [] [] []
  | keep {path paths name files records content} (hname : reader.name path = .ok name)
      (hcontent : options.contentAt? reader path = some content)
      (hmarked : ¬ options.Unmarked reader path) (h : Loads paths files records) :
      Loads (path :: paths) (⟨name, content⟩ :: files) records
  | skip {path paths name files records} (hname : reader.name path = .ok name)
      (hcontent : options.contentAt? reader path = none) (reason : String)
      (h : Loads paths files records) :
      Loads (path :: paths) files
        ({ level := .warning, message := "Could not read " ++ name ++ ": " ++ reason } :: records)
  | drop {path paths name files records} (hname : reader.name path = .ok name)
      (hunmarked : options.Unmarked reader path) (h : Loads paths files records) :
      Loads (path :: paths) files
        ({ level := .debug
           message := "Skipping " ++ name ++ ": no " ++ String.ofList Stylesheet.openWord ++
             " marker" } :: records)

/-- A batch of one more path at which the batch is not given up. -/
theorem Becomes.loads {outcome : Outcome} (h : options.Becomes reader path outcome)
    (hgoesOn : outcome.goesOn = true) {paths : List Path} {files : List SourceFile}
    {records : List Log.Record} (hrest : Loads options reader paths files records) :
    Loads options reader (path :: paths) (outcome.file?.toList ++ files)
      (outcome.record?.toList ++ records) := by
  cases h with
  | unreadable hknown reason hcontent =>
      exact .skip hknown.named hcontent (String.ofList reason) hrest
  | unmarked hknown h => exact .drop hknown.named h hrest
  | loaded hknown content hcontent hmarked hsearch =>
    exact .keep hknown.named hcontent hmarked hrest
  | givenUp h => cases hgoesOn

/-- **One step**: the batch goes on with the other paths, or is given up. -/
theorem load_cons (path : Path) (paths : List Path) :
    let outcome := options.outcomeAt reader path
    (outcome.goesOn = true ∧ options.load reader (path :: paths) =
        ⟨outcome.record?.toList ++ (options.load reader paths).records,
          (options.load reader paths).result.map (outcome.file?.toList ++ ·)⟩) ∨
      ∃ fault, outcome = .givenUp fault ∧
        options.load reader (path :: paths) = ⟨[], .error fault⟩ := by
  simp only [load, List.map_cons]
  by_cases hgoesOn : (options.outcomeAt reader path).goesOn = true
  · rw [loadRecords_cons hgoesOn, loadedFiles_cons hgoesOn]
    exact .inl ⟨hgoesOn, rfl⟩
  · obtain ⟨fault, houtcome⟩ : ∃ fault, options.outcomeAt reader path = .givenUp fault := by
      cases houtcome : options.outcomeAt reader path with
      | givenUp fault => exact ⟨fault, rfl⟩
      | _ => exact absurd (by rw [houtcome]; rfl) hgoesOn
    rw [houtcome]
    exact .inr ⟨fault, rfl, rfl⟩

variable (options reader) in
/-- **A batch is loaded as a whole, or given up at the first path that it is given up at.** -/
theorem load_cases (paths : List Path) :
    (∃ files, (options.load reader paths).result = .ok files ∧
        Loads options reader paths files (options.load reader paths).records ∧
        ∀ path ∈ paths, ∀ fault, ¬ options.Stops reader path fault) ∨
      ∃ fault front path back files, (options.load reader paths).result = .error fault ∧
        paths = front ++ path :: back ∧ options.Stops reader path fault ∧
        Loads options reader front files (options.load reader paths).records := by
  induction paths with
  | nil => exact .inl ⟨[], rfl, .done, nofun⟩
  | cons path paths ih =>
      have hbecomes := becomes_outcomeAt options reader path
      rcases load_cons path paths with ⟨hgoesOn, hload⟩ | ⟨fault, houtcome, hload⟩
      · rw [hload]
        rcases ih with ⟨files, hresult, hloads, hall⟩ |
          ⟨fault, front, stop, back, files, hresult, rfl, hstops, hloads⟩
        · have hmore := hbecomes.loads hgoesOn hloads
          rw [hresult]
          refine .inl ⟨_, rfl, hmore, ?_⟩
          exact List.forall_mem_cons.mpr ⟨hbecomes.goesOn_iff.mp hgoesOn, hall⟩
        · have hmore := hbecomes.loads hgoesOn hloads
          rw [hresult]
          exact .inr ⟨fault, path :: front, stop, back, _, rfl, rfl, hstops, hmore⟩
      · rw [houtcome] at hbecomes
        rw [hload]
        cases hbecomes with
        | givenUp hstops => exact .inr ⟨fault, [], path, paths, [], rfl, rfl, hstops, .done⟩

/-! ## Files by themselves -/

variable (options reader path) in
/-- Whether the file at a path is kept. -/
def Kept : Prop :=
  (∃ content, options.contentAt? reader path = some content) ∧ ¬ options.Unmarked reader path

theorem Unmarked.exists_content (h : options.Unmarked reader path) :
    ∃ content, options.contentAt? reader path = some content := by
  obtain ⟨-, -, text, hcontent, -⟩ := h
  exact ⟨_, hcontent⟩

/-- The files that are kept are determined by the paths. -/
theorem Loads.files_unique {paths : List Path} {files files' : List SourceFile}
    {records records' : List Log.Record} (h : Loads options reader paths files records)
    (h' : Loads options reader paths files' records') : files = files' := by
  induction h generalizing files' records' with
  | done =>
      cases h'
      rfl
  | keep hname hcontent hmarked h ih =>
      cases h' with
      | keep hname' hcontent' hmarked' h' =>
          cases hname.symm.trans hname'
          cases hcontent.symm.trans hcontent'
          rw [ih h']
      | skip hname' hcontent' reason h' => cases hcontent.symm.trans hcontent'
      | drop hname' hunmarked h' => exact absurd hunmarked hmarked
  | skip hname hcontent reason h ih =>
      cases h' with
      | keep hname' hcontent' hmarked' h' => cases hcontent.symm.trans hcontent'
      | skip hname' hcontent' reason' h' => exact ih h'
      | drop hname' hunmarked h' =>
          obtain ⟨content, hcontent'⟩ := hunmarked.exists_content
          cases hcontent.symm.trans hcontent'
  | drop hname hunmarked h ih =>
      cases h' with
      | keep hname' hcontent' hmarked' h' => exact absurd hunmarked hmarked'
      | skip hname' hcontent' reason h' =>
          obtain ⟨content, hcontent⟩ := hunmarked.exists_content
          cases hcontent.symm.trans hcontent'
      | drop hname' hunmarked' h' => exact ih h'

/-- Without a path that is not kept, the others yield the same files. -/
theorem Loads.without {front back : List Path} (hkept : ¬ options.Kept reader path)
    {files : List SourceFile} {records : List Log.Record}
    (h : Loads options reader (front ++ path :: back) files records) :
    ∃ records', Loads options reader (front ++ back) files records' := by
  induction front generalizing files records with
  | nil =>
      cases h with
      | keep hname hcontent hmarked h => exact absurd ⟨⟨_, hcontent⟩, hmarked⟩ hkept
      | skip hname hcontent reason h => exact ⟨_, h⟩
      | drop hname hunmarked h => exact ⟨_, h⟩
  | cons first front ih =>
      cases h with
      | keep hname hcontent hmarked h =>
          obtain ⟨records', h'⟩ := ih h
          exact ⟨_, .keep hname hcontent hmarked h'⟩
      | skip hname hcontent reason h =>
          obtain ⟨records', h'⟩ := ih h
          exact ⟨_, .skip hname hcontent reason h'⟩
      | drop hname hunmarked h =>
          obtain ⟨records', h'⟩ := ih h
          exact ⟨_, .drop hname hunmarked h'⟩

theorem exists_load_iff {paths : List Path} :
    (∃ files, (options.load reader paths).result = .ok files) ↔
      ∀ path ∈ paths, ∀ fault, ¬ options.Stops reader path fault := by
  rcases load_cases options reader paths with ⟨files, hresult, -, hall⟩ |
    ⟨fault, front, stop, back, files, hresult, rfl, hstops, -⟩
  · exact iff_of_true ⟨files, hresult⟩ hall
  · refine iff_of_false ?_ fun hall => hall stop (by simp) fault hstops
    rintro ⟨files', hresult'⟩
    cases hresult.symm.trans hresult'

theorem loads_of_load {paths : List Path} {files : List SourceFile}
    (h : (options.load reader paths).result = .ok files) :
    Loads options reader paths files (options.load reader paths).records := by
  rcases load_cases options reader paths with ⟨files', hresult, hloads, -⟩ |
    ⟨fault, front, stop, back, files', hresult, -⟩
  · cases hresult.symm.trans h
    exact hloads
  · cases hresult.symm.trans h

/-- The paths of files that are left out make no difference to the others. -/
theorem load_without {front back : List Path} (hkept : ¬ options.Kept reader path)
    {files : List SourceFile}
    (h : (options.load reader (front ++ path :: back)).result = .ok files) :
    (options.load reader (front ++ back)).result = .ok files := by
  have hall := exists_load_iff.mp ⟨files, h⟩
  have hothers : ∀ other ∈ front ++ back, ∀ fault, ¬ options.Stops reader other fault := by
    intro other hother
    apply hall
    simp only [List.mem_append, List.mem_cons] at hother ⊢
    tauto
  obtain ⟨files', hfiles'⟩ := exists_load_iff.mpr hothers
  obtain ⟨records, hloads⟩ := (loads_of_load h).without hkept
  rw [hloads.files_unique (loads_of_load hfiles')]
  exact hfiles'

/-! ## Batches below a root -/

variable (t : Tree) (project : String) (root? : Option Path)
  (read : Path → Except AccessFault (List UInt8))

theorem loadFrom_eq {place? : Option Path} (h : root?.mapM t.resolve = .ok place?)
    (paths : List Path) :
    options.loadFrom t project root? read paths =
      options.load ⟨t.displayName project place?, read⟩ paths := by
  rw [loadFrom, h]

/-- A stylesheet with a marker, one without, one that encodes no text, and no other file. -/
def threeStylesheets (path : Path) : Except AccessFault (List UInt8) :=
  if path = ["a.css".toList] then .ok (Utf8.encode "/* @tokens A */".toList)
  else if path = ["b.css".toList] then .ok (Utf8.encode "/* B */".toList)
  else if path = ["c.css".toList] then .ok [0xFF]
  else .error ⟨.missing, String.ofList path.text⟩

/-- The tree of a project of three stylesheets and a link that leads to itself. -/
def threeAndLoop : Tree :=
  Layout.tree
    { Layout.ofPaths (["a.css", "b.css", "c.css"].map fun name => ["p".toList, name.toList]) [] with
      links := [(["p".toList, "e.css".toList], none)] }
    "/p".toList ["p".toList]

def rasterSettings (extension : String) : Except (List SettingFault) Settings :=
  Settings.check fun setting =>
    if setting = .imageExtensions then some (.arr [.str extension]) else none

def loadThree (s : Settings) (names : List String) : Loading :=
  loadFrom ⟨s.imageExtensions, s.requireSentinel⟩ threeAndLoop "/p" (some []) threeStylesheets
    (names.map fun name => [name.toList])

end LoadOptions

end TokenCatalog.Project
