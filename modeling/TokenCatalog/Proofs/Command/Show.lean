import TokenCatalog.Project.Disk
import TokenCatalog.Proofs.Command.Run
import TokenCatalog.Proofs.Command.Table
import TokenCatalog.Proofs.Extraction.Contained
import TokenCatalog.Proofs.Extraction.SourceDocument

/-!
# Showing documents of any content

A command line that shows a document looks at the place of the document and reads it once; all else
is a function of the bytes. Main statements:

* `readCatalog_eq_error`: whatever stands in the way is a problem of the source document;
* `showable_of_isText`: a catalog whose keyframes are text fits into its tables;
* `run_call`: a whole run in terms of what the host says;
* `documents_contained`: what objects of any shape and documents of any content come to.
-/

namespace TokenCatalog.Command

open Project (AccessFault Disk Host Kind normalPath)
open SourceDocument (kept?)

variable {m : Type → Type} [Monad m] [LawfulMonad m]

/-! ## Reading -/

/-- A catalog that can be shown in tables: a cell in each row for each of the four headers, and
keyframes that have lines. -/
structure Showable (catalog : Catalog) : Prop where
  tokens : ∀ group ∈ catalog.tokenGroups, tableFault? 4 (group.tokens.map tokenRow) = none
  literals : tableFault? 4 (catalog.hardCodedValues.map literalRow) = none
  keyframes : catalog.keyframes.isText

theorem showable_of_isText {catalog : Catalog} (h : catalog.keyframes.isText) :
    Showable catalog where
  tokens group _ := tableFault?_eq_none (by simp [tokenRow])
  literals := tableFault?_eq_none (by simp [literalRow])
  keyframes := h

theorem hasMembers_of_load {bytes : List UInt8} {document : Json}
    (h : SourceDocument.load bytes = .ok document) : document.HasMembers := by
  unfold SourceDocument.load at h
  split at h
  · cases h
  · dsimp only at h
    split at h
    · cases h
    · cases h
      exact ⟨_, rfl⟩
    · cases h

/-- A document is read back if it can be read, loaded and merged. -/
theorem readCatalog_eq_ok {name : String} {verbose : Bool}
    {content : Except AccessFault (List UInt8)} {catalog : Catalog}
    (h : readCatalog name verbose content = .ok catalog) :
    ∃ bytes document, content = .ok bytes ∧ SourceDocument.load bytes = .ok document ∧
      SourceDocument.catalog document = .ok catalog := by
  obtain ⟨bytes, hbytes, h⟩ := exists_of_bind_eq_ok h
  obtain ⟨document, hdocument, h⟩ := exists_of_bind_eq_ok h
  exact ⟨bytes, document, eq_ok_of_mapError hbytes, eq_ok_of_mapError hdocument,
    eq_ok_of_mapError h⟩

/-- **Whatever stands in the way of a document is a problem of the source document.** -/
theorem readCatalog_eq_error {name : String} {verbose : Bool}
    {content : Except AccessFault (List UInt8)} {problem : Problem}
    (h : readCatalog name verbose content = .error problem) :
    ∃ message, problem = .sourceDocument message (some name) := by
  rcases bind_eq_error_iff.mp h with h | ⟨bytes, -, h⟩
  · obtain ⟨fault, -, rfl⟩ := exists_of_mapError_eq_error h
    exact ⟨_, rfl⟩
  rcases bind_eq_error_iff.mp h with h | ⟨document, hdocument, h⟩
  · obtain ⟨fault, -, rfl⟩ := exists_of_mapError_eq_error h
    exact ⟨_, rfl⟩
  obtain ⟨fault, hfault, rfl⟩ := exists_of_mapError_eq_error h
  have hmembers := hasMembers_of_load (eq_ok_of_mapError hdocument)
  obtain ⟨mistake, hmistake⟩ := SourceDocument.catalog_foreseen hmembers fault hfault
  cases fault with
  | noLookup value => cases hmistake
  | _ => exact ⟨_, rfl⟩

/-! ## Calls -/

/-- Whether an option before a command takes a value. Options that show something in the place of a
command, and the log file, are left out. -/
def CommonOption.takes : CommonOption → List Char → Bool
  | .verbose, _ => true
  | .quiet, _ => true
  | .noColor, _ => true
  | .logFormat, value => (formatOf? value).isSome
  | _, _ => false

def folderFault (names : List String) (path : List Char) : UsageFault :=
  .invalid names
    ("File".toList ++ ' ' :: quotedChars path ++ " is a ".toList ++ "directory".toList ++ ['.'])

/-- The words by which a document is shown, and how they are read. -/
structure ShowCall where
  words : List (List Char)
  common : Arguments CommonOption
  rest : List (List Char)
  own : Arguments CommandOption
  source : List Char
  reads_common : commonGrammar.read words = .ok common
  takes_common : ∀ option ∈ common.options, option.takes ((common.value? option).getD [])
  not_both : ¬(common.has .quiet ∧ common.has .verbose)
  names_show : common.words = Subcommand.show.word.toList :: rest
  reads_own : Subcommand.show.grammar.read rest = .ok own
  takes_own : ∀ option ∈ own.options, option ∈ [.json, .hardCoded, .noHardCoded]
  names_source : own.words = [source]

namespace ShowCall

variable (call : ShowCall) (s : Surroundings)

def terminal : Terminal := (commonChoice s call.common).terminal

def choice : ShowChoice where
  source := call.source
  asJson := call.own.has .json
  hardCoded := call.own.last? [.hardCoded, .noHardCoded] != some .noHardCoded

/-- The name of the document. -/
def name : String := String.ofList (normalPath call.source)

/-- A catalog as it is shown. -/
def rendering (catalog : Catalog) : Output :=
  if call.choice.asJson then s.piece .out (catalog.toJson.writeIndented .unicode 0 ++ ['\n'])
  else catalogTables (call.terminal s) catalog call.choice.hardCoded

/-- A problem as it is told of. -/
def complaint (problem : Problem) : Output :=
  let trace? := if (call.terminal s).verbose then some (s.trace problem) else none
  s.piece .err (problem.report (call.terminal s).color trace? ++ ['\n'])

/-- What is left behind by showing a document of a content. -/
def report (content : Except AccessFault (List UInt8)) : Report :=
  match readCatalog call.name (call.terminal s).verbose content with
  | .ok catalog => ⟨call.rendering s catalog, 0, none⟩
  | .error problem => ⟨call.complaint s problem, problem.exitCode, none⟩

/-- What is left behind if there is a folder in the place of the document. -/
def folderReport : Report :=
  ⟨s.piece .err ((folderFault [Subcommand.show.argument] call.source).report (some .show)), 2, none⟩

end ShowCall

/-! ## Runs -/

variable (host : Host m) (s : Surroundings) (call : ShowCall)

omit [LawfulMonad m] in
theorem checkCommonOption_of_takes {option : CommonOption} {value : List Char}
    (h : option.takes value) : checkCommonOption host s option value = pure () := by
  cases option with
  | logFormat => simp [checkCommonOption, show (formatOf? value).isSome from h]
  | version | logFile | help => cases h
  | verbose | quiet | noColor => rfl

theorem readCommon_call : readCommon host s call.words = pure call.common := by
  have hshown : call.common.options.find? [.version, .help].contains = none := by
    rw [List.find?_eq_none]
    intro option hoption hshown
    have htakes := call.takes_common option hoption
    simp only [List.contains_eq_mem, List.mem_cons, List.not_mem_nil, or_false,
      decide_eq_true_eq] at hshown
    rcases hshown with rfl | rfl <;> cases htakes
  have hchecks := forM_eq_pure (m := m) fun option hoption =>
    checkCommonOption_of_takes host s (call.takes_common option hoption)
  rw [readCommon, readWords_of_read call.reads_common, pure_bind, hshown]
  simp only [pure_bind, hchecks]

omit [LawfulMonad m] in
theorem checkOption_of_takes {option : CommandOption}
    (h : option ∈ [.json, .hardCoded, .noHardCoded]) (value : List Char) :
    checkOption host s .show option value = pure () := by
  simp only [List.mem_cons, List.not_mem_nil, or_false] at h
  rcases h with rfl | rfl | rfl <;> rfl

theorem runWords_call [Image.Decoder] :
    runWords host s call.words = (do
      let c := commonChoice s call.common
      setHandlers (c.logOptions .info (c.logFormat?.getD .text))
      runCommand host s c .show call.rest) := by
  have hwords : call.words.isEmpty = false := by
    cases hwords : call.words with
    | nil =>
        have hcommon : ({} : Arguments CommonOption) = call.common :=
          Except.ok.inj (hwords ▸ call.reads_common)
        have hnames := call.names_show
        rw [← hcommon] at hnames
        cases hnames
    | cons word words => rfl
  have hname : Subcommand.ofWord? Subcommand.show.word.toList = some .show := rfl
  have hmode : ¬((commonChoice s call.common).terminal.quiet &&
      (commonChoice s call.common).terminal.verbose) := by
    simpa [commonChoice] using call.not_both
  unfold runWords
  simp only [hwords, readCommon_call, pure_bind, call.names_show, hname, hmode]
  rfl

theorem runCommand_call [Image.Decoder] (c : CommonChoice) :
    runCommand host s c .show call.rest = (do
      checkPath host s (some .show) [Subcommand.show.argument] .file call.source
      showDocument host s c call.choice) := by
  have hhelp : call.own.has .help = false := by
    rw [Bool.eq_false_iff]
    intro hhas
    have htakes := call.takes_own .help (mem_options_of_has hhas)
    simp at htakes
  have hchecks := forM_eq_pure (m := m) fun option hoption =>
    checkOption_of_takes host s (call.takes_own option hoption)
      ((call.own.value? option).getD [])
  unfold runCommand
  rw [readWords_of_read call.reads_own, pure_bind]
  simp only [hhelp, hchecks, readArgument, call.names_source, pure_bind, bind_assoc,
    Bool.false_eq_true, if_false, List.isEmpty_nil, Bool.not_true]
  rfl

theorem on_checkFile (command? : Option Subcommand) (names : List String) (path : List Char)
    (session : Session) :
    Run.on (checkPath host s command? names .file path) session =
      host.kind? path >>= fun kind? =>
        Run.on (if kind? = some .folder then refuse s command? (folderFault names path)
          else pure ()) session := by
  unfold checkPath
  rw [on_ask_bind]
  congr 1
  funext kind?
  rcases kind? with _ | _ | _ <;> rfl

theorem report_showDocument {session : Session} (h : session.output = []) :
    Run.report <$> Run.on (showDocument host s (commonChoice s call.common) call.choice) session =
      host.read (normalPath call.source) >>= fun content => pure (call.report s content) := by
  have hname : String.ofList (normalPath call.choice.source) = call.name := rfl
  have hterminal : (commonChoice s call.common).terminal = call.terminal s := rfl
  unfold showDocument
  rw [on_ask_bind, map_bind]
  congr 1
  funext content
  simp only [hname, hterminal, ShowCall.report]
  cases readCatalog call.name (call.terminal s).verbose content with
  | error problem =>
      simp only [fail, failWith, on_finish, map_pure, Run.report, h, List.nil_append]
      rfl
  | ok catalog =>
      simp only [ShowCall.rendering]
      split
      · simp only [on_say, map_pure, Run.report, h, List.nil_append]
      · simp only [on_say, map_pure, Run.report, h, List.nil_append]

/-- Showing a document is one look at its place and one reading of it. -/
theorem run_call [Image.Decoder] :
    run host s call.words = (do
      if (← host.kind? call.source) = some .folder then return call.folderReport s
      return call.report s (← host.read (normalPath call.source))) := by
  have hlog : call.common.value? .logFile = none := by
    rw [Option.eq_none_iff_forall_ne_some]
    intro value hvalue
    cases call.takes_common .logFile (mem_options_of_has (has_of_value? hvalue))
  rw [run_eq_map call.reads_common hlog, runWords_call, on_bind, setHandlers, on_modify, pure_bind]
  simp only [Run.after, runCommand_call, on_bind, on_checkFile, bind_assoc, map_bind]
  congr 1
  funext kind?
  by_cases hkind : kind? = some .folder
  · simp only [hkind, if_true, refuse, on_finish, pure_bind, map_pure]
    rfl
  · simp only [hkind, if_false, on_pure, pure_bind]
    exact report_showDocument host s call rfl

/-! ## Any document -/

/-- **Documents of any shape and content are contained.** An object has a catalog, or there is one
of three kinds of mistakes in it, and only the objects under the names of the source types count. A
command line that shows a document tells of a folder in its place, and else leaves behind what the
content says: the catalog of the document, which fits into its tables, and exit code 0, or a problem
of the source document and exit code 1. -/
theorem documents_contained [Image.Decoder] :
    (∀ members : List (Key × Json),
      (∃ catalog, SourceDocument.catalog (.obj members) = .ok catalog) ∨
        ∃ fault mistake, SourceDocument.catalog (.obj members) = .error fault ∧
          fault.mistake? = some mistake) ∧
      (∀ a b : List (Key × Json), (∀ type, kept? type (.obj a) = kept? type (.obj b)) →
        SourceDocument.catalog (.obj a) = SourceDocument.catalog (.obj b)) ∧
      (∀ {m : Type → Type} [Monad m] [LawfulMonad m] (host : Host m) (s : Surroundings)
        (call : ShowCall),
        run host s call.words = (do
          if (← host.kind? call.source) = some .folder then return call.folderReport s
          return call.report s (← host.read (normalPath call.source)))) ∧
      ∀ (s : Surroundings) (call : ShowCall) (content : Except AccessFault (List UInt8)),
        (∃ bytes document catalog, content = .ok bytes ∧
          SourceDocument.load bytes = .ok document ∧
          SourceDocument.catalog document = .ok catalog ∧ Showable catalog ∧
          call.report s content = ⟨call.rendering s catalog, 0, none⟩) ∨
        ∃ message, call.report s content =
          ⟨call.complaint s (.sourceDocument message (some call.name)), 1, none⟩ := by
  refine ⟨?_, ?_, fun host s call => run_call host s call, ?_⟩
  · intro members
    cases hcatalog : SourceDocument.catalog (.obj members) with
    | ok catalog => exact .inl ⟨catalog, rfl⟩
    | error fault =>
        obtain ⟨mistake, hmistake⟩ :=
          SourceDocument.catalog_foreseen ⟨members, rfl⟩ fault hcatalog
        exact .inr ⟨fault, mistake, rfl, hmistake⟩
  · intro a b hkept
    exact SourceDocument.catalog_congr ⟨a, rfl⟩ ⟨b, rfl⟩ hkept
  · intro s call content
    cases hread : readCatalog call.name (call.terminal s).verbose content with
    | ok catalog =>
        obtain ⟨bytes, document, hbytes, hload, hcatalog⟩ := readCatalog_eq_ok hread
        have hshowable := showable_of_isText (SourceDocument.isText_of_catalog hcatalog)
        have hreport : call.report s content = ⟨call.rendering s catalog, 0, none⟩ := by
          rw [ShowCall.report, hread]
        exact .inl ⟨bytes, document, catalog, hbytes, hload, hcatalog, hshowable, hreport⟩
    | error problem =>
        obtain ⟨message, rfl⟩ := readCatalog_eq_error hread
        refine .inr ⟨message, ?_⟩
        rw [ShowCall.report, hread]
        rfl

def quietJsonCall : ShowCall where
  words := ["-q".toList, "show".toList, "--json".toList, "a.json".toList]
  common := ⟨[(.quiet, [])], ["show".toList, "--json".toList, "a.json".toList]⟩
  rest := ["--json".toList, "a.json".toList]
  own := ⟨[(.json, [])], ["a.json".toList]⟩
  source := "a.json".toList
  reads_common := by rfl
  takes_common := by decide
  not_both := by decide
  names_show := by rfl
  reads_own := by rfl
  takes_own := by decide
  names_source := by rfl

def numberForGroups : Json :=
  record [("cssTokens", record [("tokenGroups", .int 1)])]

def diskOf (document : Json) : Disk where
  root := ['/']
  files := [(["a.json".toList], Utf8.encode (SourceDocument.write document))]

theorem numberForGroups_plain : numberForGroups.Plain := by
  refine record_plain (by simp) (List.forall_mem_singleton.mpr ?_)
  refine record_plain (by simp) (List.forall_mem_singleton.mpr ?_)
  exact .int 1

theorem documents_contained_numberForGroups :
    SourceDocument.catalog (.obj [(.text "svgTokens", .int 3), (.text "note", .null)]) =
        SourceDocument.catalog (.obj []) ∧
      ((run Disk.host {} quietJsonCall.words).run (diskOf numberForGroups)).1.exitCode = 1 := by
  obtain ⟨-, hcongr, hrun, hreport⟩ := documents_contained
  constructor
  · exact hcongr _ _ fun type => by cases type <;> rfl
  have hloaded := SourceDocument.load_write numberForGroups_plain
  rw [hrun]
  show (quietJsonCall.report {} (.ok _)).exitCode = 1
  rcases hreport {} quietJsonCall (.ok (Utf8.encode (SourceDocument.write numberForGroups))) with
    ⟨bytes, document, catalog, hbytes, hload, hcatalog, -⟩ | ⟨message, hreport⟩
  · cases hbytes
    cases hloaded.symm.trans hload
    cases hcatalog
  · rw [hreport]

end TokenCatalog.Command
