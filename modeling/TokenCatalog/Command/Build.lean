import TokenCatalog.Command.Session
import TokenCatalog.Extraction.SourceDocument
import TokenCatalog.Project.Discover
import TokenCatalog.Project.Load

/-!
# Building a source document

The files of a project are discovered and loaded as its settings say, their tokens are extracted,
and the source document is written. What was found is told in a few lines.
-/

namespace TokenCatalog.Command

open Project (Host)

variable {m : Type → Type} [Monad m]

structure BuildChoice where
  project : List Char
  output? : Option (List Char) := none
  allStylesheets : Bool := false
  workers? : Option Nat := none

def BuildChoice.overrides (b : BuildChoice) (format? : Option Log.Format) : List (String × Json) :=
  [ (Setting.maxWorkers.name, (b.workers?.map fun n => Json.int n).getD .null),
    (Setting.requireSentinel.name, if b.allStylesheets then .bool false else .null),
    (Setting.logFormat.name, (format?.map fun f => Json.str f.word).getD .null) ]

def discoverMessage : Project.DiscoverFault → String
  | .ignoreList fault => String.ofList fault.message
  | .glob fault => fault.message
  | .access fault => String.ofList fault.message

def readConfigFile (host : Host m) (path : List Char) : m ConfigFile := do
  match ← host.kind? path with
  | none => return none
  | some _ => return some (← host.read path)

def loadFiles (host : Host m) (project : List Char) (tree : Project.Tree)
    (options : Project.LoadOptions) (paths : List Project.Path) : m Project.Loading := do
  let contents ← paths.mapM fun path => do
    return (path, ← host.read (Project.namesBelow project path))
  let read (path : Project.Path) : Except Project.AccessFault (List UInt8) :=
    (contents.lookup path).getD (.error ⟨.missing, String.ofList path.text⟩)
  return options.loadFrom tree (String.ofList project) (some []) read paths

/-! ## What is told -/

def counted (n : Nat) (what : String) : List Char :=
  digitsOfNat n ++ ' ' :: what.toList

/-- The lines about a catalog: its groups, and how many literals were found outside of tokens. -/
def catalogLines (t : Terminal) (catalog : Catalog) : Output :=
  (SourceType.all.flatMap fun type =>
    match catalog.group? type with
    | some group =>
      t.status .info
        ((SourceDocument.key type).toList ++ ": ".toList ++ counted group.tokens.length "tokens")
    | none => []) ++
    match catalog.hardCodedValues.length with
    | 0 => []
    | n => t.status .warning (counted n "hard-coded values found")

def elapsed (start stop : Binary64) : Binary64 :=
  (stop.sub start).mul (.ofInt 1000)

/-! ## The command -/

def build [Image.Decoder] (host : Host m) (s : Surroundings) (c : CommonChoice) (b : BuildChoice) :
    Run m Unit := do
  let t := c.terminal
  let fail {α : Type} (p : Problem) : Run m α := fail s t p
  let unforeseen {α : Type} (message : String) : Run m α := fail (.unforeseen message t.verbose)
  let path := Project.normalPath b.project
  if (← host.kind? path) != some .folder then fail (.projectNotFound (String.ofList path))
  let project ← host.fullPath path
  let configPath := Project.pathBelow project configFilename.toList
  let configFile ← (readConfigFile host configPath : m _)
  log host (Settings.loadWarnings (String.ofList configPath) configFile)
  let settings ← match Settings.load configFile s.environment (b.overrides c.logFormat?) with
    | .ok settings => pure settings
    | .error fault =>
      fail (.ofSettings (configFile.map fun _ => String.ofList configPath) t.verbose fault)
  setHandlers (c.logOptions settings.logLevel settings.logFormat)
  let start ← host.seconds
  let tree ← host.tree project
  let paths ← match tree.discover settings.tokenGlob settings.ignorePatterns with
    | .ok paths => pure paths
    | .error fault => unforeseen (discoverMessage fault)
  let options : Project.LoadOptions := ⟨settings.imageExtensions, settings.requireSentinel⟩
  let loading ← (loadFiles host project tree options paths : m _)
  log host loading.records
  let files ← match loading.result with
    | .ok files => pure files
    | .error fault => unforeseen fault.message
  say (t.debug
    ("Discovered ".toList ++ counted paths.length "files, loaded " ++ digitsOfNat files.length))
  let registry := Registry.create settings.imageExtensions
  log host (registry.warnings files)
  let document := SourceDocument.build registry files
  let target := (b.output?.map Project.normalPath).getD
    (Project.pathBelow project settings.outputFilename.toList)
  -- the file is opened, and so emptied, before its text is encoded
  let saved := SourceDocument.save registry files
  match ← host.write target (saved.toOption.getD []) with
  | .ok () => pure ()
  | .error fault => fail (.outputWrite (String.ofList target) (String.ofList fault.message))
  let bytes ← match saved with
    | .ok bytes => pure bytes
    | .error fault => unforeseen fault.message
  log host [⟨.info, "Wrote token source document to " ++ String.ofList target, []⟩]
  let stop ← host.seconds
  match SourceDocument.catalog document with
  | .error fault => unforeseen fault.message
  | .ok catalog =>
    say (t.status .success
      ("Wrote ".toList ++ target ++ " (".toList ++ counted bytes.length "bytes" ++ [')']))
    say (catalogLines t catalog)
    say (t.summary paths.length files.length (paths.length - files.length)
      (some (durationText (elapsed start stop))))

end TokenCatalog.Command
