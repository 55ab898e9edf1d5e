import TokenCatalog.Command.Program
import TokenCatalog.Project.Disk

/-!
# The program on a machine

The host that the program runs on: its file system, its environment, its clock and its terminal.
-/

namespace TokenCatalog

open Project (AccessCause AccessFault Host Kind Layout Path Tree)

def accessCause : IO.Error → AccessCause
  | .noFileOrDirectory _ _ _ => .missing
  | .alreadyExists _ _ _ => .exists
  | .inappropriateType _ 21 _ => .isFolder
  | .inappropriateType _ _ _ => .notFolder
  | .permissionDenied _ 1 _ => .notPermitted
  | .permissionDenied _ _ _ => .denied
  | .invalidArgument _ 40 _ => .looping
  | e => .other 0 e.toString

def accessed {α : Type} (path : List Char) (action : IO α) : IO (Except AccessFault α) := do
  try return .ok (← action)
  catch e => return .error ⟨accessCause e, String.ofList path⟩

def kindAt (path : List Char) : IO (Option Kind) := do
  if path.isEmpty then return none
  try
    match (← (← IO.FS.realPath (String.ofList path)).metadata).type with
    | .dir => return some .folder
    | .file => return some .file
    | _ => return some .special
  catch _ => return none

/-- A layout with what lies below the folder at a place, and with what the links there lead to. -/
partial def layoutBelow (l : Layout) (place : Path) : IO Layout := do
  if l.isFolder place then return l
  let mut l := { l with folders := place :: l.folders }
  let folder ← IO.FS.realPath (String.ofList ('/' :: place.text))
  let some entries ← try some <$> folder.readDir catch _ => pure none
    | return { l with closed := place :: l.closed }
  for entry in entries do
    let next := place ++ [entry.fileName.toList]
    match (← entry.path.symlinkMetadata).type with
    | .dir => l ← layoutBelow l next
    | .file => l := { l with files := next :: l.files }
    | .symlink =>
      match ← accessed entry.fileName.toList (IO.FS.realPath entry.path) with
      | .ok path =>
        let target := Path.ofText path.toString.toList
        l := { l with links := (next, some target) :: l.links }
        if ← path.isDir then l ← layoutBelow l target
        else l := { l with files := target :: l.files }
      | .error fault =>
        -- a link to nothing leads to itself, where there is nothing
        let target? := if fault.cause = .looping then none else some next
        l := { l with links := (next, target?) :: l.links }
    | .other => pure ()
  return l

def treeBelow (folder : List Char) : IO Tree := do
  let place := Path.ofText (← IO.FS.realPath (String.ofList folder)).toString.toList
  return (← layoutBelow ⟨[], [], [], []⟩ place).tree folder place

/-- Writes a file and makes the folders that it lies in. Making them may fail at a file farther up,
which then is no folder. -/
def writeFile (path : List Char) (bytes : List UInt8) : IO (Except AccessFault Unit) := do
  let parent := Project.parentPath path
  match ← accessed parent (IO.FS.createDirAll (String.ofList parent)) with
  | .error fault =>
    let fartherUp := fault.cause == .exists && (← kindAt parent) != some .file
    return .error (if fartherUp then { fault with cause := .notFolder } else fault)
  | .ok () => accessed path (IO.FS.writeBinFile (String.ofList path) ⟨bytes.toArray⟩)

/-- The number of seconds between the beginning of 1970 and the start of the clock, taken from a new
file. -/
def clockStart : IO Binary64 := do
  let (_, path) ← IO.FS.createTempFile
  let time := (← path.metadata).modified
  IO.FS.removeFile path
  let milliseconds := time.sec * 1000 + time.nsec.toNat / 1000000 - (← IO.monoMsNow)
  return (Binary64.ofInt milliseconds).div (.ofInt 1000)

def machine (start : Binary64) : Host IO where
  kind? := kindAt
  fullPath path := do
    return (← IO.FS.realPath (String.ofList path)).toString.toList
  tree := treeBelow
  read path := accessed path do
    return (← IO.FS.readBinFile (String.ofList path)).toList
  write := writeFile
  seconds := do
    return start.add ((Binary64.ofInt (← IO.monoMsNow)).div (.ofInt 1000))

/-- The variables of the environment that the program looks at. -/
def variableNames : List String :=
  Setting.all.filterMap Setting.variable? ++ ["NO_COLOR", "FORCE_COLOR"]

def surroundings : IO Command.Surroundings := do
  let environment ← variableNames.filterMapM fun name => do
    return (← IO.getEnv name).map fun value => (name, value)
  let outIsTerminal ← (← IO.getStdout).isTty
  let errIsTerminal ← (← IO.getStderr).isTty
  return {
    environment
    isTerminal := outIsTerminal
    keepsColors := fun
      | .out => outIsTerminal
      | .err => errIsTerminal }

def addToFile (path text : List Char) : IO Unit := do
  IO.FS.withFile (String.ofList path) .append fun handle => handle.putStr (String.ofList text)

end TokenCatalog

open TokenCatalog in
def main (words : List String) : IO UInt32 := do
  let report ← Command.run (machine (← clockStart)) (← surroundings) (words.map String.toList)
  for (stream, text) in report.output do
    match stream with
    | .out => (← IO.getStdout).putStr (String.ofList text)
    | .err => (← IO.getStderr).putStr (String.ofList text)
  if let some (path, text) := report.logFile? then addToFile path text
  return UInt32.ofInt report.exitCode
