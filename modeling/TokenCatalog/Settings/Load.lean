import TokenCatalog.Bytes.Utf8
import TokenCatalog.Json.Read
import TokenCatalog.Json.Write
import TokenCatalog.Project.Access
import TokenCatalog.Settings.Check
import TokenCatalog.Text.Lines

/-!
# Where settings come from

The value chosen for a setting is the one given for the run, or else the one in the environment, or
else the last one in the project's configuration file, under either spelling of its name. A value
for the run that is null and an empty text in the environment count as none. Other names in the file
are passed over with a warning.
-/

namespace TokenCatalog

def configFilename : String := "design-tokens.config.json"

def Setting.variable? : Setting → Option String
  | tokenGlob => some "DESIGN_TOKEN_GLOB"
  | logLevel => some "DESIGN_TOKEN_LOG_LEVEL"
  | _ => none

/-! ## Faults -/

inductive SettingsFault where
  | unreadable (fault : Project.AccessFault)
  | undecodable (fault : Utf8.Fault)
  /-- The text of the configuration file is not JSON. -/
  | malformed (text : List Char) (fault : JsonFault)
  /-- A whole number in the configuration file is not read, having too many digits. -/
  | tooManyDigits (count : Nat)
  /-- The configuration file has an escape for half of a surrogate pair, which stands for no
  character. What becomes of such a file is not said here. -/
  | halfPair
  /-- The value of the configuration file is no object. -/
  | notObject
  | invalid (faults : List SettingFault)

/-- How many digits a whole number may have in a configuration file. -/
def mostDigits : Nat := 4300

def invalidMessage (faults : List SettingFault) : String :=
  "Invalid configuration: " ++
    ", ".intercalate (faults.map fun f => ".".intercalate f.place ++ " (" ++ f.cause.word ++ ")")

def SettingsFault.message : SettingsFault → String
  | unreadable fault =>
    "Cannot read " ++ configFilename ++ ": " ++ String.ofList fault.message
  | undecodable fault => fault.message
  | malformed text fault => "Cannot read " ++ configFilename ++ ": " ++ fault.message text
  | tooManyDigits count => (JsonCause.digits count mostDigits).message
  | halfPair => JsonCause.halfPair.message
  | notObject => configFilename ++ " must contain a JSON object"
  | invalid faults => invalidMessage faults

/-! ## Sources -/

/-- What a configuration file holds, and none if there is no file. -/
abbrev ConfigFile := Option (Except Project.AccessFault (List UInt8))

def SettingsFault.ofJson (text : List Char) (fault : JsonFault) : SettingsFault :=
  match fault.cause with
  | .digits count _ => .tooManyDigits count
  | .halfPair => .halfPair
  | _ => .malformed text fault

def membersOfText (text : List Char) : Except SettingsFault (List (Key × Json)) :=
  match Json.readLimited (some mostDigits) text with
  | .error fault => .error (.ofJson text fault)
  | .ok (.obj members) => .ok members
  | .ok _ => .error .notObject

def ConfigFile.members : ConfigFile → Except SettingsFault (List (Key × Json))
  | none => .ok []
  | some (.error fault) => .error (.unreadable fault)
  | some (.ok bytes) =>
    match Utf8.decode bytes with
    | .error fault => .error (.undecodable fault)
    | .ok text => membersOfText (Text.universalNewlines text)

/-- The warnings about members that are no settings, in the file at a path. -/
def unknownWarnings (path : String) (members : List (Key × Json)) : List Log.Record :=
  members.filterMap fun (key, _) =>
    if (Setting.ofFileName? key.name).isSome then none
    else
      some
        { level := .warning
          message := "Ignoring unknown config key '" ++ key.name ++ "' in " ++ path }

def lastChoice? (setting : Setting) (members : List (Key × Json)) : Option Json :=
  (members.findRev? fun m => Setting.ofFileName? m.1.name = some setting).map (·.2)

def environmentChoice? (setting : Setting) (environment : List (String × String)) :
    Option Json := do
  let value ← environment.lookup (← setting.variable?)
  if value.isEmpty then none else some (.str value)

def override? (setting : Setting) (overrides : List (String × Json)) : Option Json :=
  match overrides.lookup setting.name with
  | some .null => none
  | value => value

def choice? (overrides : List (String × Json)) (environment : List (String × String))
    (members : List (Key × Json)) (setting : Setting) : Option Json :=
  override? setting overrides <|> environmentChoice? setting environment <|>
    lastChoice? setting members

/-! ## Loading -/

def Settings.load (file : ConfigFile) (environment : List (String × String))
    (overrides : List (String × Json)) : Except SettingsFault Settings := do
  let members ← file.members
  (check (choice? overrides environment members)).mapError .invalid

/-- The warnings that loading settings causes, given the path of the configuration file. -/
def Settings.loadWarnings (path : String) (file : ConfigFile) : List Log.Record :=
  match file.members with
  | .ok members => unknownWarnings path members
  | .error _ => []

end TokenCatalog
