import TokenCatalog.Command.Arguments
import TokenCatalog.Json.Display

/-!
# Usage

The commands of the program, their options and arguments, how they are described, and what is said
of words that do not fit them.
-/

namespace TokenCatalog.Command

def programName : String := "design-tokens"

def programVersion : String := "1.0.0"

/-! ## Options -/

inductive CommonOption where
  | version
  | verbose
  | quiet
  | noColor
  | logFormat
  | logFile
  | help
  deriving DecidableEq, Repr

inductive CommandOption where
  | output
  | allStylesheets
  | workers
  | json
  | hardCoded
  | noHardCoded
  | name
  | help
  deriving DecidableEq, Repr

def helpForm : OptionForm := ⟨["--help"], none, "Show this message and exit."⟩

/-- How the words before a command are read. The first argument is the command, and all words after
it belong to it. -/
def commonGrammar : Grammar CommonOption where
  interspersed := false
  options :=
    [ (.version, ⟨["--version"], none, "Show the version and exit."⟩),
      (.verbose, ⟨["--verbose", "-v"], none, "Enable verbose output"⟩),
      (.quiet, ⟨["--quiet", "-q"], none, "Suppress non-error output"⟩),
      (.noColor, ⟨["--no-color"], none, "Disable colored output"⟩),
      (.logFormat, ⟨["--log-format"], some "[text|json]", "Log record format on stderr"⟩),
      (.logFile, ⟨["--log-file"], some "FILE",
        "Also write all log records, debug included, to this file"⟩),
      (.help, helpForm) ]

/-! ## Commands -/

inductive Subcommand where
  | build
  | show
  | classify
  deriving DecidableEq, Repr

namespace Subcommand

def all : List Subcommand := [build, classify, .show]

def word : Subcommand → String
  | build => "build"
  | .show => "show"
  | classify => "classify"

def ofWord? (word : List Char) : Option Subcommand :=
  all.find? (·.word.toList = word)

def argument : Subcommand → String
  | build => "PROJECT"
  | .show => "SOURCE_JSON"
  | classify => "VALUE"

def help : Subcommand → String
  | build => "Scan PROJECT and write its design token source document."
  | .show => "Render the catalog stored in SOURCE_JSON."
  | classify => "Classify a single VALUE and print its kind and normalized form."

def grammar : Subcommand → Grammar CommandOption
  | build =>
    { options :=
        [ (.output, ⟨["--output", "-o"], some "FILE",
            "Where to write the source document (default: inside PROJECT)"⟩),
          (.allStylesheets, ⟨["--all-stylesheets"], none,
            "Parse stylesheets even when they contain no @tokens marker"⟩),
          (.workers, ⟨["--workers"], some "INTEGER RANGE",
            "Parallel per-file parse workers  [1<=x<=64]"⟩),
          (.help, helpForm) ] }
  | .show =>
    { options :=
        [ (.json, ⟨["--json"], none, "Print the merged catalog as JSON"⟩),
          (.hardCoded, ⟨["--hard-coded"], none, "Include hard-coded values in the summary"⟩),
          (.noHardCoded, ⟨["--no-hard-coded"], none,
            "Leave hard-coded values out of the summary"⟩),
          (.help, helpForm) ] }
  | classify =>
    { options :=
        [ (.name, ⟨["--name"], some "TEXT", "Declared token name used as a hint"⟩),
          (.help, helpForm) ] }

end Subcommand

/-! ## Faults -/

inductive UsageFault where
  | argument (fault : ArgumentFault)
  /-- The value of an option or argument is not allowed. -/
  | invalid (names : List String) (reason : List Char)
  | quietAndVerbose
  | noCommand
  /-- There is no command of the name; others have similar ones. -/
  | unknownCommand (name : List Char) (similar : List (List Char))
  | noArgument (name : String)
  | moreArguments (words : List (List Char))

def quotedChars (cs : List Char) : List Char :=
  quoted (String.ofList cs)

def quotedList (texts : List (List Char)) : List Char :=
  Text.joinWith [',', ' '] (texts.map quotedChars)

def suggestion (what : String) : List (List Char) → List Char
  | [] => []
  | [name] => " Did you mean ".toList ++ quotedChars name ++ ['?']
  | names =>
    let sorted := names.mergeSort fun a b => String.ofList a ≤ String.ofList b
    " (Possible ".toList ++ what.toList ++ ": ".toList ++ quotedList sorted ++ [')']

def UsageFault.message : UsageFault → List Char
  | argument (.unknown name similar) =>
    "No such option ".toList ++ quotedChars name ++ ['.'] ++ suggestion "options" similar
  | argument (.noValue name) =>
    "Option ".toList ++ quotedChars name ++ " requires an argument.".toList
  | argument (.valueGiven name) =>
    "Option ".toList ++ quotedChars name ++ " does not take a value.".toList
  | invalid names reason =>
    "Invalid value for ".toList ++
      Text.joinWith " / ".toList (names.map fun name => '\'' :: name.toList ++ ['\'']) ++
      ": ".toList ++ reason
  | quietAndVerbose => "--quiet and --verbose are mutually exclusive".toList
  | noCommand => "Missing command.".toList
  | unknownCommand name similar =>
    "No such command ".toList ++ quotedChars name ++ ['.'] ++ suggestion "commands" similar
  | noArgument name => "Missing argument '".toList ++ name.toList ++ "'.".toList
  | moreArguments words =>
    "Got unexpected extra argument".toList ++ (if words.length = 1 then [] else ['s']) ++
      " (".toList ++ Text.joinWith [' '] words ++ [')']

def UsageFault.showsUsage : UsageFault → Bool
  | argument (.noValue _) => false
  | argument (.valueGiven _) => false
  | _ => true

/-! ## Wording -/

/-- The program, or one of its commands, as it is called. -/
def callName : Option Subcommand → String
  | none => programName
  | some command => programName ++ " " ++ command.word

def usageLine (command? : Option Subcommand) : List Char :=
  "Usage: ".toList ++ (callName command?).toList ++ " [OPTIONS] ".toList ++
    match command? with
    | none => "COMMAND [ARGS]...\n".toList
    | some command => command.argument.toList ++ ['\n']

def UsageFault.report (command? : Option Subcommand) (fault : UsageFault) : List Char :=
  (if fault.showsUsage then
      usageLine command? ++ "Try '".toList ++ (callName command?).toList ++
        " --help' for help.\n\n".toList
    else []) ++
    "Error: ".toList ++ fault.message ++ ['\n']

def columns (rows : List (String × String)) : List Char :=
  let width := (rows.map (·.1.length)).foldl max 0
  rows.flatMap fun (left, right) =>
    ' ' :: ' ' :: left.toList ++ List.replicate (width - left.length + 2) ' ' ++
      right.toList ++ ['\n']

def OptionForm.row (form : OptionForm) : String × String :=
  let names := ", ".intercalate (form.names.mergeSort fun a b => a.length ≤ b.length)
  (match form.value? with
    | some word => names ++ " " ++ word
    | none => names, form.help)

def helpText (command? : Option Subcommand) : List Char :=
  let described (text : String) (rows : List (String × String)) : List Char :=
    usageLine command? ++ "\n  ".toList ++ text.toList ++ "\n\nOptions:\n".toList ++ columns rows
  match command? with
  | none =>
    described "Design token catalog - extract tokens from stylesheets, icons and images."
        (commonGrammar.options.map (·.2.row)) ++
      "\nCommands:\n".toList ++ columns (Subcommand.all.map fun c => (c.word, c.help))
  | some command => described command.help (command.grammar.options.map (·.2.row))

def versionText : List Char :=
  (programName ++ ", version " ++ programVersion ++ "\n").toList

end TokenCatalog.Command
