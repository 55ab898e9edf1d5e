import TokenCatalog.Command.Build
import TokenCatalog.Command.Show
import TokenCatalog.Number.Whole
import TokenCatalog.Value.Classify

/-!
# The program

A command line is read in two steps: the options before the command, and the command with its own
words. Options that only show something are carried out first, then values are checked in the order
in which their options were given, and the argument last.
-/

namespace TokenCatalog.Command

open Project (Host Kind)

variable [Image.Decoder] {m : Type → Type} [Monad m]

/-! ## Values of options -/

/-- Refuses a path at which there is something of the wrong kind. -/
def checkPath (host : Host m) (s : Surroundings) (command? : Option Subcommand)
    (names : List String) (wanted : Kind) (path : List Char) : Run m Unit := do
  let wrong (what what' : String) : Run m Unit :=
    refuse s command? (.invalid names (what.toList ++ ' ' :: quotedChars path ++
      " is a ".toList ++ what'.toList ++ ['.']))
  match wanted, ← host.kind? path with
  | .file, some .folder => wrong "File" "directory"
  | .folder, some .file => wrong "Directory" "file"
  | _, _ => pure ()

def formatOf? (word : List Char) : Option Log.Format :=
  [Log.Format.text, .json].find? (·.word.toList = word)

def formatReason (word : List Char) : List Char :=
  quotedChars word ++ " is not one of ".toList ++ quotedList ["text".toList, "json".toList] ++ ['.']

/-- The number of files that are parsed at a time, or what is wrong with its text. -/
def workersOf (cs : List Char) : Except (List Char) Nat :=
  match readWhole? cs with
  | none => .error (quotedChars cs ++ " is not a valid integer range.".toList)
  | some n =>
    if n < 1 || (mostWorkers : Int) < n then
      .error (textOfInt n ++ " is not in the range 1<=x<=".toList ++ digitsOfNat mostWorkers ++
        ['.'])
    else .ok n.toNat

def readWords {α : Type} (s : Surroundings) (command? : Option Subcommand) (g : Grammar α)
    (words : List (List Char)) : Run m (Arguments α) :=
  match g.read words with
  | .ok a => pure a
  | .error fault => refuse s command? (.argument fault)

/-! ## Options before a command -/

def checkCommonOption (host : Host m) (s : Surroundings) (option : CommonOption)
    (value : List Char) : Run m Unit :=
  match option with
  | .logFormat =>
    if (formatOf? value).isSome then pure ()
    else refuse s none (.invalid ["--log-format"] (formatReason value))
  | .logFile => checkPath host s none ["--log-file"] .file value
  | _ => pure ()

/-- Reads the words of the command line up to the command, and checks the values of options. -/
def readCommon (host : Host m) (s : Surroundings) (words : List (List Char)) :
    Run m (Arguments CommonOption) := do
  let a ← readWords s none commonGrammar words
  match a.options.find? [.version, .help].contains with
  | some .version => finish (s.piece .out versionText) 0
  | some _ => finish (s.piece .out (helpText none)) 0
  | none => pure ()
  a.options.forM fun option => checkCommonOption host s option ((a.value? option).getD [])
  return a

def commonChoice (s : Surroundings) (a : Arguments CommonOption) : CommonChoice where
  terminal :=
    { color :=
        useColor (if a.has .noColor then some false else none) s.environment s.isTerminal
      quiet := a.has .quiet
      verbose := a.has .verbose }
  logFormat? := (a.value? .logFormat).bind formatOf?
  logFile? := a.value? .logFile

/-! ## Commands -/

/-- The names by which an option is known when its value is refused. -/
def optionNames (command : Subcommand) (option : CommandOption) : List String :=
  ((command.grammar.options.lookup option).map (·.names)).getD []

def checkOption (host : Host m) (s : Surroundings) (command : Subcommand)
    (option : CommandOption) (value : List Char) : Run m Unit :=
  let names := optionNames command option
  match option with
  | .output => checkPath host s (some command) names .file value
  | .workers =>
    match workersOf value with
    | .ok _ => pure ()
    | .error reason => refuse s (some command) (.invalid names reason)
  | _ => pure ()

/-- The argument of a command, checked, from words that must not hold another one. -/
def readArgument (host : Host m) (s : Surroundings) (command : Subcommand)
    (words : List (List Char)) : Run m (List Char) := do
  match words with
  | [] => refuse s (some command) (.noArgument command.argument)
  | word :: more =>
    match command with
    | .build => checkPath host s (some command) [command.argument] .folder word
    | .show => checkPath host s (some command) [command.argument] .file word
    | .classify => pure ()
    if !more.isEmpty then refuse s (some command) (.moreArguments more)
    return word

def classifyValue (s : Surroundings) (c : CommonChoice) (value : List Char)
    (name? : Option (List Char)) : Run m Unit := do
  if (Text.strip value).isEmpty then
    failWith s c.terminal Problem.noTrace (.validation "VALUE must not be empty" none)
  match Value.classify value name? with
  | .error _ => finish [] 1
  | .ok result =>
    say (c.terminal.line ("kind:  ".toList ++ result.kind.word.toList) true)
    say (c.terminal.line ("value: ".toList ++ result.value.toList) true)

def runCommand (host : Host m) (s : Surroundings) (c : CommonChoice) (command : Subcommand)
    (words : List (List Char)) : Run m Unit := do
  let a ← readWords s (some command) command.grammar words
  if a.has .help then finish (s.piece .out (helpText (some command))) 0
  a.options.forM fun option => checkOption host s command option ((a.value? option).getD [])
  let argument ← readArgument host s command a.words
  match command with
  | .build =>
    build host s c
      { project := argument
        output? := a.value? .output
        allStylesheets := a.has .allStylesheets
        workers? := (a.value? .workers).bind fun cs => (workersOf cs).toOption }
  | .show =>
    showDocument host s c
      { source := argument
        asJson := a.has .json
        hardCoded := a.last? [.hardCoded, .noHardCoded] != some .noHardCoded }
  | .classify => classifyValue s c argument (a.value? .name)

/-! ## The whole command line -/

/-- Carries out a command line. A word in the place of a command that looks like an option is read
as one, so that what is wrong with it is told first. -/
def runWords (host : Host m) (s : Surroundings) (words : List (List Char)) : Run m Unit := do
  if words.isEmpty then finish (s.piece .err (helpText none)) 2
  let a ← readCommon host s words
  match a.words with
  | [] => refuse s none .noCommand
  | word :: rest =>
    match Subcommand.ofWord? word with
    | none =>
      let _ ← readCommon host s a.words
      let known := Subcommand.all.map (·.word.toList)
      refuse s none (.unknownCommand word (Text.closeWords word known))
    | some command =>
      let c := commonChoice s a
      if c.terminal.quiet && c.terminal.verbose then refuse s none .quietAndVerbose
      setHandlers (c.logOptions .info (c.logFormat?.getD .text))
      runCommand host s c command rest

structure Report where
  output : Output
  exitCode : Int
  logFile? : Option (List Char × List Char) := none

def run (host : Host m) (s : Surroundings) (words : List (List Char)) : m Report := do
  let (result, session) ← (runWords host s words).run.run {}
  let logFile? := do
    let a ← (commonGrammar.read words).toOption
    some (← a.value? .logFile, session.logFile)
  return match result with
    | .ok () => ⟨session.output, 0, logFile?⟩
    | .error ending => ⟨session.output ++ ending.output, ending.exitCode, logFile?⟩

end TokenCatalog.Command
