import TokenCatalog.Command.Problem
import TokenCatalog.Command.Usage
import TokenCatalog.Log.Handler
import TokenCatalog.Project.Host

/-!
# Sessions

A run of the program asks its host, writes output, logs records, and may end early with an exit code
of its own.
-/

namespace TokenCatalog.Command

open Project (Host)

/-! ## Surroundings -/

/-- What a run finds around it: the variables of the environment, whether its output is a terminal,
the streams that keep escape sequences, and the traces of the problems that are exceptions. -/
structure Surroundings where
  environment : List (String × String) := []
  isTerminal : Bool := false
  keepsColors : Stream → Bool := fun _ => false
  trace : Problem → List Char := fun _ => Problem.noTrace

/-- A text for a stream, without escape sequences unless the stream keeps them. -/
def Surroundings.piece (s : Surroundings) (stream : Stream) (cs : List Char) : Output :=
  [(stream, if s.keepsColors stream then cs else plain cs)]

/-! ## Runs -/

/-- What a run has written so far, where its records go, and what the log file gets. -/
structure Session where
  output : Output := []
  handlers : List Log.Handler := []
  logFile : List Char := []

structure Ending where
  output : Output
  exitCode : Int

abbrev Run (m : Type → Type) := ExceptT Ending (StateT Session m)

variable {m : Type → Type} [Monad m]

def say (output : Output) : Run m Unit :=
  modify fun s => { s with output := s.output ++ output }

def finish {α : Type} (output : Output) (exitCode : Int) : Run m α :=
  throw ⟨output, exitCode⟩

def refuse {α : Type} (s : Surroundings) (command? : Option Subcommand) (fault : UsageFault) :
    Run m α :=
  finish (s.piece .err (fault.report command?)) 2

def failWith {α : Type} (s : Surroundings) (t : Terminal) (trace : List Char) (p : Problem) :
    Run m α :=
  finish (s.piece .err (p.report t.color (if t.verbose then some trace else none) ++ ['\n']))
    p.exitCode

def fail {α : Type} (s : Surroundings) (t : Terminal) (p : Problem) : Run m α :=
  failWith s t (s.trace p) p

/-! ## Logging -/

def logLine (h : Log.Handler) (seconds : Binary64) (r : Log.Record) : List Char :=
  let origin : Log.Origin := { module := programName, time := seconds }
  let moment := (Log.timestamp seconds).toOption.getD []
  let line := match h.format, h.sink with
    | .json, _ => (r.json origin).toOption.getD []
    | .text, .console => r.text
    | .text, .file => r.fileLine moment origin.logger.toList
  line ++ ['\n']

def Session.logged (s : Session) (seconds : Binary64) (records : List Log.Record) : Session :=
  let written (sink : Log.Sink) : List (List Char) :=
    match Log.handlerOf? sink s.handlers with
    | some h => (h.taken records).map (logLine h seconds)
    | none => []
  { s with
    output := s.output ++ (written .console).map fun line => (.err, line)
    logFile := s.logFile ++ (written .file).flatten }

def log (host : Host m) (records : List Log.Record) : Run m Unit := do
  let seconds ← host.seconds
  modify (·.logged seconds records)

/-- Has records handled as is asked for; handlers stay if the level is not known. -/
def setHandlers (options : Log.Options) : Run m Unit :=
  modify fun s => { s with handlers := options.handlers?.getD s.handlers }

/-! ## Common options -/

structure CommonChoice where
  terminal : Terminal
  logFormat? : Option Log.Format := none
  logFile? : Option (List Char) := none

def CommonChoice.logOptions (c : CommonChoice) (level : Log.Level) (format : Log.Format) :
    Log.Options :=
  { level := String.ofList level.name
    quiet := c.terminal.quiet
    verbose := c.terminal.verbose
    toFile := c.logFile?.isSome
    format }

end TokenCatalog.Command
