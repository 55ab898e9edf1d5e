import TokenCatalog.Log.Entry
import TokenCatalog.Settings.Basic
import TokenCatalog.Text.Uppercase

/-!
# Log handlers

Records go to the console and, if asked for, to a file. The console takes records from a chosen
level on, only errors in a quiet run and everything in a verbose one; quiet wins. The file takes
everything. Nothing below the level for debugging is ever handled.
-/

namespace TokenCatalog.Log

inductive Sink where
  | console
  | file
  deriving DecidableEq, Repr

/-- A sink, the least grave level that it takes, and how records are written to it. -/
structure Handler where
  sink : Sink
  level : Level
  format : Format
  deriving DecidableEq, Repr

structure Options where
  /-- The name of the console's level, in any case. -/
  level : String := "INFO"
  quiet : Bool := false
  verbose : Bool := false
  toFile : Bool := false
  format : Format := .text
  deriving DecidableEq, Repr

/-- The console's level; none if its name is not known. -/
def Options.consoleLevel? (o : Options) : Option Level :=
  if o.quiet then some .error
  else if o.verbose then some .debug
  else Level.ofName? (String.ofList (Text.upper o.level.toList))

def unknownLevelMessage : String := "Unable to configure handler 'console'"

/-- The handlers for what is asked; none if the console's level is not known. -/
def Options.handlers? (o : Options) : Option (List Handler) :=
  o.consoleLevel?.map fun level =>
    ⟨.console, level, o.format⟩ :: if o.toFile then [⟨.file, .debug, o.format⟩] else []

/-- Handlers that take everything, as long as a problem is being looked for. -/
def debugging (handlers : List Handler) : List Handler :=
  handlers.map fun h => { h with level := .debug }

def Handler.taken (h : Handler) (records : List Record) : List Record :=
  Record.atLeast h.level (Record.atLeast .debug records)

def handlerOf? (sink : Sink) (handlers : List Handler) : Option Handler :=
  handlers.find? (·.sink = sink)

end TokenCatalog.Log
