import TokenCatalog.Catalog.Document
import TokenCatalog.Json.Write
import TokenCatalog.Log.Record
import TokenCatalog.Log.Timestamp

/-!
# Log entries

How a record is written: as a line of text, as a line of a log file, or as a JSON object on one
line. The object holds the standard members first, and then those of the record's context that
belong to an extraction.
-/

namespace TokenCatalog.Log

structure Origin where
  logger : String := "design_tokens"
  module : String
  function : Json := .null
  line : Json := .int 1
  time : Binary64 := .zero
  deriving Repr

/-- The module in a file is named after the file, without its extension. Dots that begin the name
begin no extension. -/
def moduleName (path : List Char) : List Char :=
  let name := (path.reverse.takeWhile (· != '/')).reverse
  let dots := name.takeWhile (· == '.')
  let rest := (name.drop dots.length).reverse
  if rest.contains '.' then dots ++ ((rest.dropWhile (· != '.')).drop 1).reverse else name

/-- The members of a record's context that are written, in order. -/
def contextNames : List String :=
  ["source_file", "source_type", "token_count", "duration_ms"]

def contextMembers (context : List (String × Json)) : List (String × Json) :=
  contextNames.filterMap fun name => (context.lookup name).map fun value => (name, value)

/-- The object that a record is written as, given the text of its time. -/
def Record.object (r : Record) (origin : Origin) (time : List Char) : Json :=
  record
    ([("timestamp", .str (String.ofList time)), ("level", .str (String.ofList r.level.name)),
      ("logger", .str origin.logger), ("module", .str origin.module),
      ("function", origin.function), ("line", origin.line), ("message", .str r.message)] ++
      contextMembers r.context)

def Record.json (r : Record) (origin : Origin) : Except MomentFault (List Char) := do
  .ok ((r.object origin (← timestamp origin.time)).write .ascii)

def Record.text (r : Record) : List Char :=
  r.level.name ++ " | ".toList ++ r.message.toList

def padRight (width : Nat) (cs : List Char) : List Char :=
  cs ++ List.replicate (width - cs.length) ' '

/-- A record as a line of a log file, with the time and the place at which it was made. -/
def Record.fileLine (r : Record) (time place : List Char) : List Char :=
  time ++ " | ".toList ++ padRight 8 r.level.name ++ " | ".toList ++ place ++ " - ".toList ++
    r.message.toList

end TokenCatalog.Log
