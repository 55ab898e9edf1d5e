import TokenCatalog.Command.Session
import TokenCatalog.Extraction.SourceDocument

/-!
# Showing a source document

A source document that was built before is read back and shown as tables, or its catalog is written
as JSON.
-/

namespace TokenCatalog.Command

open Project (Host)

variable {m : Type → Type} [Monad m]

structure ShowChoice where
  source : List Char
  asJson : Bool := false
  /-- Whether literals outside of tokens are shown, too. -/
  hardCoded : Bool := true

/-! ## Reading -/

def readCatalog (name : String) (verbose : Bool)
    (content : Except Project.AccessFault (List UInt8)) : Except Problem Catalog := do
  let invalid (what message : String) : Problem :=
    .sourceDocument (what ++ " source document: " ++ message) (some name)
  let bytes ← content.mapError fun fault => invalid "Cannot read" (String.ofList fault.message)
  let document ← (SourceDocument.load bytes).mapError fun fault =>
    invalid "Invalid" (fault.message name)
  (SourceDocument.catalog document).mapError fun fault =>
    match fault with
    | .noLookup _ => .unforeseen fault.message verbose
    | _ => invalid "Malformed" fault.message

/-! ## Tables -/

def cellOf (value : Json) : List Char :=
  if value.truthy then value.display else []

def tokenRow (token : Token) : List (List Char) :=
  [ token.name.display, token.kind.word.toList,
    if token.isAlias.truthy then "-> ".toList ++ token.aliasOf.display else token.value.display,
    cellOf token.category ]

def literalRow (h : HardCodedValue) : List (List Char) :=
  [h.location.display, h.kind.word.toList, h.value.display, cellOf h.property]

/-- A heading with a count, a table under it, and an empty line. -/
def titledTable (t : Terminal) (title : String) (headers : List String)
    (rows : List (List (List Char))) : Output :=
  t.header (title.toList ++ " (".toList ++ digitsOfNat rows.length ++ [')']) ++
    t.table (headers.map String.toList) rows ++ t.newline

def catalogTables (t : Terminal) (catalog : Catalog) (hardCoded : Bool) : Output :=
  (if catalog.tokenGroups.isEmpty then t.status .warning "No tokens found".toList else []) ++
    (catalog.tokenGroups.flatMap fun group =>
      titledTable t (String.ofList (Text.upper group.type.word.toList) ++ " tokens")
        ["Name", "Kind", "Value", "Category"] (group.tokens.map tokenRow)) ++
    (if hardCoded && !catalog.hardCodedValues.isEmpty then
      titledTable t "Hard-coded values" ["Location", "Kind", "Value", "Property"]
        (catalog.hardCodedValues.map literalRow)
    else []) ++
    match Text.lines catalog.keyframes.display with
    | [] => []
    | lines =>
      t.status .info ("Keyframes: ".toList ++ digitsOfNat lines.length ++ " lines".toList)

/-! ## The command -/

def showDocument (host : Host m) (s : Surroundings) (c : CommonChoice) (o : ShowChoice) :
    Run m Unit := do
  let t := c.terminal
  let path := Project.normalPath o.source
  match readCatalog (String.ofList path) t.verbose (← host.read path) with
  | .error p => fail s t p
  | .ok catalog =>
    if o.asJson then
      say (s.piece .out (catalog.toJson.writeIndented .unicode 0 ++ ['\n']))
    else say (catalogTables t catalog o.hardCoded)

end TokenCatalog.Command
