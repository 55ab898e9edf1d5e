import TokenCatalog.Extraction.Parser

/-!
# Registries

Parsers in the order of their registration. Each file is read by the first parser that handles its
name, and a run gives one extraction per parser, in that order, from the parser's own files in the
order given.
-/

namespace TokenCatalog

abbrev Registry := List Parser

namespace Registry

/-- A registry of a parser per source type, with raster files of given extensions. -/
def create (imageExtensions : List String) : Registry :=
  [.ofType .css, .ofType .scss, .ofType .less, .ofType .svg, .ofImages imageExtensions]

def standard : Registry := create Parser.imageExtensions

def register (registry : Registry) (parser : Parser) : Registry :=
  List.append registry [parser]

def parser? (registry : Registry) (filename : String) : Option Parser :=
  List.find? (·.handles filename) registry

def place? (registry : Registry) (filename : String) : Option Nat :=
  List.findIdx? (·.handles filename) registry

variable [Image.Decoder]

/-- What each file holds that some parser reads, with the place of its parser. -/
def extracted (registry : Registry) (files : List SourceFile) : List (Nat × Extraction) :=
  files.filterMap fun file => do
    let place ← registry.place? file.filename
    let parser ← registry.parser? file.filename
    some (place, parser.extract file)

def run (registry : Registry) (files : List SourceFile) : List Extraction :=
  let extracted := registry.extracted files
  registry.mapIdx fun place parser =>
    parser.combine ((extracted.filter (·.1 = place)).map (·.2))

def warnings (registry : Registry) (files : List SourceFile) : List Log.Record :=
  files.flatMap fun file =>
    match registry.parser? file.filename with
    | some parser => parser.warnings file
    | none => []

def catalog (registry : Registry) (files : List SourceFile) : Catalog :=
  merge (registry.run files)

end Registry

end TokenCatalog
