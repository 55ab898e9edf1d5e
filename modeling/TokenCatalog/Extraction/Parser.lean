import TokenCatalog.Extraction.Fault
import TokenCatalog.Log.Record

/-!
# Parsers

A parser reads the files of one source type, which it knows by their extensions. Failures stay with
their file: a file that cannot be parsed contributes nothing and causes one warning.
-/

namespace TokenCatalog

inductive Parser where
  | stylesheets (dialect : Stylesheet.Dialect)
  | icons
  | images (extensions : List String)
  deriving DecidableEq, Repr

namespace Parser

/-! ## Which files -/

/-- The extensions of the raster files that are read unless others are asked for. -/
def imageExtensions : List String := [".png", ".jpeg", ".jpg", ".gif"]

def dotted (extension : String) : String :=
  let lower := Text.lower extension.toList
  String.ofList (if extension.toList.head? = some '.' then lower else '.' :: lower)

/-- A parser of raster files with given extensions, in any case and with or without their dots. -/
def ofImages (extensions : List String) : Parser :=
  .images (extensions.map dotted)

def ofType : SourceType → Parser
  | .css => .stylesheets Stylesheet.css
  | .scss => .stylesheets Stylesheet.scss
  | .less => .stylesheets Stylesheet.less
  | .svg => .icons
  | .image => ofImages imageExtensions

def sourceType : Parser → SourceType
  | stylesheets dialect => dialect.sourceType
  | icons => .svg
  | images _ => .image

def extensions : Parser → List String
  | stylesheets dialect => dialect.extensions
  | icons => [".svg"]
  | images extensions => extensions

def handles (p : Parser) (filename : String) : Bool :=
  p.extensions.contains (String.ofList (extensionOf filename))

/-! ## One file -/

variable [Image.Decoder]

def parseFile (p : Parser) (file : SourceFile) : Except ParseFault Extraction :=
  match p with
  | stylesheets dialect => (Stylesheet.parseFile dialect file).mapError .stylesheet
  | icons => (Icon.parseFile file).mapError .icons
  | images _ =>
    (Image.parseFile file).mapError fun fault =>
      .image fault (Image.Decoder.wording fault file.data)

def extract (p : Parser) (file : SourceFile) : Extraction :=
  match p.parseFile file with
  | .ok found => found
  | .error _ => .empty p.sourceType

def warning (p : Parser) (filename : String) (fault : ParseFault) : Log.Record where
  level := .warning
  message :=
    match fault.fileFault? filename with
    | some fault => "Skipping " ++ filename ++ ": " ++ String.ofList fault.message
    | none => "Unexpected error parsing " ++ filename ++ ": " ++ fault.cause
  context := [("source_file", .str filename), ("source_type", .str p.sourceType.word)]

def warnings (p : Parser) (file : SourceFile) : List Log.Record :=
  match p.parseFile file with
  | .ok _ => []
  | .error fault => [p.warning file.filename fault]

/-! ## Many files -/

def combine (p : Parser) (extractions : List Extraction) : Extraction :=
  ⟨merge extractions, p.sourceType⟩

def own (p : Parser) (files : List SourceFile) : List SourceFile :=
  files.filter fun file => p.handles file.filename

def parse (p : Parser) (files : List SourceFile) : Extraction :=
  p.combine ((p.own files).map p.extract)

def parseWarnings (p : Parser) (files : List SourceFile) : List Log.Record :=
  (p.own files).flatMap p.warnings

end Parser

/-! ## By source type -/

/-- What stylesheets of one dialect hold; none for a source type that is no dialect. -/
def parseStylesheets? [Image.Decoder] (type : SourceType) (files : List SourceFile) :
    Option Extraction :=
  (Stylesheet.dialect? type).map fun dialect => (Parser.stylesheets dialect).parse files

end TokenCatalog
