import TokenCatalog.Bytes.Utf8
import TokenCatalog.Catalog.Document
import TokenCatalog.Extraction.Registry
import TokenCatalog.Json.Read
import TokenCatalog.Json.Write
import TokenCatalog.Text.Lines

/-!
# Source documents

What is kept of a run: a JSON object with the extraction of every source type. A catalog is read
back from it without parsing any file again. Documents that others have written may be of any shape;
members of other names are passed over, and a missing one counts as an empty extraction.
-/

namespace TokenCatalog.SourceDocument

/-- The name under which the extraction of a source type is kept. -/
def key : SourceType → String
  | .css => "cssTokens"
  | .scss => "scssTokens"
  | .less => "lessTokens"
  | .svg => "svgTokens"
  | .image => "imageTokens"

def latestOf (type : SourceType) (extractions : List Extraction) : Extraction :=
  (extractions.findRev? (·.sourceType = type)).getD (.empty type)

def ofExtractions (extractions : List Extraction) : Json :=
  record (SourceType.all.map fun type => (key type, (latestOf type extractions).toJson))

def build [Image.Decoder] (registry : Registry) (files : List SourceFile) : Json :=
  ofExtractions (registry.run files)

def write (document : Json) : List Char :=
  document.write .unicode

/-! ## Halves of surrogate pairs

A stylesheet may name half of a surrogate pair by an escape. Halves have no bytes, so that a
document that holds one cannot be written. They have no characters here either, and those that stand
in for them may also stand for themselves. The two are told apart by reading the files once more
with other escapes: what stands for itself stays as it is. -/

def raisedFile (registry : Registry) (file : SourceFile) : SourceFile :=
  match registry.parser? file.filename, file.text with
  | some (.stylesheets _), .ok text =>
    let raised := Css.raised text
    if raised = text then file else { file with content := .text (String.ofList raised) }
  | _, _ => file

/-- The halves that a text holds, given how it reads once more: their positions and codes. -/
def halvesIn (text again : List Char) : List (Nat × Nat) :=
  (text.zip again).zipIdx.filterMap fun ((c, d), position) =>
    if c = d then none else (Text.halfOf? c).map (position, ·)

def halves [Image.Decoder] (registry : Registry) (files : List SourceFile) : List (Nat × Nat) :=
  halvesIn (write (build registry files)) (write (build registry (files.map (raisedFile registry))))

/-- Halves in a row, which have no bytes: the position of the first one, its code, and how many they
are. -/
structure EncodeFault where
  position : Nat
  code : Nat
  count : Nat
  deriving DecidableEq, Repr

def EncodeFault.of? : List (Nat × Nat) → Option EncodeFault
  | [] => none
  | (position, code) :: rest =>
    let row := (rest.zipIdx (position + 1)).takeWhile fun ((next, _), expected) => next = expected
    some ⟨position, code, row.length + 1⟩

def EncodeFault.message (fault : EncodeFault) : String :=
  let place :=
    if fault.count = 1 then
      "character '\\u".toList ++ Nat.toDigits 16 fault.code ++ "' in position ".toList ++
        digitsOfNat fault.position
    else
      "characters in position ".toList ++ digitsOfNat fault.position ++ '-' ::
        digitsOfNat (fault.position + fault.count - 1)
  String.ofList ("'utf-8' codec can't encode ".toList ++ place ++
    ": surrogates not allowed".toList)

def save [Image.Decoder] (registry : Registry) (files : List SourceFile) :
    Except EncodeFault (List UInt8) :=
  match EncodeFault.of? (halves registry files) with
  | some fault => .error fault
  | none => .ok (Utf8.encode (write (build registry files)))

/-! ## Reading back -/

inductive Fault where
  | undecodable (fault : Utf8.Fault)
  /-- The text is not JSON, or has an escape for half of a surrogate pair. -/
  | malformed (text : List Char) (fault : JsonFault)
  | notObject

def Fault.message (filename : String) : Fault → String
  | undecodable fault => fault.message
  | malformed text fault => fault.message text
  | notObject => "Expected a JSON object in " ++ filename

def load (bytes : List UInt8) : Except Fault Json :=
  match Utf8.decode bytes with
  | .error fault => .error (.undecodable fault)
  | .ok text =>
    let text := Text.universalNewlines text
    match Json.read text with
    | .error fault => .error (.malformed text fault)
    | .ok (.obj members) => .ok (.obj members)
    | .ok _ => .error .notObject

def isObject : Json → Bool
  | .obj _ => true
  | _ => false

def extractions (document : Json) : Except ShapeFault (List Extraction) := do
  let kept ← SourceType.all.mapM fun type => do
    let value ← document.getOr (key type) .null
    if isObject value then .ok [← Extraction.ofJson (some type) value] else .ok []
  .ok kept.flatten

def catalog (document : Json) : Except ShapeFault Catalog := do
  mergeChecked (← extractions document)

end TokenCatalog.SourceDocument
