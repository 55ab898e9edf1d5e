import TokenCatalog.Bytes.Base64
import TokenCatalog.Catalog.Model
import TokenCatalog.Image.Gif
import TokenCatalog.Image.Jpeg
import TokenCatalog.Image.Png
import TokenCatalog.Source.File

/-!
# Raster tokens

A raster file is one token, named after the file. Its value is a data URI of the untouched bytes;
format, size and number of bytes are its metadata.
-/

namespace TokenCatalog.Image

def readHeader (bytes : List UInt8) : Except Fault Header :=
  if Png.signature.isPrefixOf bytes then Png.read (bytes.drop 8)
  else if Gif.signatures.any (·.isPrefixOf bytes) then Gif.read (bytes.drop 6)
  else if [0xFF, 0xD8, 0xFF].isPrefixOf bytes then Jpeg.read (bytes.drop 3)
  else .error .undecodable

/-- A decoder of the three formats. -/
instance threeFormats : Decoder where
  header := readHeader
  wording
    | .undecodable, _ => "cannot identify image file"
    | .tooLarge, _ => "Image size exceeds limit, could be decompression bomb DOS attack."
    | .unforeseen, _ => "list index out of range"

def dataUri (mediaType : String) (bytes : List UInt8) : String :=
  "data:" ++ mediaType ++ ";base64," ++ String.ofList (Base64.encode bytes)

def tokenOf (file : SourceFile) (h : Header) : Token :=
  let uri := dataUri h.format.mediaType file.data
  { name := .str file.basename
    value := .str uri
    sourceValue := .str uri
    kind := .image
    sourceFile := .str file.filename
    metadata :=
      [("width", .int h.width), ("height", .int h.height), ("format", .str h.format.name),
        ("mime_type", .str h.format.mediaType), ("size_bytes", .int file.data.length)] }

def parseFileBy (header : List UInt8 → Except Fault Header) (file : SourceFile) :
    Except Fault Extraction :=
  (header file.data).map fun h =>
    { sourceType := .image, tokenGroups := [⟨.image, [tokenOf file h]⟩] }

def parseFile [Decoder] (file : SourceFile) : Except Fault Extraction :=
  parseFileBy Decoder.header file

end TokenCatalog.Image
