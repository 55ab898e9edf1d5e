/-!
# Raster formats

What is known of a raster image without decoding its pixels: its format and its size. Who opens
images is left open, since there is no end of formats.
-/

namespace TokenCatalog.Image

/-- A raster format: its name and its media type. -/
structure Format where
  name : String
  mediaType : String
  deriving DecidableEq, Repr

namespace Format

def png : Format := ⟨"PNG", "image/png"⟩

def gif : Format := ⟨"GIF", "image/gif"⟩

def jpeg : Format := ⟨"JPEG", "image/jpeg"⟩

end Format

structure Header where
  format : Format
  width : Nat
  height : Nat
  deriving DecidableEq, Repr

inductive Fault where
  /-- The bytes are not a complete image of a known format. -/
  | undecodable
  | tooLarge
  | unforeseen
  deriving DecidableEq, Repr

/-- What opens raster images: the header of one, and the wording of the fault that bytes have. -/
class Decoder where
  header : List UInt8 → Except Fault Header
  wording : Fault → List UInt8 → String

def maxPixels : Nat := 178956970

/-- The number of pixels of a size, an empty side counting as one. -/
def pixels (width height : Nat) : Nat :=
  max 1 width * max 1 height

def checkPixels (width height : Nat) : Except Fault Unit :=
  if maxPixels < pixels width height then .error .tooLarge else .ok ()

def checkSize (width height : Nat) : Except Fault Unit :=
  if width = 0 || height = 0 then .error .undecodable else checkPixels width height

def need {α : Type} : Option α → Except Fault α
  | some x => .ok x
  | none => .error .undecodable

def require (condition : Bool) : Except Fault Unit :=
  if condition then .ok () else .error .undecodable

end TokenCatalog.Image
