import TokenCatalog.Bytes.Number
import TokenCatalog.Image.Format

/-!
# PNG

A signature and a row of chunks, each with a length, a name, data and a check. The chunks before the
pixels are looked at, those from the pixels on only checked, up to the end chunk.
-/

namespace TokenCatalog.Image

/-! ## The check -/

/-- One bit of the 32-bit check: bits enter low end first, and each bit that leaves a one brings in
the reflected polynomial. -/
def crcBit (n : UInt32) : UInt32 :=
  if n &&& 1 = 1 then (0xEDB88320 : UInt32) ^^^ (n >>> 1) else n >>> 1

def crcByte (n : UInt32) (b : UInt8) : UInt32 :=
  Nat.repeat crcBit 8 (n ^^^ b.toUInt32)

def crc (bytes : List UInt8) : UInt32 :=
  bytes.foldl crcByte 0xFFFFFFFF ^^^ 0xFFFFFFFF

namespace Png

open TokenCatalog.Bytes (ascii big16? big32?)

def signature : List UInt8 :=
  [0x89, 0x50, 0x4E, 0x47, 0x0D, 0x0A, 0x1A, 0x0A]

/-! ## Chunks -/

structure Head where
  length : Nat
  name : List UInt8

def isNameByte (b : UInt8) : Bool :=
  (0x30 ≤ b && b ≤ 0x39) || (0x41 ≤ b && b ≤ 0x5A) || (0x61 ≤ b && b ≤ 0x7A) || b == 0x5F

/-- The head of the chunk that begins a row of bytes, and the bytes after it. -/
def head? : List UInt8 → Option (Head × List UInt8)
  | a :: b :: c :: d :: p :: q :: r :: s :: rest =>
    if [p, q, r, s].all isNameByte then
      (big32? [a, b, c, d]).map fun n => (⟨n, [p, q, r, s]⟩, rest)
    else none
  | _ => none

/-- What follows a head is shorter than what it began. -/
theorem length_of_head? {bytes rest : List UInt8} {h : Head}
    (eq : head? bytes = some (h, rest)) : rest.length < bytes.length := by
  unfold head? at eq
  split at eq
  · split at eq
    · simp only [Option.map_eq_some_iff] at eq
      obtain ⟨n, _, hn⟩ := eq
      cases hn
      simp +arith
    · cases eq
  · cases eq

def data? (h : Head) (rest : List UInt8) : Option (List UInt8) :=
  if h.length ≤ rest.length then some (rest.take h.length) else none

def checks (h : Head) (rest : List UInt8) : Bool :=
  (big32? (rest.drop h.length)).any fun n =>
    n = (crc (h.name ++ rest.take h.length)).toNat

/-! ## Before the pixels -/

structure State where
  width : Nat := 0
  height : Nat := 0
  /-- The colour type, once a known one was given with a depth that it has. -/
  colorType : Option Nat := none

def depths : Nat → List Nat
  | 0 => [1, 2, 4, 8, 16]
  | 2 => [8, 16]
  | 3 => [1, 2, 4, 8]
  | 4 => [8, 16]
  | 6 => [8, 16]
  | _ => []

def State.header? (s : State) (data : List UInt8) : Option State := do
  let width ← big32? data
  let height ← big32? (data.drop 4)
  let depth ← data[8]?
  let color ← data[9]?
  let filter ← data[11]?
  if data.length < 13 || filter != 0 then none
  else if (depths color.toNat).contains depth.toNat then some ⟨width, height, some color.toNat⟩
  else some ⟨width, height, s.colorType⟩

def afterZero? (data : List UInt8) : Option (List UInt8) :=
  match data.dropWhile (· != 0) with
  | _ :: rest => some rest
  | [] => none

/-- Whether the data of a chunk that only describes the image is complete. -/
def isComplete (s : State) (name data : List UInt8) : Bool :=
  if name = ascii "tRNS" then
    match s.colorType with
    | some 0 => 2 ≤ data.length
    | some 2 => 6 ≤ data.length
    | _ => true
  else if name = ascii "gAMA" then 4 ≤ data.length
  else if name = ascii "cHRM" then data.length % 4 == 0
  else if name = ascii "sRGB" then 1 ≤ data.length
  else if name = ascii "pHYs" then 9 ≤ data.length
  else if name = ascii "acTL" then 8 ≤ data.length
  else if name = ascii "fcTL" then 26 ≤ data.length
  else if name = ascii "iCCP" then ((afterZero? data).getD data).head? == some 0
  else if name = ascii "zTXt" then ((afterZero? data).bind (·.head?)).getD 0 == 0
  else true

/-- The state before the pixels, and the bytes from the chunk that holds them on; without pixels,
nothing. -/
def beforePixels (s : State) (bytes : List UInt8) :
    Except Fault (State × Option (List UInt8)) :=
  match eq : head? bytes with
  | none => .error .undecodable
  | some (h, rest) =>
    if h.name = ascii "IDAT" then .ok (s, some bytes)
    else if h.name = ascii "IEND" then .ok (s, none)
    else do
      let data ← need (data? h rest)
      let s ← if h.name = ascii "IHDR" then need (s.header? data) else .ok s
      require (isComplete s h.name data && checks h rest)
      have := length_of_head? eq
      beforePixels s (rest.drop (h.length + 4))
termination_by bytes.length
decreasing_by simp; omega

/-! ## From the pixels on -/

def verify (bytes : List UInt8) : Except Fault Unit :=
  match eq : head? bytes with
  | none => .error .undecodable
  | some (h, rest) =>
    if h.name = ascii "IEND" then .ok ()
    else do
      require (h.length ≤ rest.length && checks h rest)
      have := length_of_head? eq
      verify (rest.drop (h.length + 4))
termination_by bytes.length
decreasing_by simp; omega

/-- The header of an image, given the bytes after its signature. -/
def read (bytes : List UInt8) : Except Fault Header := do
  let (s, pixels) ← beforePixels {} bytes
  require s.colorType.isSome
  checkSize s.width s.height
  match pixels with
  -- the row of chunks that is verified begins with the pixels
  | none => .error .unforeseen
  | some bytes => do
    verify bytes
    .ok ⟨.png, s.width, s.height⟩

end Png

end TokenCatalog.Image
