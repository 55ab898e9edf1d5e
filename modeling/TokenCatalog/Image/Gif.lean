import TokenCatalog.Bytes.Number
import TokenCatalog.Image.Format

/-!
# GIF

A screen size and a row of blocks. Extensions are passed over; the first image must be there, up to
the byte that gives its code size, and enlarges the screen where it reaches past it.
-/

namespace TokenCatalog.Image.Gif

open TokenCatalog.Bytes (ascii little16?)

def signatures : List (List UInt8) :=
  [ascii "GIF87a", ascii "GIF89a"]

/-- The bytes after the colour table that flags announce; a table cut short leaves nothing. -/
def skipTable (flags : UInt8) (bytes : List UInt8) : List UInt8 :=
  if flags.toNat < 128 then bytes else bytes.drop (3 * Nat.pow 2 (flags.toNat % 8 + 1))

/-- A data block and the bytes after it; an empty block ends a row of them, as does the end of the
file. A block cut short is taken as it is. -/
def block? : List UInt8 → Option (List UInt8) × List UInt8
  | [] => (none, [])
  | n :: bytes =>
    if n = 0 then (none, bytes) else (some (bytes.take n.toNat), bytes.drop n.toNat)

def skipBlocks : List UInt8 → List UInt8
  | [] => []
  | n :: bytes => if n = 0 then bytes else skipBlocks (bytes.drop n.toNat)
termination_by bytes => bytes.length

/-- Skipping blocks leaves no more bytes. -/
theorem length_skipBlocks_le (bytes : List UInt8) : (skipBlocks bytes).length ≤ bytes.length := by
  fun_induction skipBlocks bytes with
  | case1 => simp
  | case2 => simp
  | case3 n bytes _ ih => simp only [List.length_cons, List.length_drop] at *; omega

/-- Whether the block of a graphic control extension holds what its flags announce. -/
def isControl (block : List UInt8) : Bool :=
  match block with
  | flags :: _ => if flags.toNat % 2 = 1 then 4 ≤ block.length else 3 ≤ block.length
  | [] => false

/-- Taking a block leaves no more bytes. -/
theorem length_block?_le (bytes : List UInt8) : (block? bytes).2.length ≤ bytes.length := by
  unfold block?
  split
  · simp
  · split <;> simp +arith

/-- The bytes after an extension, given its label and what follows. An application block that sets
the number of repetitions is followed by one block of its own, even an empty one. -/
def skipExtension? (label : UInt8) (bytes : List UInt8) : Option (List UInt8) :=
  match block? bytes with
  | (some block, rest) =>
    if label = 249 && !isControl block then none
    else if label = 255 && (ascii "NETSCAPE2.0").isPrefixOf block then
      some (skipBlocks (block? rest).2)
    else some (skipBlocks rest)
  | (none, rest) => if label = 254 then some rest else some (skipBlocks rest)

/-- Skipping an extension leaves no more bytes. -/
theorem length_skipExtension? {label : UInt8} {bytes rest : List UInt8}
    (h : skipExtension? label bytes = some rest) : rest.length ≤ bytes.length := by
  have h1 := length_block?_le bytes
  have h2 := length_skipBlocks_le (block? bytes).2
  have h3 := length_block?_le (block? bytes).2
  have h4 := length_skipBlocks_le (block? (block? bytes).2).2
  unfold skipExtension? at h
  generalize block? bytes = b at *
  obtain ⟨block, mid⟩ := b
  cases block <;> simp only at h <;> repeat' split at h
  all_goals cases h
  all_goals simp only at *
  all_goals omega

/-- The size of a screen with an image on it, given the bytes after the image's mark. -/
def image (width height : Nat) (bytes : List UInt8) : Except Fault (Nat × Nat) := do
  let left ← need (little16? bytes)
  let top ← need (little16? (bytes.drop 2))
  let w ← need (little16? (bytes.drop 4))
  let h ← need (little16? (bytes.drop 6))
  let width' := max width (left + w)
  let height' := max height (top + h)
  if width < left + w || height < top + h then checkPixels width' height'
  let flags ← need bytes[8]?
  let _ ← need (skipTable flags (bytes.drop 9)).head?
  .ok (width', height')

/-- The size of a screen with the first image on it, given the blocks from some one on. Bytes that
begin no block are passed over. -/
def blocks (width height : Nat) (bytes : List UInt8) : Except Fault (Nat × Nat) :=
  match bytes with
  | [] => .error .undecodable
  | 0x3B :: _ => .error .undecodable
  | 0x2C :: rest => image width height rest
  | 0x21 :: label :: rest =>
    match eq : skipExtension? label rest with
    | none => .error .undecodable
    | some after =>
      have := length_skipExtension? eq
      blocks width height after
  | [0x21] => .error .undecodable
  | _ :: rest => blocks width height rest
termination_by bytes.length
decreasing_by
  · simp; omega
  · simp

/-- The header of an image, given the bytes after its signature. -/
def read (bytes : List UInt8) : Except Fault Header := do
  let width ← need (little16? bytes)
  let height ← need (little16? (bytes.drop 2))
  let flags ← need bytes[4]?
  require (7 ≤ bytes.length)
  let (width, height) ← blocks width height (skipTable flags (bytes.drop 7))
  checkSize width height
  .ok ⟨.gif, width, height⟩

end TokenCatalog.Image.Gif
