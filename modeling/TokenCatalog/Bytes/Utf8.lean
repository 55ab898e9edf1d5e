import TokenCatalog.Number.Decimal
import TokenCatalog.Text.Digit

/-!
# Text as bytes

UTF-8: one to four bytes a character, the shortest form only, no surrogates, nothing above U+10FFFF.
Decoding stops at the first fault and says which bytes are at fault and why.
-/

namespace TokenCatalog.Utf8

/-! ## Encoding -/

/-- A byte that continues a character, holding the six low bits of `n`. -/
def continuation (n : Nat) : UInt8 :=
  UInt8.ofNat (0x80 + n % 64)

def encodeChar (c : Char) : List UInt8 :=
  let n := c.toNat
  if n < 0x80 then [UInt8.ofNat n]
  else if n < 0x800 then [UInt8.ofNat (0xC0 + n / 64), continuation n]
  else if n < 0x10000 then
    [UInt8.ofNat (0xE0 + n / 4096), continuation (n / 64), continuation n]
  else
    [UInt8.ofNat (0xF0 + n / 262144), continuation (n / 4096), continuation (n / 64),
      continuation n]

def encode (cs : List Char) : List UInt8 :=
  cs.flatMap encodeChar

/-! ## Faults -/

inductive Reason where
  | startByte
  | continuationByte
  | endOfData
  deriving DecidableEq, Repr

/-- The bytes at fault, the position of the first one, and the reason. -/
structure Fault where
  position : Nat
  first : UInt8
  count : Nat
  reason : Reason
  deriving DecidableEq, Repr

def Reason.message : Reason → String
  | startByte => "invalid start byte"
  | continuationByte => "invalid continuation byte"
  | endOfData => "unexpected end of data"

def Fault.message (fault : Fault) : String :=
  let place :=
    if fault.count = 1 then
      "byte 0x".toList ++ Text.hexFilled 2 fault.first.toNat ++ " in position ".toList ++
        digitsOfNat fault.position
    else
      "bytes in position ".toList ++ digitsOfNat fault.position ++ '-' ::
        digitsOfNat (fault.position + fault.count - 1)
  String.ofList ("'utf-8' codec can't decode ".toList ++ place ++ ": ".toList ++
    fault.reason.message.toList)

/-! ## Decoding -/

def isContinuation (b : UInt8) : Bool :=
  0x80 ≤ b && b < 0xC0

/-- Whether a second byte may follow the first byte of a character of three or four bytes: it
continues, and leaves no overlong form, no surrogate and nothing above the last code point. -/
def followsLead (lead second : UInt8) : Bool :=
  isContinuation second &&
    (if lead = 0xE0 then 0xA0 ≤ second
      else if lead = 0xED then second < 0xA0
      else if lead = 0xF0 then 0x90 ≤ second
      else if lead = 0xF4 then second < 0x90
      else true)

def low6 (b : UInt8) : Nat := b.toNat % 64

inductive Step where
  | char (c : Char) (rest : List UInt8)
  | fault (count : Nat) (reason : Reason)

/-- The character that a byte begins, given the bytes after it. -/
def step (lead : UInt8) (rest : List UInt8) : Step :=
  if lead < 0x80 then .char (Char.ofNat lead.toNat) rest
  else if lead < 0xC2 || 0xF4 < lead then .fault 1 .startByte
  else if lead < 0xE0 then
    match rest with
    | [] => .fault 1 .endOfData
    | b :: rest =>
      if isContinuation b then .char (Char.ofNat (lead.toNat % 32 * 64 + low6 b)) rest
      else .fault 1 .continuationByte
  else
    match rest with
    | [] => .fault 1 .endOfData
    | b :: rest =>
      if !followsLead lead b then .fault 1 .continuationByte
      else
        match rest with
        | [] => .fault 2 .endOfData
        | c :: rest =>
          if !isContinuation c then .fault 2 .continuationByte
          else if lead < 0xF0 then
            .char (Char.ofNat ((lead.toNat % 16 * 64 + low6 b) * 64 + low6 c)) rest
          else
            match rest with
            | [] => .fault 3 .endOfData
            | d :: rest =>
              if !isContinuation d then .fault 3 .continuationByte
              else
                .char (Char.ofNat (((lead.toNat % 8 * 64 + low6 b) * 64 + low6 c) * 64 + low6 d))
                  rest

/-- A step leaves no more bytes than it was given. -/
theorem length_rest_of_step {lead : UInt8} {bytes rest : List UInt8} {c : Char}
    (h : step lead bytes = .char c rest) : rest.length ≤ bytes.length := by
  unfold step at h
  repeat' split at h
  all_goals cases h
  all_goals simp +arith

def decodeFrom (position : Nat) : List UInt8 → Except Fault (List Char)
  | [] => .ok []
  | lead :: bytes =>
    match h : step lead bytes with
    | .char c rest =>
      have := length_rest_of_step h
      (decodeFrom (position + (bytes.length - rest.length) + 1) rest).map (c :: ·)
    | .fault count reason => .error ⟨position, lead, count, reason⟩
termination_by bytes => bytes.length

def decode (bytes : List UInt8) : Except Fault (List Char) :=
  decodeFrom 0 bytes

/-! ## Byte order mark -/

def dropMark : List UInt8 → List UInt8
  | 0xEF :: 0xBB :: 0xBF :: bytes => bytes
  | bytes => bytes

/-- The text of bytes after one leading byte order mark, if there is one. -/
def decodeMarked (bytes : List UInt8) : Except Fault (List Char) :=
  decode (dropMark bytes)

end TokenCatalog.Utf8
