import TokenCatalog.Bytes.Number
import TokenCatalog.Image.Format

/-!
# JPEG

A row of segments, each begun by a marker, up to the start of the scan or the end of the bytes. A
frame header gives the size, the last one counting; tables must be complete.
-/

namespace TokenCatalog.Image.Jpeg

open TokenCatalog.Bytes (ascii big16?)

/-! ## Markers -/

inductive Segment where
  | frame
  | tables
  | application (number : Nat)
  | other
  /-- The scan, after whose header the pixels follow. -/
  | scan
  | bare
  | filler
  | stuffing
  | unknown
  deriving DecidableEq, Repr

def segmentOf (b : UInt8) : Segment :=
  let n := b.toNat
  if n = 0 then .stuffing
  else if n = 0xFF then .filler
  else if n = 0xC8 || (0xD0 ≤ n && n ≤ 0xD9) || (0xF0 ≤ n && n ≤ 0xFD) then .bare
  else if n = 0xC4 || n = 0xCC || n = 0xDC || n = 0xDD || n = 0xDF || n = 0xFE then .other
  else if (0xC0 ≤ n && n ≤ 0xCF) || n = 0xDE then .frame
  else if n = 0xDA then .scan
  else if n = 0xDB then .tables
  else if 0xE0 ≤ n && n ≤ 0xEF then .application (n - 0xE0)
  else .unknown

/-! ## Segments -/

/-- The data of a segment and the bytes after it. A length below that of its own two bytes stands
for no data. -/
def data? (bytes : List UInt8) : Option (List UInt8 × List UInt8) := do
  let n ← big16? bytes
  let rest := bytes.drop 2
  if n - 2 ≤ rest.length then some (rest.take (n - 2), rest.drop (n - 2)) else none

/-- A segment leaves fewer bytes. -/
theorem length_of_data? {bytes data rest : List UInt8} (h : data? bytes = some (data, rest)) :
    rest.length ≤ bytes.length := by
  unfold data? at h
  cases hn : big16? bytes with
  | none => simp [hn] at h
  | some n =>
    simp only [hn, Option.bind_eq_bind, Option.bind_some] at h
    split at h
    · cases h
      simp +arith
    · cases h

/-- The size that has been found, and the data of colour profiles so far. -/
structure State where
  size : Option (Nat × Nat) := none
  profiles : List (List UInt8) := []

def areTables : List UInt8 → Bool
  | [] => true
  | v :: rest =>
    let n := if v.toNat < 16 then 64 else 128
    n ≤ rest.length && areTables (rest.drop n)
termination_by bytes => bytes.length

/-- The state after a frame header: eight bits a sample, one, three or four components with three
bytes for each that is described. Profiles that have been collected must be long enough to be
told apart. -/
def State.frame? (s : State) (data : List UInt8) : Option State := do
  let height ← big16? (data.drop 1)
  let width ← big16? (data.drop 3)
  let layers ← data[5]?
  if data[0]? = some 8 && [1, 3, 4].contains layers.toNat && data.length % 3 = 0 &&
      s.profiles.all fun p => 14 ≤ p.length || s.profiles.any (· < p) then
    some ⟨some (width, height), []⟩
  else none

/-- The state after application data: the two kinds that begin with a version must hold it. -/
def State.application? (s : State) (number : Nat) (data : List UInt8) : Option State :=
  if number = 0 && (ascii "JFIF").isPrefixOf data then
    if 7 ≤ data.length then some s else none
  else if number = 14 && (ascii "Adobe").isPrefixOf data then
    if 7 ≤ data.length then some s else none
  else if number = 2 && (ascii "ICC_PROFILE" ++ [0]).isPrefixOf data then
    some { s with profiles := s.profiles ++ [data] }
  else some s

def State.segment? (s : State) (kind : Segment) (data : List UInt8) : Option State :=
  match kind with
  | .frame => s.frame? data
  | .tables => if areTables data then some s else none
  | .application number => s.application? number data
  | _ => some s

/-! ## The row of segments -/

/-- The state at the start of the scan or at the end of the bytes. Before a marker other bytes are
passed over; `marked` says that the first byte of a marker has been read. -/
def segments (s : State) (marked : Bool) (bytes : List UInt8) : Except Fault State :=
  match bytes with
  | [] => if marked then .error .undecodable else .ok s
  | b :: rest =>
    if !marked then segments s (b = 0xFF) rest
    else
      match segmentOf b with
      | .unknown => .error .undecodable
      | .filler => segments s true rest
      | .stuffing => segments s false rest
      | .bare => segments s false rest
      | kind =>
        match eq : data? rest with
        | none => .error .undecodable
        | some (data, after) =>
          have := length_of_data? eq
          match s.segment? kind data with
          | none => .error .undecodable
          | some s => if kind = .scan then .ok s else segments s false after
termination_by bytes.length

/-- The header of an image, given the bytes after its first three. -/
def read (bytes : List UInt8) : Except Fault Header := do
  let s ← segments {} true bytes
  let (width, height) ← need s.size
  checkSize width height
  .ok ⟨.jpeg, width, height⟩

end TokenCatalog.Image.Jpeg
