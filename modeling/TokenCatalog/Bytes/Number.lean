/-!
# Numbers in bytes

Whole numbers of two and four bytes at the beginning of a row of bytes, with either end first.
-/

namespace TokenCatalog.Bytes

def big16? : List UInt8 → Option Nat
  | a :: b :: _ => some (a.toNat * 256 + b.toNat)
  | _ => none

def big32? : List UInt8 → Option Nat
  | a :: b :: c :: d :: _ =>
    some (((a.toNat * 256 + b.toNat) * 256 + c.toNat) * 256 + d.toNat)
  | _ => none

def little16? : List UInt8 → Option Nat
  | a :: b :: _ => some (a.toNat + b.toNat * 256)
  | _ => none

def ascii (s : String) : List UInt8 :=
  s.toList.map fun c => UInt8.ofNat c.toNat

end TokenCatalog.Bytes
