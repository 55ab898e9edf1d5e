/-!
# Decimal digits

Every script's decimal digits are ten code points in a row, zero first, so a list of zeros gives
the value of each digit. Hexadecimal digits are decimal digits of any script or the letters a to f.
-/

namespace TokenCatalog.Text

def digitZeros : List Nat :=
  [48, 1632, 1776, 1984, 2406, 2534, 2662, 2790, 2918, 3046, 3174, 3302, 3430, 3558, 3664, 3792,
   3872, 4160, 4240, 6112, 6160, 6470, 6608, 6784, 6800, 6992, 7088, 7232, 7248, 42528, 43216,
   43264, 43472, 43504, 43600, 44016, 65296, 66720, 68912, 69734, 69872, 69942, 70096, 70384,
   70736, 70864, 71248, 71360, 71472, 71904, 72016, 72784, 73040, 73120, 92768, 92864, 93008,
   120782, 120792, 120802, 120812, 120822, 123200, 123632, 125264, 130032]

def digitValue? (c : Char) : Option Nat :=
  (digitZeros.find? fun start => start ≤ c.toNat && c.toNat < start + 10).map (c.toNat - ·)

def hexValue? (c : Char) : Option Nat :=
  if '0' ≤ c && c ≤ '9' then some (c.toNat - 48)
  else if 'a' ≤ c && c ≤ 'f' then some (c.toNat - 87)
  else if 'A' ≤ c && c ≤ 'F' then some (c.toNat - 55)
  else none

def isHex (c : Char) : Bool :=
  (hexValue? c).isSome

/-- The value of a hexadecimal digit whose decimal digits may be of any script. -/
def wideHexValue? (c : Char) : Option Nat :=
  hexValue? c <|> digitValue? c

def ofDigits (base : Nat) (digits : List Nat) : Nat :=
  digits.foldl (fun n d => n * base + d) 0

def hexDigit (n : Nat) : Char :=
  Nat.digitChar n

/-- A number in hexadecimal, zero filled on the left up to a width. -/
def hexFilled (width n : Nat) : List Char :=
  let digits := Nat.toDigits 16 n
  List.replicate (width - digits.length) '0' ++ digits

/-! ## Characters by their codes -/

/-- Whether a code is that of half a surrogate pair, which no character has. -/
def isHalf (n : Nat) : Bool :=
  0xD800 ≤ n && n < 0xE000

/-- The character of a code point; a number that is none is replaced. A character of the last
private plane stands in for half of a surrogate pair. -/
def charOfCode (n : Nat) : Char :=
  if isHalf n then Char.ofNat (0x100000 + n)
  else if n.isValidChar then Char.ofNat n
  else '\ufffd'

def halfOf? (c : Char) : Option Nat :=
  let n := c.toNat - 0x100000
  if isHalf n then some n else none

end TokenCatalog.Text
