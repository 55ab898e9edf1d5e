import TokenCatalog.Number.Binary64

/-!
# Numbers written in decimal

Reading a decimal numeral into a binary number, and the three ways a binary number is written: the
shortest text that reads back, a fixed number of places, and the notation that chooses between
positional and exponent form.
-/

namespace TokenCatalog

def isDigit (c : Char) : Bool :=
  '0' ≤ c && c ≤ '9'

def natOfDigits (cs : List Char) : Nat :=
  cs.foldl (fun n c => n * 10 + (c.toNat - 48)) 0

def digitsOfNat (n : Nat) : List Char :=
  Nat.toDigits 10 n

/-- A whole number in decimal, with a minus sign when negative. -/
def textOfInt (n : Int) : List Char :=
  if n < 0 then '-' :: digitsOfNat n.natAbs else digitsOfNat n.natAbs

structure Decimal where
  negative : Bool
  digits : Nat
  exponent : Int
  deriving DecidableEq, Repr, Inhabited

/-! ## Parts of a numeral -/

def takeFraction : List Char → List Char
  | '.' :: cs => if (cs.takeWhile isDigit).isEmpty then [] else '.' :: cs.takeWhile isDigit
  | _ => []

def takeExponent : List Char → List Char
  | c :: cs =>
    if c = 'e' || c = 'E' then
      let sign := match cs with
        | '+' :: _ => ['+']
        | '-' :: _ => ['-']
        | _ => []
      let digits := (cs.drop sign.length).takeWhile isDigit
      if digits.isEmpty then [] else c :: sign ++ digits
    else []
  | [] => []

/-! ## Reading -/

/-- A sign and what follows it; no sign is a plus. -/
def readSign : List Char → Bool × List Char
  | '-' :: cs => (true, cs)
  | '+' :: cs => (false, cs)
  | cs => (false, cs)

def readExponent : List Char → Int
  | c :: cs =>
    if c = 'e' || c = 'E' then
      let (negative, digits) := readSign cs
      let n := natOfDigits (digits.takeWhile isDigit)
      if negative then -(n : Int) else n
    else 0
  | [] => 0

/-- The number that a numeral denotes: a sign, digits, a fraction and an exponent, all but the
digits optional. -/
def Decimal.read (cs : List Char) : Decimal :=
  let (negative, cs) := readSign cs
  let whole := cs.takeWhile isDigit
  let rest := cs.dropWhile isDigit
  let (places, rest) :=
    match rest with
    | '.' :: rest => (rest.takeWhile isDigit, rest.dropWhile isDigit)
    | _ => ([], rest)
  ⟨negative, natOfDigits (whole ++ places), readExponent rest - places.length⟩

def Decimal.toBinary64 (d : Decimal) : Binary64 :=
  Binary64.ofDecimal d.negative d.digits d.exponent

/-! ## The fewest digits that read back -/

namespace Binary64

/-- The exponent of the leading decimal digit of the positive number `significand * 2 ^ exponent`.
Every number of the format is above `10 ^ (-350)`. -/
def leadingDigit (significand : Nat) (exponent : Int) : Int :=
  let (a, b) := scaled (significand * Nat.pow 10 350) 1 exponent
  (digitsOfNat (a / b)).length - 351

/-- Of the two decimals with `count` digits around a positive number the nearer one that reads
back, the even one of two equally near. -/
def roundTripAt? (significand : Nat) (exponent : Int) (count : Nat) : Option Decimal :=
  let unit := leadingDigit significand exponent - (count : Int) + 1
  let (a, b) := scaled significand 1 exponent
  let (a, b) := if 0 ≤ unit then (a, b * Nat.pow 10 unit.toNat)
    else (a * Nat.pow 10 (-unit).toNat, b)
  let low := a / b
  let readsBack (n : Nat) : Bool := ofDecimal false n unit == finite false significand exponent
  let lowNearer := roundHalfEven a b == low
  if readsBack low && (lowNearer || !readsBack (low + 1)) then some ⟨false, low, unit⟩
  else if readsBack (low + 1) then some ⟨false, low + 1, unit⟩
  else none

/-- The decimal with the fewest digits that reads back as a positive number. Seventeen digits are
always enough; the exact value stands in where the search finds none. -/
def shortest (significand : Nat) (exponent : Int) : Decimal :=
  ((List.range 17).findSome? fun k => roundTripAt? significand exponent (k + 1)).getD
    (if 0 ≤ exponent then ⟨false, significand * Nat.pow 2 exponent.toNat, 0⟩
      else ⟨false, significand * Nat.pow 5 (-exponent).toNat, exponent⟩)

def dropZeros (digits : List Char) : List Char × Nat :=
  let kept := (digits.reverse.dropWhile (· == '0')).reverse
  (kept, digits.length - kept.length)

def exponentText (n : Int) : List Char :=
  let digits := digitsOfNat n.natAbs
  (if n < 0 then '-' else '+') :: List.replicate (2 - digits.length) '0' ++ digits

/-- A positive decimal in positional notation, or in exponent notation where its first digit stands
four or more places after the point or seventeen or more before it. -/
def decimalText (d : Decimal) : List Char :=
  let (digits, zeros) := dropZeros (digitsOfNat d.digits)
  let point : Int := digits.length + zeros + d.exponent
  if point ≤ -4 || point > 16 then
    let mantissa :=
      match digits with
      | [] => []
      | [c] => [c]
      | c :: cs => c :: '.' :: cs
    mantissa ++ 'e' :: exponentText (point - 1)
  else if point ≤ 0 then
    '0' :: '.' :: List.replicate (-point).toNat '0' ++ digits
  else if digits.length ≤ point.toNat then
    digits ++ List.replicate (point.toNat - digits.length) '0' ++ ['.', '0']
  else digits.take point.toNat ++ '.' :: digits.drop point.toNat

/-- The words for the numbers that no digits denote. -/
structure SpecialWords where
  nan : String
  infinity : String

/-- A number in the fewest digits that read back; a whole number keeps `.0`. -/
def shortestText (words : SpecialWords) : Binary64 → List Char
  | nan => words.nan.toList
  | infinite negative => (if negative then ['-'] else []) ++ words.infinity.toList
  | finite negative significand exponent =>
    (if negative then ['-'] else []) ++
      if significand = 0 then ['0', '.', '0'] else decimalText (shortest significand exponent)

/-! ## Fixed places -/

/-- A number with a fixed count of places after the point, the last one rounded half to even. -/
def fixedText (places : Nat) : Binary64 → List Char
  | nan => ['n', 'a', 'n']
  | infinite negative => (if negative then ['-'] else []) ++ ['i', 'n', 'f']
  | finite negative significand exponent =>
    let (a, b) := scaled (significand * Nat.pow 10 places) 1 exponent
    let digits := digitsOfNat (roundHalfEven a b)
    let digits := List.replicate (places + 1 - digits.length) '0' ++ digits
    let whole := digits.take (digits.length - places)
    (if negative then ['-'] else []) ++ whole ++
      if places = 0 then [] else '.' :: digits.drop (digits.length - places)

end Binary64

end TokenCatalog
