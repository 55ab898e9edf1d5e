/-!
# Binary floating point numbers

The 64-bit binary format as data: a sign, a significand of at most 53 bits and an exponent, or an
infinity, or not a number. Every operation is exact arithmetic on whole numbers followed by one
rounding, to the nearest number and from a tie to the even significand, so its meaning does not
rest on a processor.

Numbers are kept canonical: the significand uses all 53 bits unless the exponent is the least one.
Hence two finite numbers of one sign are equal exactly when their parts are.
-/

namespace TokenCatalog

inductive Binary64 where
  | finite (negative : Bool) (significand : Nat) (exponent : Int)
  | infinite (negative : Bool)
  | nan
  deriving DecidableEq, Repr, Inhabited

/-! ## Rounding -/

/-- The whole number nearest to `num / den`, the even one of two. -/
def roundHalfEven (num den : Nat) : Nat :=
  let quotient := num / den
  let twice := 2 * (num % den)
  if twice < den then quotient
  else if twice > den then quotient + 1
  else quotient + quotient % 2

namespace Binary64

def minExponent : Int := -1074

def maxExponent : Int := 971

def scaled (num den : Nat) (shift : Int) : Nat × Nat :=
  if 0 ≤ shift then (num * Nat.pow 2 shift.toNat, den)
  else (num, den * Nat.pow 2 (-shift).toNat)

def leadingBit (num den : Nat) : Int :=
  let guess : Int := (Nat.log2 num : Int) - Nat.log2 den
  let (a, b) := scaled num den (-guess)
  if b ≤ a then guess else guess - 1

def ofRatio (negative : Bool) (num den : Nat) : Binary64 :=
  if num = 0 then finite negative 0 minExponent
  else
    let exponent := max (leadingBit num den - 52) minExponent
    let (a, b) := scaled num den (-exponent)
    let significand := roundHalfEven a b
    let (significand, exponent) :=
      if significand = Nat.pow 2 53 then (Nat.pow 2 52, exponent + 1) else (significand, exponent)
    if exponent > maxExponent then infinite negative else finite negative significand exponent

def ofScaled (n : Int) (exponent : Int) : Binary64 :=
  let (a, b) := scaled n.natAbs 1 exponent
  ofRatio (n < 0) a b

def zero : Binary64 := finite false 0 minExponent

def ofInt (n : Int) : Binary64 :=
  ofRatio (n < 0) n.natAbs 1

def one : Binary64 := ofInt 1

/-- The number nearest to `± digits * 10 ^ exponent`. Exponents far outside the range are cut short
before a power of ten is formed. -/
def ofDecimal (negative : Bool) (digits : Nat) (exponent : Int) : Binary64 :=
  if digits = 0 then finite negative 0 minExponent
  else
    let magnitude : Int := (Nat.toDigits 10 digits).length + exponent
    if magnitude > 320 then infinite negative
    else if magnitude < -340 then finite negative 0 minExponent
    else if 0 ≤ exponent then ofRatio negative (digits * Nat.pow 10 exponent.toNat) 1
    else ofRatio negative digits (Nat.pow 10 (-exponent).toNat)

/-! ## Sign and order -/

/-- Whether the sign is minus; not a number has none. -/
def isNegative : Binary64 → Bool
  | finite negative _ _ => negative
  | infinite negative => negative
  | nan => false

def isZero : Binary64 → Bool
  | finite _ significand _ => significand == 0
  | _ => false

def neg : Binary64 → Binary64
  | finite negative significand exponent => finite (!negative) significand exponent
  | infinite negative => infinite (!negative)
  | nan => nan

def signed (negative : Bool) (significand : Nat) : Int :=
  if negative then -(significand : Int) else significand

def aligned (m : Int) (e : Int) (n : Int) (f : Int) : Int × Int × Int :=
  let low := min e f
  (m * Nat.pow 2 (e - low).toNat, n * Nat.pow 2 (f - low).toNat, low)

/-- The order of two numbers, none if one of them is not a number. Both zeros are equal. -/
def compare? : Binary64 → Binary64 → Option Ordering
  | nan, _ => none
  | _, nan => none
  | infinite a, infinite b => some (compare (signed a 1) (signed b 1))
  | infinite a, finite _ _ _ => some (if a then .lt else .gt)
  | finite _ _ _, infinite b => some (if b then .gt else .lt)
  | finite s m e, finite t n f =>
    let (x, y, _) := aligned (signed s m) e (signed t n) f
    some (compare x y)

def lt (a b : Binary64) : Bool := compare? a b == some .lt

def le (a b : Binary64) : Bool := compare? a b == some .lt || compare? a b == some .eq

/-- Numerically equal: both zeros are, and not a number differs from everything. -/
def eq (a b : Binary64) : Bool := compare? a b == some .eq

/-! ## Arithmetic -/

/-- The sum. A sum of exactly zero is a positive zero unless both terms are negative. -/
def add : Binary64 → Binary64 → Binary64
  | nan, _ => nan
  | _, nan => nan
  | infinite a, infinite b => if a == b then infinite a else nan
  | infinite a, finite _ _ _ => infinite a
  | finite _ _ _, infinite b => infinite b
  | finite s m e, finite t n f =>
    let (x, y, low) := aligned (signed s m) e (signed t n) f
    if x + y = 0 then finite (s && t) 0 minExponent else ofScaled (x + y) low

def sub (a b : Binary64) : Binary64 := add a (neg b)

def mul : Binary64 → Binary64 → Binary64
  | nan, _ => nan
  | _, nan => nan
  | infinite a, infinite b => infinite (a != b)
  | infinite a, finite t n _ => if n = 0 then nan else infinite (a != t)
  | finite s m _, infinite b => if m = 0 then nan else infinite (s != b)
  | finite s m e, finite t n f =>
    let (a, b) := scaled (m * n) 1 (e + f)
    ofRatio (s != t) a b

/-- The quotient; a zero divisor gives an infinity, or not a number for a zero dividend. -/
def div : Binary64 → Binary64 → Binary64
  | nan, _ => nan
  | _, nan => nan
  | infinite _, infinite _ => nan
  | infinite a, finite t _ _ => infinite (a != t)
  | finite s _ _, infinite b => finite (s != b) 0 minExponent
  | finite s m e, finite t n f =>
    if n = 0 then if m = 0 then nan else infinite (s != t)
    else
      let (a, b) := scaled m n (e - f)
      ofRatio (s != t) a b

/-- The number less the greatest whole number not above it, rounded once: the sign and the size of
the remainder that truncation leaves are exact, and one is added to a negative one. -/
def fraction : Binary64 → Binary64
  | nan => nan
  | infinite _ => nan
  | finite s m e =>
    if 0 ≤ e then zero
    else
      let unit := Nat.pow 2 (-e).toNat
      let rest := m % unit
      if rest = 0 then zero
      else if s then add (ofScaled (-(rest : Int)) e) one
      else ofScaled rest e

/-! ## Whole numbers -/

/-- The whole number nearest to a finite number, the even one of two. -/
def round? : Binary64 → Option Int
  | finite s m e =>
    let (a, b) := scaled m 1 e
    some (signed s (roundHalfEven a b))
  | _ => none

def toInt? : Binary64 → Option Int
  | finite s m e =>
    let (a, b) := scaled m 1 e
    if a % b = 0 then some (signed s (a / b)) else none
  | _ => none

end Binary64

end TokenCatalog
