import TokenCatalog.Number.Decimal

/-!
# Timestamps

A moment is a number of seconds since the beginning of 1970, and is written as date and time of day
in Coordinated Universal Time, with microseconds where they are not zero. Leap seconds are not
counted, and the calendar's present rules hold for all years from 1 to 9999.
-/

namespace TokenCatalog.Log

/-! ## Calendar -/

structure Date where
  year : Int
  month : Nat
  day : Nat
  deriving DecidableEq, Repr

/-- The date that lies a number of days after 1 January 1970. Years are counted from March, so that
the day that not every year has comes last; 400 such years have 146097 days. -/
def Date.ofDays (days : Int) : Date :=
  let shifted := days + 719468
  let era := shifted.fdiv 146097
  let dayOfEra := (shifted.fmod 146097).toNat
  let yearOfEra := (dayOfEra - dayOfEra / 1460 + dayOfEra / 36524 - dayOfEra / 146096) / 365
  let dayOfYear := dayOfEra - (365 * yearOfEra + yearOfEra / 4 - yearOfEra / 100)
  let monthFromMarch := (5 * dayOfYear + 2) / 153
  let month := if monthFromMarch < 10 then monthFromMarch + 3 else monthFromMarch - 9
  { year := yearOfEra + era * 400 + (if month ≤ 2 then 1 else 0)
    month := month
    day := dayOfYear - (153 * monthFromMarch + 2) / 5 + 1 }

/-! ## Moments -/

/-- A moment: whole seconds since the beginning of 1970, and microseconds. -/
structure Moment where
  seconds : Int
  micros : Nat
  deriving DecidableEq, Repr

inductive MomentFault where
  | notANumber
  | beyondClock
  | beyondCalendar (year : Int)
  deriving DecidableEq, Repr

def MomentFault.message : MomentFault → String
  | notANumber => "Invalid value NaN (not a number)"
  | beyondClock => "timestamp out of range for platform time_t"
  | beyondCalendar year => String.ofList ("year ".toList ++ textOfInt year ++
      " is out of range".toList)

def microsPerSecond : Nat := 1000000

/-- The moment of a binary number of seconds. The part after the point is multiplied in binary and
then rounded. -/
def Moment.ofSeconds (x : Binary64) : Except MomentFault Moment :=
  match x with
  | .nan => .error .notANumber
  | .infinite _ => .error .beyondClock
  | .finite negative significand exponent =>
    let size := Binary64.finite false significand exponent
    let part := size.fraction
    let whole := ((size.sub part).toInt?).getD 0
    let micros := ((part.mul (.ofInt microsPerSecond)).round?).getD 0
    if (Nat.pow 2 63 : Int) ≤ whole then .error .beyondClock
    else
      let total := whole * microsPerSecond + micros
      let total := if negative then -total else total
      .ok ⟨total.fdiv microsPerSecond, (total.fmod microsPerSecond).toNat⟩

def padded (count n : Nat) : List Char :=
  let digits := digitsOfNat n
  List.replicate (count - digits.length) '0' ++ digits

def secondsPerDay : Nat := 86400

def Moment.text (m : Moment) : Except MomentFault (List Char) :=
  let date := Date.ofDays (m.seconds.fdiv secondsPerDay)
  let second := (m.seconds.fmod secondsPerDay).toNat
  if date.year < 1 || 9999 < date.year then .error (.beyondCalendar date.year)
  else
    .ok
      (padded 4 date.year.toNat ++ '-' :: padded 2 date.month ++ '-' :: padded 2 date.day ++
        'T' :: padded 2 (second / 3600) ++ ':' :: padded 2 (second / 60 % 60) ++
        ':' :: padded 2 (second % 60) ++
        (if m.micros = 0 then [] else '.' :: padded 6 m.micros) ++ "+00:00".toList)

def timestamp (x : Binary64) : Except MomentFault (List Char) := do
  (← Moment.ofSeconds x).text

end TokenCatalog.Log
