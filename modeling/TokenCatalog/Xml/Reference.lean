import TokenCatalog.Bytes.Utf8
import TokenCatalog.Xml.Scan

/-!
# References

A reference names one of five characters or gives a code point. One that is cut short or unknown
stands for nothing. A code point need not be that of a character, so what holds references is first
a row of code points, and those of no character show when they are to become text.
-/

namespace TokenCatalog.Xml

inductive Reference where
  | named (c : Char)
  /-- A code point; zero if the reference gives none. -/
  | number (n : Nat)
  | unknown
  deriving DecidableEq, Repr

def entity? (name : List Char) : Option Char :=
  [("amp", '&'), ("lt", '<'), ("gt", '>'), ("quot", '"'), ("apos", '\'')].lookup
    (String.ofList name)

/-- The code point of a number; what lies beyond the last one is replaced. -/
def codePoint (n : Nat) : Nat :=
  if n < 0x110000 then n else 0xFFFD

def takeNumber (base : Nat) (isDigit : Char → Bool) : Scan Reference := do
  let digits ← Scan.span isDigit
  if ← Scan.word ";" then
    let n := Text.ofDigits base (digits.filterMap Text.hexValue?)
    Scan.require (isAllowed n)
    return .number (codePoint n)
  else
    Scan.lapse
    return .number 0

/-- Takes a reference, from after its ampersand on. An unknown name is a lapse unless names may be
declared elsewhere. -/
def takeReference (elsewhere : Bool) : Scan Reference := do
  if ← Scan.word "#x" then takeNumber 16 Text.isHex
  else if ← Scan.word "#" then takeNumber 10 isDigit
  else
    let name ← Scan.name
    let closed ← if name.isEmpty then pure false else Scan.word ";"
    if !closed then
      Scan.lapse
      return .unknown
    else
      match entity? name with
      | some c => return .named c
      | none =>
        Scan.require elsewhere
        return .unknown

/-- The text of code points. The first surrogate is at fault, at its place in bytes: its first byte
begins a character that its second byte cannot go on with. -/
def textOf (ns : List Nat) : Except Utf8.Fault (List Char) :=
  let text := (ns.takeWhile fun n => n.isValidChar).map Char.ofNat
  if ns.all fun n => n.isValidChar then .ok text
  else .error ⟨(Utf8.encode text).length, 0xED, 1, .continuationByte⟩

end TokenCatalog.Xml
