import TokenCatalog.Xml.Reference

/-!
# Tags

A start tag has a name and attributes with quoted values. It can be broken off where it cannot be
read on; what was read before then counts. The length of the text is always enough fuel.
-/

namespace TokenCatalog.Xml

/-! ## Values -/

/-- Whether a character of a value between some quotation marks stands for itself. -/
def standsForItself (quote c : Char) : Bool :=
  c != quote && c != '&' && c != '<' && (c == ' ' || (!isBlank c && isAllowed c.toNat))

/-- The code point that a character of a value counts as: a space for a blank, and a replacement for
a control character. -/
def valueCode (c : Char) : Nat :=
  if isBlank c then ' '.toNat
  else if c < ' ' then 0xFFFD
  else c.toNat

/-- Takes a value up to its closing quotation mark and the mark; none if the text ends before or a
reference gives no code point. -/
def takeQuoted (elsewhere : Bool) (quote : Char) : Nat → Scan (Option (List Nat))
  | 0 => return none
  | fuel + 1 => do
    let plain := (← Scan.span (standsForItself quote)).map Char.toNat
    match ← Scan.next? with
    | none =>
      Scan.lapse
      return none
    | some c =>
      if c = quote then return some plain
      else if c = '&' then
        match ← takeReference elsewhere with
        | .number 0 => return none
        | .number n => return (← takeQuoted elsewhere quote fuel).map (plain ++ n :: ·)
        | .named c => return (← takeQuoted elsewhere quote fuel).map (plain ++ c.toNat :: ·)
        | .unknown => return (← takeQuoted elsewhere quote fuel).map (plain ++ ·)
      else
        Scan.require (c ≠ '<' && isAllowed c.toNat)
        if c = '\r' then
          let _ ← Scan.word "\n"
        return (← takeQuoted elsewhere quote fuel).map (plain ++ valueCode c :: ·)

/-- Takes a value with its quotation marks, from before blanks on. -/
def takeValue (elsewhere : Bool) (fuel : Nat) : Scan (Option (List Nat)) := do
  let _ ← Scan.blanks
  match ← Scan.quote? with
  | none =>
    Scan.lapse
    return none
  | some quote => takeQuoted elsewhere quote fuel

def takeAssigned (elsewhere : Bool) (fuel : Nat) : Scan (Option (List Nat)) := do
  if ← Scan.word "=" then takeValue elsewhere fuel
  else
    Scan.lapse
    return none

/-- A value with single spaces in place of several and none at its ends. -/
def collapseSpaces (ns : List Nat) : List Nat :=
  [' '.toNat].intercalate ((ns.splitBy fun a b => (a == ' '.toNat) == (b == ' '.toNat)).filter
    (·.head? ≠ some ' '.toNat))

/-! ## Attributes -/

def atTagEnd : Scan Bool := do
  match ← Scan.ahead with
  | '>' :: _ => return true
  | '/' :: '>' :: _ => return true
  | _ => return false

/-- Takes attributes up to the end of the tag or to where they cannot be read on. One without a
value is left out. -/
def takeAttributes (elsewhere : Bool) : Nat → Scan (List (List Char × List Nat))
  | 0 => return []
  | fuel + 1 => do
    if ← atTagEnd then return []
    let name ← Scan.name
    if name.isEmpty then
      Scan.lapse
      return []
    let _ ← Scan.blanks
    let found := (← takeAssigned elsewhere fuel).toList.map fun value => (name, value)
    if ← atTagEnd then return found
    if !(← Scan.blanks) then
      Scan.lapse
      return found
    return found ++ (← takeAttributes elsewhere fuel)

/-! ## Start tags -/

inductive TagEnd where
  | opened
  | closed
  | broken
  deriving DecidableEq, Repr

/-- A start tag; names are as written. -/
structure StartTag where
  name : List Char
  attributes : List (List Char × List Nat)
  ending : TagEnd

/-- Takes a start tag, from after its opening on; none if no name is next. -/
def takeStartTag (elsewhere : Bool) (fuel : Nat) : Scan (Option StartTag) := do
  let name ← Scan.name
  if name.isEmpty then
    Scan.lapse
    return none
  let _ ← Scan.blanks
  let attributes ← takeAttributes elsewhere fuel
  if ← Scan.word ">" then return some ⟨name, attributes, .opened⟩
  if ← Scan.word "/>" then return some ⟨name, attributes, .closed⟩
  Scan.lapse
  return some ⟨name, attributes, .broken⟩

/-- Takes the rest of an end tag, from after its opening on. The name should be a given one. -/
def takeEndTag (name : List Char) : Scan Unit := do
  Scan.require ((← Scan.name) = name)
  let _ ← Scan.blanks
  Scan.require (← Scan.word ">")

end TokenCatalog.Xml
