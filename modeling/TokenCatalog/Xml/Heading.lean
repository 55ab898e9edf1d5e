import TokenCatalog.Xml.Scan

/-!
# The heading of a text

A text can begin with a heading that gives the version of its form, its encoding, and whether it
stands alone, in this order. A heading of another form ends at the next closing bracket.
-/

namespace TokenCatalog.Xml.Heading

/-- Takes an entry of the heading: its key, an equals sign, and its value between quotes. -/
def entry (key : String) (value : Scan (Option (List Char))) : Scan (Option (List Char)) := do
  let _ ← Scan.blanks
  if !(← Scan.word key) then return none
  let _ ← Scan.blanks
  if !(← Scan.word "=") then
    Scan.lapse
    return none
  let _ ← Scan.blanks
  match ← Scan.quote? with
  | none =>
    Scan.lapse
    return none
  | some quote =>
    let found ← value
    if ← Scan.word quote.toString then return found
    else
      Scan.lapse
      return none

/-- Takes the number of a version: a digit, a point and any digits. -/
def version : Scan (Option (List Char)) := do
  match ← Scan.ahead with
  | c :: _ =>
    if isDigit c then
      let _ ← Scan.next?
      if ← Scan.word "." then return some (c :: '.' :: (← Scan.span isDigit))
      else return none
    else return none
  | [] => return none

def encoding : Scan (Option (List Char)) := do
  if (← Scan.ahead).head?.any Char.isAlpha then
    return some (← Scan.span fun c => c.isAlpha || isDigit c || c == '.' || c == '_' || c == '-')
  else
    Scan.lapse
    return none

def answer : Scan (Option (List Char)) := do
  if ← Scan.word "no" then return some "no".toList
  else if ← Scan.word "yes" then return some "yes".toList
  else
    Scan.lapse
    return none

/-- Takes the end of a heading if it is next; if it is not, a blank must be. -/
def ends : Scan Bool := do
  if ← Scan.word "?>" then return true
  else
    Scan.require ((← Scan.ahead).head?.any isBlank)
    return false

/-- Takes a heading, from after its opening on, and says whether the text stands alone. The version
must be one of the first form. -/
def take : Scan Bool := do
  let version ← entry "version" version
  Scan.require (version.any (·.head? = some '1'))
  if ← ends then return false
  let encoding ← entry "encoding" encoding
  let ended ← if encoding.isSome then ends else pure false
  if ended then return false
  let alone ← entry "standalone" answer
  let _ ← Scan.blanks
  if !(← Scan.word "?>") then
    Scan.lapse
    let _ ← Scan.span fun c => c != '>' && c != '\x00'
    let _ ← Scan.word ">"
  return alone = some "yes".toList

def take? : Scan Bool := do
  match Text.after? "<?xml".toList (← Scan.ahead) with
  | some (c :: _) =>
    if isBlank c then
      let _ ← Scan.word "<?xml"
      take
    else return false
  | _ => return false

end TokenCatalog.Xml.Heading
