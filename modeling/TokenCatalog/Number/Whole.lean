import TokenCatalog.Number.Decimal
import TokenCatalog.Text.Blank
import TokenCatalog.Text.Digit

/-!
# Whole numbers in texts

A whole number as a person writes it: blanks around it, a sign, and digits with single underscores
between them.
-/

namespace TokenCatalog

def isNumberBlank (c : Char) : Bool :=
  Text.isBlank c && !(28 ≤ c.toNat && c.toNat ≤ 31)

/-- The groups of digits in a text of digits and single underscores between them. -/
def digitGroups? (cs : List Char) : Option (List (List Char)) :=
  let groups := Text.pieces (· == '_') cs
  if groups.any (·.isEmpty) then none else some groups

def signed (negative : Bool) (n : Nat) : Int :=
  if negative then -n else n

/-- The whole number that a text denotes; its digits may be of any script. -/
def readWhole? (cs : List Char) : Option Int := do
  let (negative, cs) := readSign (Text.stripBy isNumberBlank cs)
  let digits ← (← digitGroups? cs).flatten.mapM Text.digitValue?
  some (signed negative (Text.ofDigits 10 digits))

end TokenCatalog
