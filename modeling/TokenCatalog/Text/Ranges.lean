/-!
# Character classes as ranges of code points

A Unicode property that no short rule describes is a list of closed ranges of code points.
-/

namespace TokenCatalog.Text

/-- A character class: closed ranges of code points. -/
abbrev Ranges := List (Nat × Nat)

def Ranges.holds (ranges : Ranges) (n : Nat) : Bool :=
  ranges.any fun r => r.1 ≤ n && n ≤ r.2

end TokenCatalog.Text
