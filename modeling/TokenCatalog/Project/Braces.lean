import TokenCatalog.Text.Blank

/-!
# Brace groups

A pattern may hold groups of alternatives between braces, separated by commas. It stands for the
patterns that result when one alternative is taken from every group. Groups may be nested; a brace
without a partner stands for itself.
-/

namespace TokenCatalog.Project

def isBrace (c : Char) : Bool := c == '\x7b' || c == '\x7d'

/-- What stands before, in and after the first group that holds no other group. -/
def group? : List Char → Option (List Char × List Char × List Char)
  | [] => none
  | c :: cs =>
    let inner := cs.takeWhile (!isBrace ·)
    match c == '\x7b', cs.drop inner.length with
    | true, '\x7d' :: after => some ([], inner, after)
    | _, _ => (group? cs).map fun (before, inner, after) => (c :: before, inner, after)

/-- The patterns that a pattern stands for, with at most the given number of groups expanded in any
one of them. -/
def expandWithin : Nat → List Char → List (List Char)
  | 0, cs => [cs]
  | fuel + 1, cs =>
    match group? cs with
    | none => [cs]
    | some (before, inner, after) =>
      ((Text.pieces (· == ',') inner).flatMap fun alternative =>
        expandWithin fuel (before ++ alternative ++ after)).eraseDups

/-- The patterns that a pattern stands for, each of them once. Every expansion uses up an opening
brace, so their number is enough. -/
def expandBraces (cs : List Char) : List (List Char) :=
  expandWithin (cs.count '\x7b') cs

end TokenCatalog.Project
