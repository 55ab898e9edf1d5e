import TokenCatalog.Project.Braces
import TokenCatalog.Project.Glob
import TokenCatalog.Project.Ignore

/-!
# Discovery

The files of a project that may hold tokens: those that the project's pattern selects and no ignore
rule leaves out, in the order of their paths.
-/

namespace TokenCatalog.Project

inductive DiscoverFault where
  | ignoreList (fault : IgnoreFault)
  | glob (fault : GlobFault)
  | access (fault : AccessFault)
  deriving DecidableEq, Repr

def inPathOrder (paths : List Path) : List Path :=
  paths.eraseDups.mergeSort fun p q => String.ofList p.text ≤ String.ofList q.text

def Tree.glob (t : Tree) (pattern : List Char) : Except DiscoverFault (List Path) := do
  let parts ← (globParts pattern).mapError .glob
  (t.filesOf parts).mapError .access

/-- The files that a pattern with brace groups selects and a list of ignore patterns does not leave
out. -/
def Tree.discover (t : Tree) (pattern : String) (ignore : List String) :
    Except DiscoverFault (List Path) := do
  let rules ← (ignoreRules (ignore.map String.toList)).mapError .ignoreList
  let selected ← (expandBraces pattern.toList).mapM t.glob
  .ok (inPathOrder (selected.flatten.filter fun path => !ignored rules path.text))

end TokenCatalog.Project
