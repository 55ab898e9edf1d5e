import TokenCatalog.Source.File
import TokenCatalog.Stylesheet.LineComment
import TokenCatalog.Stylesheet.Scope

/-!
# Reading a stylesheet

A stylesheet is decoded, its line comments are turned into block comments if the dialect has them,
and its tree is checked for faults before anything is taken from it, so that a faulty file
contributes nothing.
-/

namespace TokenCatalog.Stylesheet

inductive Fault where
  | undecodable (fault : Utf8.Fault)
  | malformed (fault : Css.FaultAt)
  | color (fault : Css.ColorFault)

def findings (dialect : Dialect) (filename : String) (text : List Char) :
    Except Fault Findings :=
  let text := if dialect.hasLineComments then withBlockComments text else text
  let nodes := Css.parse text
  match Css.firstFault? nodes with
  | some fault => .error (.malformed fault)
  | none =>
    match walk ⟨dialect, filename, []⟩ none (.enter none) (statements dialect nodes) with
    | .ok found => .ok found
    | .error fault => .error (.color fault)

/-- Findings as an extraction: tokens by name, keyframes with a blank line between them. -/
def Findings.toExtraction (type : SourceType) (found : Findings) : Extraction where
  sourceType := type
  tokenGroups := if found.tokens.isEmpty then [] else [⟨type, latest found.tokens⟩]
  hardCodedValues := found.hardCoded
  keyframes := .str (String.ofList (Text.joinWith keyframesSeparator found.keyframes))

def parseFile (dialect : Dialect) (file : SourceFile) : Except Fault Extraction :=
  match file.text with
  | .error fault => .error (.undecodable fault)
  | .ok text => (findings dialect file.filename text).map (·.toExtraction dialect.sourceType)

end TokenCatalog.Stylesheet
