import TokenCatalog.Catalog.Model
import TokenCatalog.Text.Blank

/-!
# Merging extractions

Extractions are merged in canonical order of their source types, those of one type in the order
given. Within a group a later token replaces an earlier one of its name in its place. Literals are
listed one after the other, and keyframes are joined by a blank line.

Merging is a total function. Whether names can be told apart and keyframes are text is asked
separately, by `mergeFault?`, because only documents that others have written can fail it.
-/

namespace TokenCatalog

/-! ## Order -/

def ofType (type : SourceType) (extractions : List Extraction) : List Extraction :=
  extractions.filter (·.sourceType = type)

def inOrder (extractions : List Extraction) : List Extraction :=
  SourceType.all.flatMap (ofType · extractions)

/-! ## Tokens -/

def Token.key (token : Token) : Key :=
  token.name.key?.getD .null

/-- The tokens by name: each name at its first place, with its last token. -/
def latest (tokens : List Token) : List Token :=
  (tableOf Key.same (tokens.map fun t => (t.key, t))).map (·.2)

def tokensOf (type : SourceType) (extractions : List Extraction) : List Token :=
  extractions.flatMap fun e =>
    (e.tokenGroups.filter (·.type = type)).flatMap (·.tokens)

def groupOf (type : SourceType) (extractions : List Extraction) : Option TokenGroup :=
  match latest (tokensOf type extractions) with
  | [] => none
  | tokens => some ⟨type, tokens⟩

/-! ## Keyframes -/

def keyframesSeparator : List Char := ['\n', '\n']

def keyframesText : Json → List Char
  | .str s => s.toList
  | _ => []

def joinKeyframes (keyframes : List Json) : Json :=
  .str (String.ofList
    (Text.joinWith keyframesSeparator ((keyframes.filter Json.truthy).map keyframesText)))

/-! ## Merging -/

def merge (extractions : List Extraction) : Catalog :=
  let ordered := inOrder extractions
  { tokenGroups := SourceType.all.filterMap (groupOf · ordered)
    hardCodedValues := ordered.flatMap (·.hardCodedValues)
    keyframes := joinKeyframes (ordered.map (·.keyframes)) }

/-! ## Faults -/

inductive MergeFault where
  | name (value : Json)
  /-- Keyframes that are not text, and their place among those that hold something. -/
  | keyframes (index : Nat) (value : Json)

def badName? (extractions : List Extraction) : Option Json :=
  ((inOrder extractions).flatMap fun e => e.tokenGroups.flatMap (·.names)).find?
    (·.key?.isNone)

def Json.isText : Json → Bool
  | .str _ => true
  | _ => false

def badKeyframes? (extractions : List Extraction) : Option (Nat × Json) :=
  let held := ((inOrder extractions).map (·.keyframes)).filter Json.truthy
  (held.zipIdx.find? (!·.1.isText)).map fun (value, index) => (index, value)

def mergeFault? (extractions : List Extraction) : Option MergeFault :=
  match badName? extractions with
  | some value => some (.name value)
  | none => (badKeyframes? extractions).map fun (index, value) => .keyframes index value

end TokenCatalog
