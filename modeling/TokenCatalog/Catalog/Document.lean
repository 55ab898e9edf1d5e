import TokenCatalog.Catalog.Merge
import TokenCatalog.Catalog.Shape

/-!
# Catalogs as JSON

The JSON form of each part of a catalog and the reading back of it. Members that are absent take a
default; optional members of a token are left out where they hold nothing.
-/

namespace TokenCatalog

def record (members : List (String × Json)) : Json :=
  .obj (members.map fun m => (.text m.1, m.2))

def optionalMember (name : String) (value : Json) : List (String × Json) :=
  match value with
  | .null => []
  | value => [(name, value)]

def sourceTypes : String := "TokenSourceType"

def valueKinds : String := "ValueKind"

def SourceType.ofJson (value : Json) : Except ShapeFault SourceType :=
  value.member sourceTypes SourceType.ofWord?

def ValueKind.ofJson (value : Json) : Except ShapeFault ValueKind :=
  value.member valueKinds ValueKind.ofWord?

/-! ## Locations -/

def SourceLocation.toJson (l : SourceLocation) : Json :=
  record [("filename", l.filename), ("line", l.line), ("column", l.column)]

def SourceLocation.ofJson (data : Json) : Except ShapeFault SourceLocation := do
  let filename ← data.need "filename"
  let line ← data.getOr "line" (.int 0)
  let column ← data.getOr "column" (.int 0)
  .ok ⟨filename, line, column⟩

def SourceLocation.display (l : SourceLocation) : List Char :=
  l.filename.display ++ ':' :: l.line.display ++ ':' :: l.column.display

/-! ## Tokens -/

def Token.toJson (t : Token) : Json :=
  record
    ([("name", t.name), ("value", t.value), ("originalValue", t.sourceValue),
      ("kind", .str t.kind.word), ("isAlias", t.isAlias)] ++
      optionalMember "category" t.category ++ optionalMember "presenter" t.presenter ++
      optionalMember "description" t.description ++ optionalMember "aliasOf" t.aliasOf ++
      optionalMember "sourceFile" t.sourceFile ++
      if t.metadata.isEmpty then [] else [("metadata", .obj t.metadata)])

def Token.ofJson (data : Json) : Except ShapeFault Token := do
  let name ← data.need "name"
  let value ← data.need "value"
  let sourceValue ← data.getOr "originalValue" value
  let kind ← ValueKind.ofJson (← data.getOr "kind" (.str "other"))
  let category ← data.getOr "category" .null
  let presenter ← data.getOr "presenter" .null
  let description ← data.getOr "description" .null
  let isAlias ← data.getOr "isAlias" (.bool false)
  let aliasOf ← data.getOr "aliasOf" .null
  let sourceFile ← data.getOr "sourceFile" .null
  let metadata ← (← data.getOr "metadata" (.obj [])).table
  .ok
    { name, value, sourceValue, kind, category, presenter, description, isAlias, aliasOf,
      sourceFile, metadata }

/-! ## Groups -/

def TokenGroup.toJson (g : TokenGroup) : Json :=
  record [("type", .str g.type.word), ("tokens", .arr (g.tokens.map Token.toJson))]

def TokenGroup.ofJson (data : Json) : Except ShapeFault TokenGroup := do
  let type ← SourceType.ofJson (← data.need "type")
  let tokens ← (← (← data.getOr "tokens" (.arr [])).items).mapM Token.ofJson
  .ok ⟨type, tokens⟩

/-! ## Literals -/

def HardCodedValue.toJson (h : HardCodedValue) : Json :=
  record
    [("value", h.value), ("kind", .str h.kind.word), ("location", h.location.toJson),
      ("property", h.property), ("selector", h.selector)]

def HardCodedValue.ofJson (data : Json) : Except ShapeFault HardCodedValue := do
  let value ← data.need "value"
  let kind ← ValueKind.ofJson (← data.need "kind")
  let location ← SourceLocation.ofJson (← data.need "location")
  let property ← data.getOr "property" .null
  let selector ← data.getOr "selector" (.str "")
  .ok { value, kind, location, property, selector }

/-! ## Catalogs and extractions -/

def Catalog.members (c : Catalog) : List (String × Json) :=
  [("tokenGroups", .arr (c.tokenGroups.map TokenGroup.toJson)),
    ("hardCodedValues", .arr (c.hardCodedValues.map HardCodedValue.toJson)),
    ("keyframes", c.keyframes)]

def Catalog.toJson (c : Catalog) : Json :=
  record c.members

def Catalog.ofJson (data : Json) : Except ShapeFault Catalog := do
  let tokenGroups ← (← (← data.getOr "tokenGroups" (.arr [])).items).mapM TokenGroup.ofJson
  let hardCodedValues ←
    (← (← data.getOr "hardCodedValues" (.arr [])).items).mapM HardCodedValue.ofJson
  let keyframes ← data.getOr "keyframes" (.str "")
  .ok { tokenGroups, hardCodedValues, keyframes }

def Extraction.toJson (e : Extraction) : Json :=
  record (e.toCatalog.members ++ [("sourceType", .str e.sourceType.word)])

/-- The extraction of a JSON form. A source type given beside it is taken instead of its own. -/
def Extraction.ofJson (type? : Option SourceType) (data : Json) :
    Except ShapeFault Extraction := do
  let catalog ← Catalog.ofJson data
  match type? with
  | some type => .ok ⟨catalog, type⟩
  | none => do
    let type ← SourceType.ofJson (← data.getOr "sourceType" (.str "css"))
    .ok ⟨catalog, type⟩

/-! ## Merging what documents hold -/

/-- Why extractions cannot be merged, as a fault of their shape. -/
def MergeFault.shape : MergeFault → ShapeFault
  | name value => .notKey value
  | keyframes index value => .notText index value

/-- The catalog of extractions whose fields nobody has checked. -/
def mergeChecked (extractions : List Extraction) : Except ShapeFault Catalog :=
  match mergeFault? extractions with
  | some fault => .error fault.shape
  | none => .ok (merge extractions)

end TokenCatalog
