import TokenCatalog.Json.Basic
import TokenCatalog.Source.Type
import TokenCatalog.Value.Kind

/-!
# The catalog

Tokens in groups by source type, literals found outside token declarations, and keyframes. Documents
that others have written may hold any value in a field, so fields whose content nothing depends on
are plain JSON values; an optional field holds null when it is absent.
-/

namespace TokenCatalog

structure Token where
  name : Json
  value : Json
  sourceValue : Json
  kind : ValueKind := .other
  category : Json := .null
  presenter : Json := .null
  description : Json := .null
  isAlias : Json := .bool false
  aliasOf : Json := .null
  sourceFile : Json := .null
  metadata : List (Key × Json) := []
  deriving Repr

structure TokenGroup where
  type : SourceType
  tokens : List Token := []
  deriving Repr

structure SourceLocation where
  filename : Json
  line : Json
  column : Json
  deriving Repr

/-- A literal that no token declaration gives a name to. -/
structure HardCodedValue where
  value : Json
  kind : ValueKind
  location : SourceLocation
  property : Json := .null
  selector : Json := .str ""
  deriving Repr

structure Catalog where
  tokenGroups : List TokenGroup := []
  hardCodedValues : List HardCodedValue := []
  keyframes : Json := .str ""
  deriving Repr

/-- What was extracted from files of one source type. -/
structure Extraction extends Catalog where
  sourceType : SourceType := .css
  deriving Repr

def Extraction.empty (type : SourceType) : Extraction :=
  { sourceType := type }

/-! ## Lookup -/

def TokenGroup.names (group : TokenGroup) : List Json :=
  group.tokens.map (·.name)

def TokenGroup.get? (group : TokenGroup) (name : Json) : Option Token :=
  group.tokens.find? (·.name.equal name)

def Catalog.group? (catalog : Catalog) (type : SourceType) : Option TokenGroup :=
  catalog.tokenGroups.find? (·.type = type)

def Catalog.totalTokens (catalog : Catalog) : Nat :=
  (catalog.tokenGroups.flatMap (·.tokens)).length

end TokenCatalog
