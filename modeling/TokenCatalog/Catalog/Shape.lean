import TokenCatalog.Json.Basic
import TokenCatalog.Json.Display

/-!
# The shape of documents

Reading parts of a JSON value that someone else has written: members by name, items in turn, words
of an enumeration, tables. Each reading says what is wrong with a value of another shape.
-/

namespace TokenCatalog

inductive ShapeFault where
  | missing (name : String)
  | notMember (value : Json) (enumeration : String)
  | noMembers (value : Json)
  /-- A value has no way to ask for a member that may be absent. -/
  | noLookup (value : Json)
  | noItems (value : Json)
  /-- An entry of a table has another number of items than two. -/
  | notPair (index count : Nat)
  | noPair (index : Nat)
  /-- A list or object stands where a key is needed. -/
  | notKey (value : Json)
  | notText (index : Nat) (value : Json)

def Json.typeWord : Json → String
  | .null => "NoneType"
  | .bool _ => "bool"
  | .int _ => "int"
  | .real _ => "float"
  | .str _ => "str"
  | .arr _ => "list"
  | .obj _ => "dict"

def ShapeFault.message : ShapeFault → String
  | missing name => String.ofList (quoted name)
  | notMember value enumeration =>
    String.ofList value.inspect ++ " is not a valid " ++ enumeration
  | noMembers (.arr _) => "list indices must be integers or slices, not str"
  | noMembers (.str _) => "string indices must be integers, not 'str'"
  | noMembers value => "'" ++ value.typeWord ++ "' object is not subscriptable"
  | noLookup value => "'" ++ value.typeWord ++ "' object has no attribute 'get'"
  | noItems value => "'" ++ value.typeWord ++ "' object is not iterable"
  | notPair index count =>
    String.ofList ("dictionary update sequence element #".toList ++ digitsOfNat index ++
      " has length ".toList ++ digitsOfNat count ++ "; 2 is required".toList)
  | noPair index =>
    String.ofList ("cannot convert dictionary update sequence element #".toList ++
      digitsOfNat index ++ " to a sequence".toList)
  | notKey value => "unhashable type: '" ++ value.typeWord ++ "'"
  | notText index value =>
    String.ofList ("sequence item ".toList ++ digitsOfNat index ++
      ": expected str instance, ".toList) ++ value.typeWord ++ " found"

/-! ## Reading -/

def Json.need (name : String) (value : Json) : Except ShapeFault Json :=
  match value with
  | .obj members =>
    match member? name members with
    | some v => .ok v
    | none => .error (.missing name)
  | value => .error (.noMembers value)

def Json.getOr (name : String) (value fallback : Json) : Except ShapeFault Json :=
  match value with
  | .obj members => .ok ((member? name members).getD fallback)
  | value => .error (.noLookup value)

/-- The items of a value: of a list, the characters of a text, the keys of an object. -/
def Json.items? : Json → Option (List Json)
  | .arr items => some items
  | .str s => some (s.toList.map fun c => .str (String.singleton c))
  | .obj members => some (members.map fun m => m.1.toJson)
  | _ => none

def Json.items (value : Json) : Except ShapeFault (List Json) :=
  match value.items? with
  | some items => .ok items
  | none => .error (.noItems value)

def Json.member {α : Type} (enumeration : String) (ofWord? : String → Option α) (value : Json) :
    Except ShapeFault α :=
  match value with
  | .str s =>
    match ofWord? s with
    | some x => .ok x
    | none => .error (.notMember value enumeration)
  | value => .error (.notMember value enumeration)

/-- A table's entry, given its place: a value of two items, the first of which is a key. -/
def Json.entry (index : Nat) (value : Json) : Except ShapeFault (Key × Json) :=
  match value.items? with
  | none => .error (.noPair index)
  | some [name, value] =>
    match name.key? with
    | some key => .ok (key, value)
    | none => .error (.notKey name)
  | some items => .error (.notPair index items.length)

def Json.table (value : Json) : Except ShapeFault (List (Key × Json)) :=
  match value with
  | .obj members => .ok members
  | value => do
    let items ← value.items
    let entries ← items.zipIdx.mapM fun (item, index) => item.entry index
    .ok (tableOf Key.same entries)

end TokenCatalog
