import TokenCatalog.Number.Decimal

/-!
# JSON values

The values that documents, configuration files and log records are made of. Whole numbers are
unbounded and kept apart from binary numbers; the members of an object are ordered, and a member
written twice keeps its first place and its last value.

An object read from text has texts as keys. A table built in memory from pairs may have any scalar
as a key, so `Key` has a constructor for each scalar. Two keys are one when they are numerically
equal, truth values counting as zero and one.
-/

namespace TokenCatalog

inductive Key where
  | text (s : String)
  | int (n : Int)
  | real (x : Binary64)
  | bool (b : Bool)
  | null
  deriving DecidableEq, Repr, Inhabited

inductive Json where
  | null
  | bool (b : Bool)
  | int (n : Int)
  | real (x : Binary64)
  | str (s : String)
  | arr (items : List Json)
  | obj (members : List (Key × Json))
  deriving Repr, Inhabited

instance : Coe String Key := ⟨Key.text⟩

instance : Coe String Json := ⟨Json.str⟩

/-! ## Keys -/

def Key.canonical : Key → Key
  | .bool b => .int (if b then 1 else 0)
  | .real x =>
    match x.toInt? with
    | some n => .int n
    | none => .real x
  | key => key

def Key.same (a b : Key) : Bool :=
  a.canonical = b.canonical

/-- The key that a scalar is; lists and objects are none. -/
def Json.key? : Json → Option Key
  | .null => some .null
  | .bool b => some (.bool b)
  | .int n => some (.int n)
  | .real x => some (.real x)
  | .str s => some (.text s)
  | .arr _ => none
  | .obj _ => none

def Key.toJson : Key → Json
  | .text s => .str s
  | .int n => .int n
  | .real x => .real x
  | .bool b => .bool b
  | .null => .null

/-! ## Ordered tables -/

def insertKeyed {α β : Type} (same : α → α → Bool) (key : α) (value : β) :
    List (α × β) → List (α × β)
  | [] => [(key, value)]
  | (k, v) :: rest =>
    if same k key then (k, value) :: rest else (k, v) :: insertKeyed same key value rest

/-- The table that entries give when each is inserted in turn: every key at its first place, under
its first spelling and with its last value. -/
def tableOf {α β : Type} (same : α → α → Bool) (entries : List (α × β)) : List (α × β) :=
  entries.foldl (fun table e => insertKeyed same e.1 e.2 table) []

def member? (name : String) (members : List (Key × Json)) : Option Json :=
  (members.find? fun m => m.1 = .text name).map (·.2)

def Json.get? (name : String) : Json → Option Json
  | .obj members => member? name members
  | _ => none

/-! ## Truth and equality -/

/-- Whether a value counts as true: everything but null, false, zeros and empty containers. -/
def Json.truthy : Json → Bool
  | .null => false
  | .bool b => b
  | .int n => n != 0
  | .real x => !x.isZero
  | .str s => s != ""
  | .arr items => !items.isEmpty
  | .obj members => !members.isEmpty

def Json.integral? : Json → Option Int
  | .bool b => some (if b then 1 else 0)
  | .int n => some n
  | .real x => x.toInt?
  | _ => none

mutual

/-- Whether two values are equal: numbers by value, truth values as zero and one, lists item by
item, and objects member by member in any order. -/
def Json.equal : Json → Json → Bool
  | .arr xs, .arr ys => Json.equalItems xs ys
  | .obj xs, .obj ys => xs.length == ys.length && Json.equalMembers xs ys
  | .null, .null => true
  | .str s, .str t => s == t
  | .real x, .real y => x.eq y
  | a, b =>
    match a.integral?, b.integral? with
    | some m, some n => m == n
    | _, _ => false

def Json.equalItems : List Json → List Json → Bool
  | [], [] => true
  | x :: xs, y :: ys => Json.equal x y && Json.equalItems xs ys
  | _, _ => false

/-- Whether every member on the left has an equal one on the right. -/
def Json.equalMembers : List (Key × Json) → List (Key × Json) → Bool
  | [], _ => true
  | (k, v) :: xs, ys =>
    (match ys.find? fun m => m.1.same k with
      | some (_, w) => Json.equal v w
      | none => false) && Json.equalMembers xs ys

end

end TokenCatalog
