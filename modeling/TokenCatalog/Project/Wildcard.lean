/-!
# Wildcards

What stands for the characters of a file name in a pattern: a character for itself, a question mark
for any one, a star for any run, and a class in square brackets for one of several. None of them but
a class and a character for itself stands for a slash.
-/

namespace TokenCatalog.Project

/-! ## Classes -/

/-- The characters of some ranges, or all others. A range that ends before it begins is empty. -/
structure CharClass where
  negated : Bool
  ranges : List (Char × Char)
  deriving DecidableEq, Repr

def CharClass.contains (k : CharClass) (c : Char) : Bool :=
  k.negated != k.ranges.any fun (first, last) => first ≤ c && c ≤ last

/-- The ranges that the text of a class lists. A hyphen makes a range of its neighbors unless it has
only one. -/
def classRanges : List Char → List (Char × Char)
  | [] => []
  | first :: '-' :: last :: rest => (first, last) :: classRanges rest
  | c :: rest => (c, c) :: classRanges rest

/-- A class in which an exclamation mark negates what follows it also after ranges that list
nothing. -/
def CharClass.withLateSign (k : CharClass) : CharClass :=
  match k.negated, k.ranges.dropWhile fun (first, last) => last < first with
  | false, ('!', last) :: rest =>
    ⟨true, if last = '!' then rest else ('-', '-') :: (last, last) :: rest⟩
  | _, _ => k

/-- A class, and the text after its closing bracket, given the text after its opening one and any
sign of negation. A closing bracket that stands first belongs to the class. -/
def classFrom? (negated : Bool) (cs : List Char) : Option (CharClass × List Char) :=
  let length := 1 + ((cs.drop 1).takeWhile (· != ']')).length
  if length < cs.length then
    some (⟨negated, classRanges (cs.take length)⟩, cs.drop (length + 1))
  else none

/-- A class, and the text after it, given the text after its opening bracket. One of the signs at
its beginning negates it. -/
def class? (signs : List Char) : List Char → Option (CharClass × List Char)
  | [] => none
  | c :: cs => if signs.contains c then classFrom? true cs else classFrom? false (c :: cs)

theorem length_of_classFrom? {negated : Bool} {cs : List Char} {k : CharClass}
    {rest : List Char} (h : classFrom? negated cs = some (k, rest)) : rest.length < cs.length := by
  simp only [classFrom?] at h
  split at h
  · simp only [Option.some.injEq, Prod.mk.injEq] at h
    rw [← h.2, List.length_drop]
    omega
  · simp at h

/-- Nothing is read twice. -/
theorem length_of_class? {signs cs : List Char} {k : CharClass} {rest : List Char}
    (h : class? signs cs = some (k, rest)) : rest.length < cs.length := by
  cases cs with
  | nil => simp [class?] at h
  | cons c cs =>
    simp only [class?] at h
    split at h
    · exact Nat.lt_succ_of_lt (length_of_classFrom? h)
    · exact length_of_classFrom? h

/-! ## Pieces -/

inductive Piece where
  | char (c : Char)
  | one
  | many
  | oneOf (k : CharClass)
  deriving DecidableEq, Repr

/-- Whether a piece that stands for one character stands for a given one. -/
def Piece.accepts : Piece → Char → Bool
  | char c, d => c == d
  | one, d => d != '/'
  | many, _ => false
  | oneOf k, d => k.contains d

/-- The pieces of a pattern for names. A bracket that opens no class stands for itself. -/
def namePieces (cs : List Char) : List Piece :=
  match cs with
  | [] => []
  | '*' :: rest => .many :: namePieces rest
  | '?' :: rest => .one :: namePieces rest
  | '[' :: rest =>
    match h : class? ['!'] rest with
    | some (k, after) =>
      have := length_of_class? h
      .oneOf k.withLateSign :: namePieces after
    | none => .char '[' :: namePieces rest
  | c :: rest => .char c :: namePieces rest
termination_by cs.length

def fits : List Piece → List Char → Bool
  | [], cs => cs.isEmpty
  | .many :: pieces, [] => fits pieces []
  | .many :: pieces, c :: cs =>
    fits pieces (c :: cs) || (c != '/' && fits (.many :: pieces) cs)
  | _ :: _, [] => false
  | piece :: pieces, c :: cs => piece.accepts c && fits pieces cs
termination_by pieces cs => pieces.length + cs.length

end TokenCatalog.Project
