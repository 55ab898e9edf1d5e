import TokenCatalog.Text.Blank

/-!
# Similar words

How alike two words are: the characters of their longest common block, those of the longest common
blocks on both sides of it, and so on, counted twice and set against the length of both words. Used
to suggest a known word in the place of an unknown one.
-/

namespace TokenCatalog.Text

/-! ## Common blocks -/

def commonStart : List Char → List Char → Nat
  | a :: as, b :: bs => if a = b then commonStart as bs + 1 else 0
  | _, _ => 0

/-- A block that two texts have in common: where it starts in each of them, and its length. -/
structure Block where
  inFirst : Nat
  inSecond : Nat
  length : Nat
  deriving DecidableEq, Repr

/-- The longer one of two blocks, and the former of two that are equally long. -/
def Block.longer (a b : Block) : Block := if a.length < b.length then b else a

/-- The longest block that two texts have in common; of several the first one in the first text, and
there the first one in the second. -/
def longestBlock (a b : List Char) : Block :=
  let blocks := (List.range a.length).flatMap fun i =>
    (List.range b.length).map fun j => ⟨i, j, commonStart (a.drop i) (b.drop j)⟩
  blocks.foldl Block.longer ⟨0, 0, 0⟩

/-- The number of characters in the common blocks of two texts. Each step cuts the first text into
shorter ones, so its length is enough fuel. -/
def matchingFrom : Nat → List Char → List Char → Nat
  | 0, _, _ => 0
  | fuel + 1, a, b =>
    let block := longestBlock a b
    if block.length = 0 then 0
    else
      matchingFrom fuel (a.take block.inFirst) (b.take block.inSecond) + block.length +
        matchingFrom fuel (a.drop (block.inFirst + block.length))
          (b.drop (block.inSecond + block.length))

/-- The number of characters in the common blocks of two texts. -/
def matching (a b : List Char) : Nat :=
  matchingFrom a.length a b

/-! ## Suggestions -/

/-- A known word, the number of its characters that an unknown word shares with it, and the length
of both together. -/
structure Candidate where
  word : List Char
  shared : Nat
  total : Nat
  deriving DecidableEq, Repr

def Candidate.of (unknown word : List Char) : Candidate :=
  ⟨word, matching word unknown, word.length + unknown.length⟩

/-- Whether twice the shared characters are at least six tenths of all. -/
def Candidate.isClose (c : Candidate) : Bool := 3 * c.total ≤ 10 * c.shared

/-- Whether a candidate comes before another: it is closer, or equally close and greater. -/
def Candidate.before (a b : Candidate) : Bool :=
  b.shared * a.total < a.shared * b.total ||
    (a.shared * b.total == b.shared * a.total && String.ofList b.word ≤ String.ofList a.word)

def mostSuggestions : Nat := 3

/-- The known words that are close to an unknown one, the closest first. -/
def closeWords (unknown : List Char) (known : List (List Char)) : List (List Char) :=
  let close := (known.map (Candidate.of unknown)).filter Candidate.isClose
  ((close.mergeSort Candidate.before).take mostSuggestions).map (·.word)

end TokenCatalog.Text
