import TokenCatalog.Text.Blank

/-!
# Flags

A value may end in flags: an exclamation mark and one of three words in any letter case, with blanks
before, between and after. Removing them works on the reversed text, one flag at a time.
-/

namespace TokenCatalog.Value

def flagWords : List String := ["important", "default", "global"]

/-- Whether a character is a letter in either case. The dotted capital and the dotless small letter
count as `i`. -/
def isLetterOf (letter c : Char) : Bool :=
  c.toLower == letter || (letter == 'i' && (c == '\u0130' || c == '\u0131'))

/-- What follows a word in any letter case that begins the text. -/
def afterLetters? : List Char → List Char → Option (List Char)
  | [], cs => some cs
  | w :: ws, c :: cs => if isLetterOf w c then afterLetters? ws cs else none
  | _ :: _, [] => none

/-- Matching letters takes them off the text. -/
theorem length_of_afterLetters? {ws cs rest : List Char} (h : afterLetters? ws cs = some rest) :
    rest.length + ws.length = cs.length := by
  induction ws generalizing cs with
  | nil => simp [afterLetters?] at h; simp [h]
  | cons w ws ih =>
    cases cs with
    | nil => simp [afterLetters?] at h
    | cons c cs =>
      simp only [afterLetters?] at h
      split at h
      · simpa [← Nat.add_assoc] using ih h
      · cases h

/-- The reversed text before a flag with a given word, if the text ends in one. -/
def beforeFlag? (reversed : List Char) (word : String) : Option (List Char) :=
  match afterLetters? word.toList.reverse (reversed.dropWhile Text.isBlank) with
  | some rest =>
    match rest.dropWhile Text.isBlank with
    | '!' :: rest => some (rest.dropWhile Text.isBlank)
    | _ => none
  | none => none

/-- Skipping blanks makes no text longer. -/
theorem length_dropBlank_le (cs : List Char) :
    (cs.dropWhile Text.isBlank).length ≤ cs.length :=
  (List.dropWhile_sublist _).length_le

/-- A text is longer than what stands before its flag. -/
theorem length_of_beforeFlag? {cs rest : List Char} {word : String}
    (h : beforeFlag? cs word = some rest) : rest.length < cs.length := by
  unfold beforeFlag? at h
  split at h
  · next mid hmid =>
    have h1 := length_of_afterLetters? hmid
    have h2 := length_dropBlank_le cs
    have h3 := length_dropBlank_le mid
    split at h
    · next tail htail =>
      have h4 := length_dropBlank_le tail
      rw [htail] at h3
      cases h
      simp only [List.length_cons] at h3
      omega
    · cases h
  · cases h

def beforeAnyFlag? (reversed : List Char) : Option (List Char) :=
  flagWords.findSome? (beforeFlag? reversed)

/-- A text is longer than what stands before its flag, whichever it is. -/
theorem length_of_beforeAnyFlag? {cs rest : List Char} (h : beforeAnyFlag? cs = some rest) :
    rest.length < cs.length := by
  obtain ⟨word, _, hword⟩ := List.exists_of_findSome?_eq_some h
  exact length_of_beforeFlag? hword

def dropFlags (reversed : List Char) : List Char :=
  match h : beforeAnyFlag? reversed with
  | some rest =>
    have := length_of_beforeAnyFlag? h
    dropFlags rest
  | none => reversed
termination_by reversed.length

/-- The text without the flags at its end and the blanks around it. -/
def stripFlags (cs : List Char) : List Char :=
  Text.strip (dropFlags cs.reverse).reverse

end TokenCatalog.Value
