import TokenCatalog.Text.Similarity

/-!
# Command line arguments

Words after the name of a program are options or arguments. An option has a long name after two
dashes or a name of one letter after a single dash, and perhaps a value: the next word, what follows
the equals sign after a long name, or the rest of the word after a letter. Letters without values
may share a word. Two dashes alone end the options; whether an argument does so too depends on the
command.
-/

namespace TokenCatalog.Command

/-! ## Options -/

/-- An option of a command: its names, the word that stands for its value in the help if it has one,
and what it is for. -/
structure OptionForm where
  /-- Names with their dashes; a name of one letter has one dash. -/
  names : List String
  value? : Option String := none
  help : String := ""
  deriving DecidableEq, Repr

def isLetterName (name : String) : Bool := name.length = 2

/-- How the words of a command are read: its options, and whether options may follow an argument. -/
structure Grammar (α : Type) where
  options : List (α × OptionForm)
  interspersed : Bool := true

namespace Grammar

variable {α : Type}

def longNames (g : Grammar α) : List String :=
  g.options.flatMap fun (_, form) => form.names.filter (!isLetterName ·)

def named? (g : Grammar α) (name : List Char) : Option (α × OptionForm) :=
  g.options.find? (·.2.names.contains (String.ofList name))

def long? (g : Grammar α) (name : List Char) : Option (α × OptionForm) :=
  if name.length = 2 then none else g.named? name

end Grammar

/-! ## Faults -/

inductive ArgumentFault where
  /-- No option has the name; others have similar ones. -/
  | unknown (name : List Char) (similar : List (List Char))
  | noValue (name : List Char)
  | valueGiven (name : List Char)
  deriving DecidableEq, Repr

/-! ## Reading -/

/-- What words say: the options in the order in which they were given, each with its value, and the
arguments. -/
structure Arguments (α : Type) where
  given : List (α × List Char) := []
  words : List (List Char) := []
  deriving Repr

namespace Arguments

variable {α : Type}

def withWord (word : List Char) (a : Arguments α) : Arguments α :=
  { a with words := word :: a.words }

/-- The options that were given, in the order of their first occurrences. -/
def options [DecidableEq α] (a : Arguments α) : List α :=
  (a.given.map (·.1)).eraseDups

def has [DecidableEq α] (a : Arguments α) (option : α) : Bool :=
  a.given.any (·.1 = option)

def value? [DecidableEq α] (a : Arguments α) (option : α) : Option (List Char) :=
  (a.given.findRev? (·.1 = option)).map (·.2)

def last? [DecidableEq α] (a : Arguments α) (options : List α) : Option α :=
  (a.given.findRev? (options.contains ·.1)).map (·.1)

end Arguments

namespace Grammar

variable {α : Type}

/-- An option with a value, given the words that the value may be taken from; with the words that
follow. -/
def takeValue (name : List Char) (option : α) :
    List (List Char) → Except ArgumentFault (α × List Char × List (List Char))
  | value :: words => .ok (option, value, words)
  | [] => .error (.noValue name)

/-- The options in a word of letters after a dash, and the words that follow it. -/
def letters (g : Grammar α) (words : List (List Char)) :
    List Char → Except ArgumentFault (List (α × List Char) × List (List Char))
  | [] => .ok ([], words)
  | c :: cs =>
    match g.named? ['-', c] with
    | none => .error (.unknown ['-', c] [])
    | some (option, form) =>
      if form.value?.isSome then do
        let (option, value, words) ←
          takeValue ['-', c] option (if cs.isEmpty then words else cs :: words)
        .ok ([(option, value)], words)
      else do
        let (given, words) ← g.letters words cs
        .ok ((option, []) :: given, words)

/-- The options in a word that begins with a dash, and the words that follow it. -/
def option (g : Grammar α) (word : List Char) (words : List (List Char)) :
    Except ArgumentFault (List (α × List Char) × List (List Char)) :=
  let name := word.takeWhile (· != '=')
  let attached := word.drop name.length
  match g.long? name with
  | some (option, form) =>
    if form.value?.isSome then do
      let (option, value, words) ←
        takeValue name option (if attached.isEmpty then words else attached.drop 1 :: words)
      .ok ([(option, value)], words)
    else if attached.isEmpty then .ok ([(option, [])], words)
    else .error (.valueGiven name)
  | none =>
    if word.take 2 = ['-', '-'] then
      .error (.unknown name (Text.closeWords name (g.longNames.map String.toList)))
    else g.letters words (word.drop 1)

def isOption (word : List Char) : Bool :=
  word.head? == some '-' && 1 < word.length

/-- The arguments that words say. Every step takes a word away, so that their number is enough
fuel. -/
def readFrom (g : Grammar α) : Nat → List (List Char) → Except ArgumentFault (Arguments α)
  | _, [] => .ok {}
  | 0, words => .ok { words }
  | fuel + 1, word :: words =>
    if word = ['-', '-'] then .ok { words }
    else if isOption word then do
      let (given, words) ← g.option word words
      let a ← g.readFrom fuel words
      .ok { a with given := given ++ a.given }
    else if g.interspersed then do
      .ok ((← g.readFrom fuel words).withWord word)
    else .ok { words := word :: words }

def read (g : Grammar α) (words : List (List Char)) : Except ArgumentFault (Arguments α) :=
  g.readFrom words.length words

end Grammar

end TokenCatalog.Command
