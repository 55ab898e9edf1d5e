import TokenCatalog.Json.Basic
import TokenCatalog.Text.Digit

/-!
# Reading JSON

A reader of JSON text that also takes `NaN`, `Infinity` and `-Infinity` for numbers. A fault says
what was wrong and how many characters were left at that place, from which its line, column and
offset follow. An escape for half of a surrogate pair stands for no character and ends the reading;
readers that know texts with such halves go on. Whole numbers may be limited in their digits.

The reader takes one unit of fuel for every value and every member. The length of the text is
always enough, so `Json.read` supplies that and shows no fuel.
-/

namespace TokenCatalog

/-! ## Faults -/

inductive JsonCause where
  | byteOrderMark
  | value
  | memberName
  | colon
  | comma
  | unterminatedString
  | controlCharacter
  | escape
  | unicodeEscape
  | extraData
  /-- An escape for half of a surrogate pair, by itself. -/
  | halfPair
  /-- A whole number of more digits than are allowed. -/
  | digits (count most : Nat)
  deriving DecidableEq, Repr

/-- A cause and the number of characters from its place to the end of the text. -/
structure JsonFault where
  cause : JsonCause
  left : Nat
  deriving DecidableEq, Repr

def JsonCause.message : JsonCause → String
  | byteOrderMark => "Unexpected UTF-8 BOM (decode using utf-8-sig)"
  | value => "Expecting value"
  | memberName => "Expecting property name enclosed in double quotes"
  | colon => "Expecting ':' delimiter"
  | comma => "Expecting ',' delimiter"
  | unterminatedString => "Unterminated string starting at"
  | controlCharacter => "Invalid control character at"
  | escape => "Invalid \\escape"
  | unicodeEscape => "Invalid \\uXXXX escape"
  | extraData => "Extra data"
  | halfPair => "Half of a surrogate pair"
  | digits count most =>
    "Exceeds the limit (" ++ String.ofList (digitsOfNat most) ++
      " digits) for integer string conversion: value has " ++ String.ofList (digitsOfNat count) ++
      " digits; use sys.set_int_max_str_digits() to increase the limit"

/-- The wording of a fault in a text: the cause, the line and column, and the offset. -/
def JsonFault.message (text : List Char) (fault : JsonFault) : String :=
  let offset := text.length - fault.left
  let before := text.take offset
  let line := before.count '\n' + 1
  let column := (before.reverse.takeWhile (· != '\n')).length + 1
  String.ofList (fault.cause.message.toList ++ ": line ".toList ++ digitsOfNat line ++
    " column ".toList ++ digitsOfNat column ++ " (char ".toList ++ digitsOfNat offset ++ [')'])

/-! ## Blanks and literals -/

/-- Whether a character may stand between the parts of a JSON text. -/
def isJsonBlank (c : Char) : Bool :=
  c == ' ' || c == '\t' || c == '\n' || c == '\r'

def skipJsonBlanks (cs : List Char) : List Char :=
  cs.dropWhile isJsonBlank

def afterWord? : List Char → List Char → Option (List Char)
  | [], cs => some cs
  | w :: ws, c :: cs => if w = c then afterWord? ws cs else none
  | _ :: _, [] => none

/-! ## Strings -/

def escaped? : Char → Option Char
  | '"' => some '"'
  | '\\' => some '\\'
  | '/' => some '/'
  | 'b' => some '\x08'
  | 'f' => some '\x0c'
  | 'n' => some '\n'
  | 'r' => some '\r'
  | 't' => some '\t'
  | _ => none

def hex4? (a b c d : Char) : Option Nat := do
  let a ← Text.hexValue? a
  let b ← Text.hexValue? b
  let c ← Text.hexValue? c
  let d ← Text.hexValue? d
  some (((a * 16 + b) * 16 + c) * 16 + d)

def isHighSurrogate (n : Nat) : Bool := 0xD800 ≤ n && n ≤ 0xDBFF

def isLowSurrogate (n : Nat) : Bool := 0xDC00 ≤ n && n ≤ 0xDFFF

def ofSurrogates (high low : Nat) : Char :=
  Char.ofNat (0x10000 + (high - 0xD800) * 0x400 + (low - 0xDC00))

/-- The second half of a pair that an escape with its first half goes on with. An escape that ends
the text is not looked at. -/
def lowHalf? : List Char → Except JsonFault (Option (Nat × List Char))
  | '\\' :: 'u' :: a :: b :: c :: d :: e :: rest =>
    match hex4? a b c d with
    | none => .error ⟨.unicodeEscape, rest.length + 6⟩
    | some n => .ok (if isLowSurrogate n then some (n, e :: rest) else none)
  | _ => .ok none

/-- The character of an escape, given the text after its backslash. -/
def readEscape (opened : Nat) : List Char → Except JsonFault (Char × List Char)
  | [] => .error ⟨.unterminatedString, opened⟩
  | 'u' :: rest =>
    match rest with
    | a :: b :: c :: d :: e :: rest =>
      match hex4? a b c d with
      | none => .error ⟨.unicodeEscape, rest.length + 6⟩
      | some n =>
        let half : JsonFault := ⟨.halfPair, rest.length + 7⟩
        if isHighSurrogate n then do
          match ← lowHalf? (e :: rest) with
          | some (low, rest) => .ok (ofSurrogates n low, rest)
          | none => .error half
        else if isLowSurrogate n then .error half
        else .ok (Char.ofNat n, e :: rest)
    | _ => .error ⟨.unicodeEscape, rest.length + 1⟩
  | c :: rest =>
    match escaped? c with
    | some c => .ok (c, rest)
    | none => .error ⟨.escape, rest.length + 2⟩

/-- The rest of a string, after its opening quote or any later part; `opened` is the number of
characters from that quote on. -/
def readString (opened : Nat) : Nat → List Char → Except JsonFault (List Char × List Char)
  | 0, _ => .error ⟨.unterminatedString, opened⟩
  | _ + 1, [] => .error ⟨.unterminatedString, opened⟩
  | _ + 1, '"' :: rest => .ok ([], rest)
  | fuel + 1, '\\' :: rest => do
    let (c, rest) ← readEscape opened rest
    let (cs, rest) ← readString opened fuel rest
    .ok (c :: cs, rest)
  | fuel + 1, c :: rest =>
    if c.toNat < 32 then .error ⟨.controlCharacter, rest.length + 1⟩
    else do
      let (cs, rest) ← readString opened fuel rest
      .ok (c :: cs, rest)

/-! ## Numbers -/

/-- The whole part of a number: a zero, or digits that do not begin with one. -/
def takeWhole : List Char → List Char
  | '0' :: _ => ['0']
  | cs => cs.takeWhile isDigit

def readNumber? (cs : List Char) : Option (Json × List Char) :=
  let (negative, digits) := match cs with
    | '-' :: cs => (true, cs)
    | cs => (false, cs)
  let whole := takeWhole digits
  if whole.isEmpty then none
  else
    let rest := digits.drop whole.length
    let fraction := takeFraction rest
    let rest := rest.drop fraction.length
    let exponent := takeExponent rest
    let rest := rest.drop exponent.length
    let sign := if negative then ['-'] else []
    if fraction.isEmpty && exponent.isEmpty then
      let n : Int := natOfDigits whole
      some (.int (if negative then -n else n), rest)
    else some (.real (Decimal.read (sign ++ whole ++ fraction ++ exponent)).toBinary64, rest)

/-- The value that a word or number at the beginning of a text denotes. -/
def readScalar? (cs : List Char) : Option (Json × List Char) :=
  ((afterWord? "null".toList cs).map (Json.null, ·)) <|>
  ((afterWord? "true".toList cs).map (Json.bool true, ·)) <|>
  ((afterWord? "false".toList cs).map (Json.bool false, ·)) <|>
  ((afterWord? "NaN".toList cs).map (Json.real .nan, ·)) <|>
  ((afterWord? "Infinity".toList cs).map (Json.real (.infinite false), ·)) <|>
  ((afterWord? "-Infinity".toList cs).map (Json.real (.infinite true), ·)) <|>
  readNumber? cs

/-! ## Values -/

/-- A value, unless it is a whole number of more digits than are allowed. -/
def limited (most? : Option Nat) (left : Nat) (value : Json) : Except JsonFault Json :=
  match most?, value with
  | some most, .int n =>
    let count := (digitsOfNat n.natAbs).length
    if most < count then .error ⟨.digits count most, left⟩ else .ok value
  | _, _ => .ok value

section

/- The digits that a whole number may have at most. -/
variable (most? : Option Nat)

mutual

def readValue : Nat → List Char → Except JsonFault (Json × List Char)
  | 0, cs => .error ⟨.value, cs.length⟩
  | _ + 1, '"' :: rest => do
    let (s, rest) ← readString (rest.length + 1) (rest.length + 1) rest
    .ok (.str (String.ofList s), rest)
  | fuel + 1, '[' :: rest =>
    match skipJsonBlanks rest with
    | ']' :: rest => .ok (.arr [], rest)
    | rest => do
      let (items, rest) ← readItems fuel rest
      .ok (.arr items, rest)
  | fuel + 1, '\x7b' :: rest =>
    match skipJsonBlanks rest with
    | '\x7d' :: rest => .ok (.obj [], rest)
    | rest => do
      let (members, rest) ← readMembers fuel rest
      .ok (.obj (tableOf Key.same members), rest)
  | _ + 1, cs =>
    match readScalar? cs with
    | some (value, rest) => do
      let value ← limited most? cs.length value
      .ok (value, rest)
    | none => .error ⟨.value, cs.length⟩

/-- The items of a list, up to and including its closing bracket. -/
def readItems : Nat → List Char → Except JsonFault (List Json × List Char)
  | 0, cs => .error ⟨.value, cs.length⟩
  | fuel + 1, cs => do
    let (item, rest) ← readValue fuel cs
    match skipJsonBlanks rest with
    | ']' :: rest => .ok ([item], rest)
    | ',' :: rest =>
      let (items, rest) ← readItems fuel (skipJsonBlanks rest)
      .ok (item :: items, rest)
    | rest => .error ⟨.comma, rest.length⟩

/-- The members of an object, up to and including its closing brace. -/
def readMembers : Nat → List Char → Except JsonFault (List (Key × Json) × List Char)
  | 0, cs => .error ⟨.memberName, cs.length⟩
  | fuel + 1, '"' :: rest => do
    let (name, rest) ← readString (rest.length + 1) (rest.length + 1) rest
    match skipJsonBlanks rest with
    | ':' :: rest =>
      let (value, rest) ← readValue fuel (skipJsonBlanks rest)
      let entry := (Key.text (String.ofList name), value)
      match skipJsonBlanks rest with
      | '\x7d' :: rest => .ok ([entry], rest)
      | ',' :: rest =>
        let (members, rest) ← readMembers fuel (skipJsonBlanks rest)
        .ok (entry :: members, rest)
      | rest => .error ⟨.comma, rest.length⟩
    | rest => .error ⟨.colon, rest.length⟩
  | _ + 1, cs => .error ⟨.memberName, cs.length⟩

end

def Json.readLimited (cs : List Char) : Except JsonFault Json :=
  match cs with
  | '\ufeff' :: _ => .error ⟨.byteOrderMark, cs.length⟩
  | _ => do
    let (value, rest) ← readValue most? (cs.length + 1) (skipJsonBlanks cs)
    match skipJsonBlanks rest with
    | [] => .ok value
    | rest => .error ⟨.extraData, rest.length⟩

end

/-- The value that a JSON text denotes, whatever the digits of its numbers. -/
def Json.read (cs : List Char) : Except JsonFault Json :=
  readLimited none cs

end TokenCatalog
