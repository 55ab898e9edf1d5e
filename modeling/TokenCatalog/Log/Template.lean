import TokenCatalog.Log.Record

/-!
# Message templates

A message may hold places for values, each of them a percent sign, an optional name in parentheses,
flags, a width, a precision and a letter that says how the value is shown. Values are taken in
order, or by name from a table. Two percent signs stand for one.
-/

namespace TokenCatalog.Log

/-! ## Faults -/

inductive TemplateFault where
  | openPlace
  | openName
  /-- No value is shown by this letter, at this offset. -/
  | letter (c : Char) (offset : Nat)
  | missing (name : String)
  | code
  /-- The code of half a surrogate pair, which no text holds. -/
  | half
  /-- Too few or too many values, or values of the wrong kind. -/
  | mismatch

def TemplateFault.message : TemplateFault → String
  | openPlace => "incomplete format"
  | openName => "incomplete format key"
  | letter c offset =>
    let shown := if c.toNat < 32 || 126 < c.toNat then '?' else c
    String.ofList
      ("unsupported format character '".toList ++ [shown] ++ "' (0x".toList ++
        Nat.toDigits 16 c.toNat ++ ") at index ".toList ++ digitsOfNat offset)
  | missing name => String.ofList (quoted name)
  | code => "%c arg not in range(0x110000)"
  | half => "surrogates not allowed"
  | mismatch => "values do not fit the template"

/-! ## Values -/

/-- The values for a template: in order, or by name. -/
inductive Values where
  | inOrder (values : List Json)
  | byName (members : List (Key × Json))

/-- The values that may still be taken, and the table they come from. -/
structure Supply where
  next : List Json
  table? : Option (List (Key × Json))

/-- The supply that values make. A table may be taken once as a whole. -/
def Values.supply : Values → Supply
  | inOrder values => ⟨values, none⟩
  | byName members => ⟨[.obj members], some members⟩

def Supply.take (s : Supply) : Except TemplateFault (Json × Supply) :=
  match s.next with
  | value :: rest => .ok (value, { s with next := rest })
  | [] => .error .mismatch

/-! ## Places -/

structure Layout where
  flags : List Char := []
  width : Nat := 0
  precision? : Option Nat := none

def Layout.has (l : Layout) (flag : Char) : Bool := l.flags.contains flag

def isFlag (c : Char) : Bool := ['-', '+', ' ', '#', '0'].contains c

def Layout.fill (l : Layout) (cs : List Char) : List Char :=
  let blanks := List.replicate (l.width - cs.length) ' '
  if l.has '-' then cs ++ blanks else blanks ++ cs

/-- A number filled up to the width, given its sign, a mark before its digits, and the digits. -/
def Layout.fillNumber (l : Layout) (negative : Bool) (mark digits : List Char) : List Char :=
  let sign :=
    if negative then ['-'] else if l.has '+' then ['+'] else if l.has ' ' then [' '] else []
  let size := sign.length + mark.length + digits.length
  if l.has '0' && !l.has '-' then
    sign ++ mark ++ List.replicate (l.width - size) '0' ++ digits
  else l.fill (sign ++ mark ++ digits)

def Layout.padDigits (l : Layout) (digits : List Char) : List Char :=
  List.replicate (l.precision?.getD 0 - digits.length) '0' ++ digits

/-! ## Numbers -/

def truncated? : Json → Except TemplateFault Int
  | .int n => .ok n
  | .bool b => .ok (if b then 1 else 0)
  | .real x =>
    let size := if x.isNegative then x.neg else x
    match (size.sub size.fraction).toInt? with
    | some n => .ok (if x.isNegative then -n else n)
    | none => .error .mismatch
  | _ => .error .mismatch

def whole? : Json → Except TemplateFault Int
  | .int n => .ok n
  | .bool b => .ok (if b then 1 else 0)
  | _ => .error .mismatch

def binary? : Json → Except TemplateFault Binary64
  | .int n => .ok (.ofInt n)
  | .bool b => .ok (.ofInt (if b then 1 else 0))
  | .real x => .ok x
  | _ => .error .mismatch

/-- The digits of a positive number, as many as asked for, rounded half to even, and the exponent of
the first one. -/
def leadingDigits (count significand : Nat) (exponent : Int) : List Char × Int :=
  let first := Binary64.leadingDigit significand exponent
  let unit := first - (count : Int) + 1
  let (a, b) := Binary64.scaled significand 1 exponent
  let n := if 0 ≤ unit then roundHalfEven a (b * Nat.pow 10 unit.toNat)
    else roundHalfEven (a * Nat.pow 10 (-unit).toNat) b
  if n = Nat.pow 10 count then (digitsOfNat (n / 10), first + 1) else (digitsOfNat n, first)

def digitsAndExponent (count significand : Nat) (exponent : Int) : List Char × Int :=
  if significand = 0 then (List.replicate count '0', 0)
  else leadingDigits count significand exponent

def pointed (keepPoint : Bool) : List Char → List Char
  | [] => []
  | [c] => if keepPoint then [c, '.'] else [c]
  | c :: cs => c :: '.' :: cs

def scientific (places : Nat) (keepPoint : Bool) (significand : Nat) (exponent : Int) : List Char :=
  let (digits, e) := digitsAndExponent (places + 1) significand exponent
  pointed keepPoint digits ++ 'e' :: Binary64.exponentText e

/-- A finite number with a count of digits, in the shorter of the two notations. -/
def general (count : Nat) (keepZeros : Bool) (significand : Nat) (exponent : Int) : List Char :=
  let count := max count 1
  let (digits, e) := digitsAndExponent count significand exponent
  let trim (cs : List Char) : List Char :=
    if keepZeros then cs else (cs.reverse.dropWhile (· == '0')).reverse
  if e < -4 || (count : Int) ≤ e then
    pointed keepZeros (digits.take 1 ++ trim (digits.drop 1)) ++ 'e' :: Binary64.exponentText e
  else if e < 0 then
    '0' :: '.' :: List.replicate (-e - 1).toNat '0' ++ trim digits
  else
    let whole := digits.take (e.toNat + 1)
    let rest := trim (digits.drop (e.toNat + 1))
    whole ++ if rest.isEmpty && !keepZeros then [] else '.' :: rest

/-- The text of a binary number without its sign, by one of the letters `e`, `f` and `g`. -/
def realDigits (l : Layout) (letter : Char) : Binary64 → List Char
  | .nan => ['n', 'a', 'n']
  | .infinite _ => ['i', 'n', 'f']
  | .finite _ significand exponent =>
    let precision := l.precision?.getD 6
    if letter = 'f' then
      (Binary64.finite false significand exponent).fixedText precision ++
        if precision = 0 && l.has '#' then ['.'] else []
    else if letter = 'e' then scientific precision (l.has '#') significand exponent
    else general precision (l.has '#') significand exponent

def isFiniteNumber : Binary64 → Bool
  | .finite _ _ _ => true
  | _ => false

/-! ## One value -/

def Layout.text (l : Layout) (cs : List Char) : List Char :=
  l.fill (match l.precision? with
    | some n => cs.take n
    | none => cs)

def asciiOnly (cs : List Char) : List Char :=
  cs.flatMap fun c =>
    let n := c.toNat
    if n < 0x80 then [c]
    else if n < 0x100 then '\\' :: 'x' :: Text.hexFilled 2 n
    else if n < 0x10000 then '\\' :: 'u' :: Text.hexFilled 4 n
    else '\\' :: 'U' :: Text.hexFilled 8 n

/-- A whole number in a base, with the mark of the base before it if that is asked for. -/
def Layout.based (l : Layout) (base : Nat) (mark : List Char) (n : Int) : List Char :=
  l.fillNumber (n < 0) (if l.has '#' then mark else []) (l.padDigits (Nat.toDigits base n.natAbs))

/-- A value as a letter shows it; none if no letter is meant. -/
def show? (l : Layout) (letter : Char) (value : Json) : Option (Except TemplateFault (List Char)) :=
  match letter with
  | 's' => some (.ok (l.text value.display))
  | 'r' => some (.ok (l.text value.inspect))
  | 'a' => some (.ok (l.text (asciiOnly value.inspect)))
  | 'd' | 'i' | 'u' =>
    some do
      let n ← truncated? value
      .ok (l.fillNumber (n < 0) [] (l.padDigits (digitsOfNat n.natAbs)))
  | 'x' => some do .ok (l.based 16 ['0', 'x'] (← whole? value))
  | 'X' => some do .ok ((l.based 16 ['0', 'x'] (← whole? value)).map Char.toUpper)
  | 'o' => some do .ok (l.based 8 ['0', 'o'] (← whole? value))
  | 'e' | 'f' | 'g' | 'E' | 'F' | 'G' =>
    some do
      let x ← binary? value
      let shown := realDigits l letter.toLower x
      let shown := if letter.isUpper then shown.map Char.toUpper else shown
      let l := if isFiniteNumber x then l else { l with flags := l.flags.filter (· != '0') }
      .ok (l.fillNumber x.isNegative [] shown)
  | 'c' =>
    some (match value with
      | .str s =>
        match s.toList with
        | [c] => .ok (l.fill [c])
        | _ => .error .mismatch
      | value => do
        let n ← whole? value
        if n < 0 || 0x110000 ≤ n then .error .code
        else if Text.isHalf n.toNat then .error .half
        else .ok (l.fill [Char.ofNat n.toNat]))
  | _ => none

/-! ## Templates -/

/-- A name up to its closing parenthesis, with what follows; parentheses in it are in pairs. -/
def nameAndRest? (depth : Nat) : List Char → Option (List Char × List Char)
  | [] => none
  | ')' :: cs =>
    match depth with
    | 0 => some ([], cs)
    | depth + 1 => (nameAndRest? depth cs).map fun (name, rest) => (')' :: name, rest)
  | c :: cs =>
    (nameAndRest? (if c = '(' then depth + 1 else depth) cs).map fun (name, rest) =>
      (c :: name, rest)

/-- The supply after the name of a place, if it has one, and the text after the name. -/
def takeName (s : Supply) : List Char → Except TemplateFault (Supply × List Char)
  | '(' :: cs =>
    match s.table?, nameAndRest? 0 cs with
    | none, _ => .error .mismatch
    | _, none => .error .openName
    | some members, some (name, rest) =>
      match member? (String.ofList name) members with
      | some value => .ok ({ s with next := [value] }, rest)
      | none => .error (.missing (String.ofList name))
  | cs => .ok (s, cs)

/-- A number, as digits or as a star that takes it from the supply, and what follows. -/
def takeNumber (s : Supply) : List Char → Except TemplateFault (Option Int × Supply × List Char)
  | '*' :: cs => do
    let (value, s) ← s.take
    match value with
    | .int n => .ok (some n, s, cs)
    | _ => .error .mismatch
  | cs =>
    let digits := cs.takeWhile isDigit
    .ok (if digits.isEmpty then none else some (natOfDigits digits), s, cs.drop digits.length)

/-- The precision, if a point stands first, and what follows. -/
def takePrecision (s : Supply) : List Char → Except TemplateFault (Option Nat × Supply × List Char)
  | '.' :: cs => do
    let (n, s, cs) ← takeNumber s cs
    .ok (some ((n.getD 0).toNat), s, cs)
  | cs => .ok (none, s, cs)

/-- The text of a place, given what follows its percent sign and the length of the template; with
the supply after it and what follows the place. -/
def place (length : Nat) (s : Supply) (cs : List Char) :
    Except TemplateFault (List Char × Supply × List Char) := do
  let (s, cs) ← takeName s cs
  let flags := cs.takeWhile isFlag
  let (width, s, cs) ← takeNumber s (cs.drop flags.length)
  let flags := if width.any (· < 0) then '-' :: flags else flags
  let (precision?, s, cs) ← takePrecision s cs
  let cs := if cs.head?.any ['h', 'l', 'L'].contains then cs.drop 1 else cs
  match cs with
  | [] => .error .openPlace
  | letter :: cs => do
    let (value, s) ← s.take
    match show? ⟨flags, (width.getD 0).natAbs, precision?⟩ letter value with
    | some shown => .ok (← shown, s, cs)
    | none => .error (.letter letter (length - cs.length - 1))

/-- The rest of a template, filled in. Every place is shorter than what it is read from, so the
length of the template is enough fuel. -/
def fillFrom (length : Nat) : Nat → Supply → List Char → Except TemplateFault (List Char)
  | 0, _, cs => .ok cs
  | _ + 1, s, [] => if s.next.isEmpty || s.table?.isSome then .ok [] else .error .mismatch
  | fuel + 1, s, '%' :: '%' :: cs => do .ok ('%' :: (← fillFrom length fuel s cs))
  | fuel + 1, s, '%' :: cs => do
    let (shown, s, cs) ← place length s cs
    .ok (shown ++ (← fillFrom length fuel s cs))
  | fuel + 1, s, c :: cs => do .ok (c :: (← fillFrom length fuel s cs))

def fillTemplate (template : List Char) (values : Values) : Except TemplateFault (List Char) :=
  fillFrom template.length (template.length + 1) values.supply template

/-- The text of a message. One that comes without values is no template. -/
def messageText (template : List Char) (values? : Option Values) :
    Except TemplateFault (List Char) :=
  match values? with
  | some values => fillTemplate template values
  | none => .ok template

def Record.ofTemplate (level : Level) (template : List Char) (values? : Option Values)
    (context : List (String × Json)) : Except TemplateFault Record := do
  .ok ⟨level, String.ofList (← messageText template values?), context⟩

end TokenCatalog.Log
