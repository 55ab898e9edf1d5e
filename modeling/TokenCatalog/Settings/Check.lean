import TokenCatalog.Number.Whole
import TokenCatalog.Settings.Basic
import TokenCatalog.Text.Lowercase
import TokenCatalog.Text.Uppercase

/-!
# Checking settings

Every setting has a check of its own, which turns the value chosen for it into its normal form or
says what is wrong with it. Settings are valid when all values chosen pass; otherwise the faults of
all of them are reported, in the order of the settings.
-/

namespace TokenCatalog

/-! ## Faults -/

/-- What is wrong with the value chosen for a setting. -/
inductive SettingCause where
  | value
  | noText
  | noList
  | noNumber
  | numberText
  | fraction
  | notFinite
  | numberSize
  | tooSmall
  | tooLarge
  | noTruth
  | truthText
  deriving DecidableEq, Repr

def SettingCause.word : SettingCause → String
  | value => "value_error"
  | noText => "string_type"
  | noList => "list_type"
  | noNumber => "int_type"
  | numberText => "int_parsing"
  | fraction => "int_from_float"
  | notFinite => "finite_number"
  | numberSize => "int_parsing_size"
  | tooSmall => "greater_than_equal"
  | tooLarge => "less_than_equal"
  | noTruth => "bool_type"
  | truthText => "bool_parsing"

/-- What is wrong with a setting, or with one item of its list. -/
structure SettingFault where
  setting : Setting
  item : Option Nat
  cause : SettingCause
  deriving DecidableEq, Repr

/-- The name of the setting, and the place of the item if one is at fault. -/
def SettingFault.place (fault : SettingFault) : List String :=
  fault.setting.name :: (fault.item.map fun i => String.ofList (digitsOfNat i)).toList

/-! ## Texts -/

def checkText : Json → Except SettingCause String
  | .str s => .ok s
  | _ => .error .noText

def checkFilled (value : Json) : Except SettingCause String := do
  let text := Text.strip (← checkText value).toList
  if text.isEmpty then .error .value else .ok (String.ofList text)

def checkLevel (value : Json) : Except SettingCause Log.Level := do
  let name := String.ofList (Text.upper (← checkText value).toList)
  let allowed := [.debug, .info, .warning, .error, .critical]
  match (Log.Level.named.filter fun l => allowed.contains l.1).find? (·.2 = name) with
  | some (level, _) => .ok level
  | none => .error .value

def checkFormat (value : Json) : Except SettingCause Log.Format := do
  let word ← checkText value
  match [Log.Format.text, Log.Format.json].find? (·.word = word) with
  | some format => .ok format
  | none => .error .value

/-! ## Numbers -/

/-- The whole number that a text denotes: a sign, digits, and perhaps a point and zeros. -/
def wholeNumber? (cs : List Char) : Option Int := do
  let (negative, cs) := readSign (Text.stripBy isNumberBlank cs)
  let whole := cs.takeWhile (· != '.')
  let groups ← digitGroups? whole
  if groups.flatten.all isDigit && (cs.drop (whole.length + 1)).all (· == '0') then
    some (signed negative (natOfDigits groups.flatten))
  else none

/-- A whole number, also as a text, a binary number or a truth value. -/
def checkWhole : Json → Except SettingCause Int
  | .int n => .ok n
  | .bool b => .ok (if b then 1 else 0)
  | .str s =>
    match wholeNumber? s.toList with
    | some n => .ok n
    | none => .error .numberText
  | .real x =>
    match x.round?, x.toInt? with
    | none, _ => .error .notFinite
    | _, none => .error .fraction
    | _, some n => if n.natAbs < Nat.pow 2 63 then .ok n else .error .numberSize
  | _ => .error .noNumber

def mostWorkers : Nat := 64

def checkWorkers (value : Json) : Except SettingCause Nat := do
  let n ← checkWhole value
  if n < 1 then .error .tooSmall
  else if (mostWorkers : Int) < n then .error .tooLarge
  else .ok n.toNat

/-! ## Truth values -/

def trueWords : List String := ["1", "on", "t", "true", "y", "yes"]

def falseWords : List String := ["0", "off", "f", "false", "n", "no"]

def checkTruthNumber (n : Int) : Except SettingCause Bool :=
  if n = 0 then .ok false else if n = 1 then .ok true else .error .truthText

/-- A truth value, also as a word in any case, or as zero or one. -/
def checkTruth : Json → Except SettingCause Bool
  | .bool b => .ok b
  | .str s =>
    let word := String.ofList (Text.asciiLower s.toList)
    if trueWords.contains word then .ok true
    else if falseWords.contains word then .ok false
    else .error .truthText
  | .int n => checkTruthNumber n
  | .real x =>
    match x.toInt? with
    | some n => checkTruthNumber n
    | none => .error .noTruth
  | _ => .error .noTruth

/-! ## Lists -/

def itemFaults (setting : Setting) (items : List Json) : List SettingFault :=
  items.zipIdx.filterMap fun (item, i) =>
    match item with
    | .str _ => none
    | _ => some ⟨setting, some i, .noText⟩

def textItems (items : List Json) : List String :=
  items.filterMap fun
    | .str s => some s
    | _ => none

def checkTexts (setting : Setting) : Json → Except (List SettingFault) (List String)
  | .arr items =>
    match itemFaults setting items with
    | [] => .ok (textItems items)
    | faults => .error faults
  | _ => .error [⟨setting, none, .noList⟩]

/-- An extension in lower case, with its dot and without blanks around it; none if it is blank. -/
def checkExtension (extension : String) : Except SettingCause String :=
  match Text.lower (Text.strip extension.toList) with
  | [] => .error .value
  | '.' :: rest => .ok (String.ofList ('.' :: rest))
  | rest => .ok (String.ofList ('.' :: rest))

/-! ## All settings -/

def single {α : Type} (setting : Setting) (result : Except SettingCause α) :
    Except (List SettingFault) α :=
  result.mapError fun cause => [⟨setting, none, cause⟩]

def checkExtensions (value : Json) : Except (List SettingFault) (List String) := do
  let texts ← checkTexts .imageExtensions value
  single .imageExtensions (texts.mapM checkExtension)

def faultsOf {α : Type} : Except (List SettingFault) α → List SettingFault
  | .ok _ => []
  | .error faults => faults

/-- The settings that the values chosen amount to. A setting without one keeps its default. -/
def Settings.check (chosen : Setting → Option Json) : Except (List SettingFault) Settings :=
  let read {α : Type} (setting : Setting) (default : α)
      (check : Json → Except (List SettingFault) α) : Except (List SettingFault) α :=
    match chosen setting with
    | none => .ok default
    | some value => check value
  let readOne {α : Type} (setting : Setting) (default : α) (check : Json → Except SettingCause α) :=
    read setting default fun value => single setting (check value)
  let tokenGlob := readOne .tokenGlob default.tokenGlob checkFilled
  let ignorePatterns := read .ignorePatterns default.ignorePatterns (checkTexts .ignorePatterns)
  let imageExtensions := read .imageExtensions default.imageExtensions checkExtensions
  let requireSentinel := readOne .requireSentinel default.requireSentinel checkTruth
  let maxWorkers := readOne .maxWorkers default.maxWorkers checkWorkers
  let outputFilename := readOne .outputFilename default.outputFilename checkFilled
  let logLevel := readOne .logLevel default.logLevel checkLevel
  let logFormat := readOne .logFormat default.logFormat checkFormat
  let settings : Except (List SettingFault) Settings := do
    .ok
      { tokenGlob := ← tokenGlob
        ignorePatterns := ← ignorePatterns
        imageExtensions := ← imageExtensions
        requireSentinel := ← requireSentinel
        maxWorkers := ← maxWorkers
        outputFilename := ← outputFilename
        logLevel := ← logLevel
        logFormat := ← logFormat }
  settings.mapError fun _ =>
    faultsOf tokenGlob ++ faultsOf ignorePatterns ++ faultsOf imageExtensions ++
      faultsOf requireSentinel ++ faultsOf maxWorkers ++ faultsOf outputFilename ++
      faultsOf logLevel ++ faultsOf logFormat

end TokenCatalog
