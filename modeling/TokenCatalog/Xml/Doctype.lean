import TokenCatalog.Xml.Passage
import TokenCatalog.Xml.Tag

/-!
# Document types

A document type says of attributes whether their values are made of tokens and what they are where
they are missing, and it can refer to declarations elsewhere. What it says of elements and notations
is passed over. A declaration of an entity is not supported: the reading ends there.
-/

namespace TokenCatalog.Xml

/-- What a document type says of an attribute of an element; the names are as written. -/
structure AttributeType where
  element : List Char
  name : List Char
  /-- Whether the value is made of tokens with blanks between them. -/
  tokens : Bool
  default? : Option (List Nat)
  deriving Repr

structure Doctype where
  /-- Whether entities may be declared where the reading does not get to. -/
  elsewhere : Bool
  attributes : List AttributeType
  deriving Repr

namespace Doctype

def empty : Doctype := ⟨false, []⟩

/-! ## Parts of declarations -/

/-- Takes a text between quotation marks, all of a class of characters; false if there is none. -/
def literal (isIn : Char → Bool) : Scan Bool := do
  match ← Scan.quote? with
  | none =>
    Scan.lapse
    return false
  | some quote =>
    let _ ← Scan.span fun c => c != quote && isIn c
    Scan.require (← Scan.word quote.toString)
    return true

def isPublic (c : Char) : Bool :=
  c.isAlpha || isDigit c || " \r\n-'()+,./:=?;!*#@$_%".toList.contains c

/-- Takes a reference to something outside and says whether there is one. A public identifier is
followed by an address, which can be missing only where that is free. -/
def externalId (free : Bool) : Scan Bool := do
  if ← Scan.word "SYSTEM" then
    Scan.require (← Scan.blanks)
    literal fun c => isAllowed c.toNat
  else if ← Scan.word "PUBLIC" then
    Scan.require (← Scan.blanks)
    let found ← literal isPublic
    let apart ← Scan.blanks
    let quoted := (← Scan.ahead).head?.any fun c => c = '"' || c = '\''
    if free && !(apart && quoted) then return found
    Scan.require apart
    return found || (← literal fun c => isAllowed c.toNat)
  else return false

/-- Takes items with bars between them up to a closing parenthesis, and the parenthesis; false where
they cannot be read on. -/
def choices (item : Scan (List Char)) : Nat → Scan Bool
  | 0 => return false
  | fuel + 1 => do
    let _ ← Scan.blanks
    if (← item).isEmpty then return false
    let _ ← Scan.blanks
    if ← Scan.word "|" then choices item fuel else Scan.word ")"

/-! ## Elements and notations -/

def occurrence : Scan Unit := do
  let _ ← Scan.oneOf ["?", "*", "+"]

mutual

/-- Takes a name or a group in a content model; false where it cannot be read on. -/
def particle : Nat → Scan Bool
  | 0 => return false
  | fuel + 1 => do
    if ← Scan.word "(" then group fuel
    else
      let name ← Scan.name
      occurrence
      return !name.isEmpty

/-- Takes a group in a content model, from after its opening parenthesis on. -/
def group : Nat → Scan Bool
  | 0 => return false
  | fuel + 1 => do
    let _ ← Scan.blanks
    if ← particle fuel then members none fuel else return false

/-- Takes the rest of a group, with one separator between all its members. -/
def members (separator : Option Char) : Nat → Scan Bool
  | 0 => return false
  | fuel + 1 => do
    let _ ← Scan.blanks
    if ← Scan.word ")" then
      occurrence
      return true
    let c := (← Scan.ahead).headD ' '
    if (c = ',' || c = '|') && separator.all (· = c) then
      let _ ← Scan.next?
      let _ ← Scan.blanks
      if ← particle fuel then members (some c) fuel else return false
    else return false

end

/-- Takes the content model of an element and says whether it could be read to its end. -/
def contentModel : Scan Bool := do
  if ← Scan.oneOf ["EMPTY", "ANY"] then return true
  if !(← Scan.word "(") then return false
  let _ ← Scan.blanks
  let fuel := (← Scan.ahead).length + 1
  if ← Scan.word "#PCDATA" then
    let _ ← Scan.blanks
    if ← Scan.word ")" then
      let _ ← Scan.word "*"
      return true
    if ← Scan.word "|" then
      if ← choices Scan.name fuel then Scan.word "*" else return false
    else return false
  else group fuel

def close : Scan Unit := do
  let _ ← Scan.blanks
  Scan.require (← Scan.word ">")

/-- Takes the declaration of an element, from after its key on. -/
def elementType : Scan Unit := do
  let apart ← Scan.blanks
  let name ← if apart then Scan.name else pure []
  if name.isEmpty then Scan.lapse
  else
    Scan.require (← Scan.blanks)
    if ← contentModel then close else Scan.lapse

/-- Takes the declaration of a notation, from after its key on. -/
def notationType : Scan Unit := do
  let apart ← Scan.blanks
  let name ← if apart then Scan.name else pure []
  let apart ← Scan.blanks
  if name.isEmpty || !apart then Scan.lapse
  else
    Scan.require (← externalId true)
    close

/-! ## Attributes -/

/-- Takes the kind of an attribute's value and says whether the value is made of tokens; none if no
kind is next. -/
def valueKind : Scan (Option Bool) := do
  if ← Scan.word "CDATA" then return some false
  if ← Scan.oneOf ["IDREFS", "IDREF", "ID", "ENTITY", "ENTITIES", "NMTOKENS", "NMTOKEN"] then
    return some true
  let named ← Scan.word "NOTATION"
  let apart ← if named then Scan.blanks else pure true
  let opened ← if apart then Scan.word "(" else pure false
  let item := if named then Scan.name else Scan.span isNameChar
  let ended ← if opened then choices item ((← Scan.ahead).length + 1) else pure false
  return if ended then some true else none

/-- Takes what an attribute is where it is missing, if it is anything. -/
def defaultValue (elsewhere : Bool) (fuel : Nat) : Scan (Option (List Nat)) := do
  if ← Scan.oneOf ["#REQUIRED", "#IMPLIED"] then return none
  if ← Scan.word "#FIXED" then Scan.require (← Scan.blanks)
  takeValue elsewhere fuel

/-- Takes what is said of the attributes of an element, up to the end of the declaration or to where
it cannot be read on. -/
def attributeTypes (elsewhere : Bool) (element : List Char) : Nat → Scan (List AttributeType)
  | 0 => return []
  | fuel + 1 => do
    if ← Scan.word ">" then return []
    let name ← Scan.name
    let apart ← if name.isEmpty then pure false else Scan.blanks
    let kind ← if apart then valueKind else pure none
    let apart ← if kind.isSome then Scan.blanks else pure false
    match kind, apart with
    | some tokens, true =>
      let default? ← defaultValue elsewhere fuel
      let apart ← Scan.blanks
      if apart || (← Scan.ahead).head? = some '>' then
        let default? := if tokens then default?.map collapseSpaces else default?
        return ⟨element, name, tokens, default?⟩ :: (← attributeTypes elsewhere element fuel)
      else
        Scan.lapse
        return []
    | _, _ =>
      Scan.lapse
      let _ ← Scan.word ">"
      return []

/-- Takes the declaration of an element's attributes, from after its key on. -/
def attributeList (elsewhere : Bool) : Scan (List AttributeType) := do
  Scan.require (← Scan.blanks)
  let element ← Scan.name
  if element.isEmpty then
    Scan.lapse
    return []
  let _ ← Scan.blanks
  attributeTypes elsewhere element ((← Scan.ahead).length + 1)

/-! ## Entities -/

/-- Takes the declaration of an entity, from after its key on, and says whether one is declared. For
use in the document type itself it needs a value; elsewhere a name is enough. -/
def entity : Scan Bool := do
  Scan.require (← Scan.blanks)
  let inner ← Scan.word "%"
  if inner then Scan.require (← Scan.blanks)
  let name ← Scan.name
  if name.isEmpty then
    Scan.lapse
    return false
  Scan.require (← Scan.blanks)
  if inner && !(← Scan.ahead).head?.any fun c => c = '"' || c = '\'' then
    if ← externalId false then return true
    Scan.lapse
    close
    return false
  return true

/-- Takes a reference to an entity of the document type, from after its percent sign on, and says
whether it is one. -/
def entityReference : Scan Bool := do
  let name ← Scan.name
  let closed ← if name.isEmpty then pure false else Scan.word ";"
  Scan.require closed
  return closed

/-! ## The whole -/

/-- Takes declarations up to the closing bracket and the bracket; none where an entity is declared.
What is no declaration ends them too. A reference can bring declarations that are not read, unless
the text stands `alone`. -/
def declarations (alone : Bool) : Nat → Doctype → Scan (Option Doctype)
  | 0, _ => return none
  | fuel + 1, said => do
    let _ ← Scan.blanks
    if ← Scan.word "]" then
      let _ ← Scan.blanks
      return some said
    else if ← Scan.word "<!--" then
      let _ ← takeComment
      declarations alone fuel said
    else if ← Scan.word "<?" then
      let _ ← takeInstruction
      declarations alone fuel said
    else if ← Scan.word "<!" then
      if ← Scan.word "ELEMENT" then
        elementType
        declarations alone fuel said
      else if ← Scan.word "ATTLIST" then
        let attributes ← attributeList said.elsewhere
        declarations alone fuel { said with attributes := said.attributes ++ attributes }
      else if ← Scan.word "NOTATION" then
        notationType
        declarations alone fuel said
      else if ← Scan.word "ENTITY" then
        if ← entity then return none else declarations alone fuel said
      else
        Scan.lapse
        declarations alone fuel said
    else if ← Scan.word "%" then
      let referred ← entityReference
      declarations alone fuel { said with elsewhere := said.elsewhere || (referred && !alone) }
    else
      Scan.lapse
      return some said

/-- Takes what comes before the declarations, and says whether something outside is referred to. -/
def opening : Scan Bool := do
  Scan.require (← Scan.blanks)
  Scan.require !(← Scan.name).isEmpty
  let _ ← Scan.blanks
  let referred ← externalId false
  let _ ← Scan.blanks
  return referred

/-- Takes a document type, from after its opening on; none where an entity is declared. After the
declarations, a text that is `sound` so far must go on with the closing bracket, and in another one
any character is taken for it. -/
def take (alone sound : Bool) : Scan (Option Doctype) := do
  let (referred, soundBefore) ← Scan.judged opening
  let said : Doctype := ⟨referred && !alone, []⟩
  if ← Scan.word "[" then
    let fuel := (← Scan.ahead).length + 1
    let (found, soundWithin) ← Scan.judged (declarations alone fuel said)
    if sound && soundBefore && soundWithin then Scan.require (← Scan.word ">")
    else
      let _ ← Scan.next?
    return found
  else
    Scan.require (← Scan.word ">")
    return some said

end Doctype

end TokenCatalog.Xml
