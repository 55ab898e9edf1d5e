import TokenCatalog.Xml.Doctype
import TokenCatalog.Xml.Heading
import TokenCatalog.Xml.Name

/-!
# Markup as a row of events

The text of an XML file as the starts and ends of elements and what stands between them. A text
that is not well formed is read as far as it goes: an end tag ends the innermost open element
whatever its name, and an element whose start tag is broken off is never open, so that the rest of
its tag belongs to the element around it. Once a text has shown a lapse of form, the characters that
have names of their own vanish from what stands between tags. Reading stops with the root element,
but for comments and instructions after it, or where no name follows an opening bracket.

Each step takes at least one character, so the length of the text is always enough fuel.
-/

namespace TokenCatalog.Xml

inductive Event where
  /-- An element starts, with its own declarations. -/
  | start (name : ExpandedName) (declarations : List Declaration)
      (attributes : List (ExpandedName × List Char))
  | finish (name : ExpandedName)
  | text (text : List Char)
  | comment (text : List Char)
  | instruction (text : List Char)
  deriving DecidableEq, Repr

/-! ## Elements -/

/-- The namespace declarations among the attributes of an element that count. -/
def StartTag.declared (tag : StartTag) : List (List Char × List Nat) :=
  tag.attributes.filterMap fun a =>
    (declared? a.1).bind fun space => if counts space a.2 then some (space, a.2) else none

/-- The namespace declarations that a document type makes for an element. Only what is said first of
an attribute counts. -/
def Doctype.declared (said : Doctype) (element : List Char) : List (List Char × List Nat) :=
  let first := (said.attributes.filter (·.element = element)).eraseDupsBy (·.name == ·.name)
  first.filterMap fun a =>
    (declared? a.name).bind fun space =>
      if space = implicitDeclaration.space then none else a.default?.map (space, ·)

def firstDeclarations (ds : List (List Char × List Nat)) : List (List Char × List Nat) :=
  ds.foldl (fun found d => if found.any (·.1 = d.1) then found else found ++ [d]) []

/-- Whether a name occurs again as it was written at first, among names in their namespaces with
what is written for them, after some that have been seen. -/
def occursTwice (seen : List (ExpandedName × List Char)) :
    List (ExpandedName × List Char) → Bool
  | [] => false
  | a :: more =>
    match seen.find? (·.1 = a.1) with
    | some first => first.2 = a.2 || occursTwice seen more
    | none => occursTwice (seen ++ [a]) more

/-- An element that is open: its name as written and in its namespace, and its declarations. -/
structure OpenElement where
  written : List Char
  name : ExpandedName
  declarations : List Declaration

/-- The start of an element in a scope: the element and its attributes, and whether no attribute and
no declaration occurs twice. What the element itself declares comes before the document type. -/
def startOf (said : Doctype) (outer : Scope) (tag : StartTag) :
    Except Utf8.Fault (OpenElement × List (ExpandedName × List Char) × Bool) := do
  let own := tag.declared
  let declarations ← (firstDeclarations (own ++ said.declared tag.name)).mapM fun d => do
    return ⟨d.1, ← textOf d.2⟩
  let scope : Scope := declarations :: outer
  let others := tag.attributes.filter fun a => (declared? a.1).isNone
  let named := others.map fun a => (scope.attributeName (Name.read a.1), a)
  let attributes ← named.mapM fun a => do return (a.1, ← textOf a.2.2)
  return (⟨tag.name, scope.elementName (Name.read tag.name), declarations⟩, attributes,
    (firstDeclarations own).length = own.length &&
      !occursTwice [] (named.map fun a => (a.1, a.2.1)))

/-- A start tag with the values of some attributes made of tokens. -/
def StartTag.withTokens (said : Doctype) (tag : StartTag) : StartTag :=
  let isTokens (name : List Char) : Bool :=
    (said.attributes.find? fun a => a.element = tag.name && a.name = name).any (·.tokens)
  { tag with
    attributes := tag.attributes.map fun a =>
      if isTokens a.1 then (a.1, collapseSpaces a.2) else a }

/-! ## Reading -/

/-- How far a text has been read: the elements that are open, innermost first, whether the text was
well formed so far, and the rest of it. -/
structure Reading where
  opened : List OpenElement
  sound : Bool
  rest : List Char

/-- What a step of reading meets, and how the reading goes on unless it ends. -/
abbrev Step := Except Utf8.Fault (List Event × Option Reading)

def Reading.after {α : Type} (r : Reading) (t : Taken α) : Reading :=
  { r with sound := r.sound && t.sound, rest := t.rest }

/-- The step over a start tag, given the text from its name on. -/
def Reading.start (said : Doctype) (fuel : Nat) (r : Reading) (cs : List Char) : Step := do
  let t := takeStartTag said.elsewhere fuel cs
  match t.value.map (·.withTokens said) with
  | none => return ([], none)
  | some tag =>
    let (element, attributes, sound) ← startOf said (r.opened.map (·.declarations)) tag
    let r := { r.after t with sound := r.sound && t.sound && sound }
    let start := Event.start element.name element.declarations attributes
    match tag.ending with
    | .opened => return ([start], some { r with opened := element :: r.opened })
    | .closed => return ([start, .finish element.name], some r)
    | .broken => return ([start], some r)

/-- The step over a passage, given the text from after its opening on. -/
def Reading.passage (r : Reading) (scan : Scan (Option (List Char)))
    (event : List Char → Event) (cs : List Char) : Step :=
  let t := scan cs
  .ok (t.value.toList.map event, some (r.after t))

/-- Character data as events: nothing if it is empty. -/
def textEvents (cs : List Char) : List Event :=
  if cs.isEmpty then [] else [.text cs]

/-- The step over a reference, given the text from after its ampersand on. -/
def Reading.reference (said : Doctype) (r : Reading) (cs : List Char) : Step := do
  let t := takeReference said.elsewhere cs
  match t.value with
  | .named c => return (if r.sound then [.text [c]] else [], some (r.after t))
  | .number 0 => return ([], some (r.after t))
  | .number n => return ([.text (← textOf [n])], some (r.after t))
  | .unknown => return ([], some (r.after t))

def Reading.inside (said : Doctype) (fuel : Nat) (r : Reading) (element : OpenElement)
    (outer : List OpenElement) : Step :=
  match r.rest with
  | '<' :: '/' :: cs =>
    let t := takeEndTag element.written cs
    .ok ([.finish element.name], some { r.after t with opened := outer })
  | '<' :: '?' :: cs => r.passage takeInstruction .instruction cs
  | '<' :: '!' :: '-' :: '-' :: cs => r.passage takeComment .comment cs
  | '<' :: '!' :: '[' :: 'C' :: 'D' :: 'A' :: 'T' :: 'A' :: '[' :: cs =>
    r.passage takeSection .text cs
  | '<' :: cs => r.start said fuel cs
  | '&' :: cs => r.reference said cs
  | [] => .ok ([], none)
  | cs =>
    let t := takeText cs
    .ok (textEvents t.value, some (r.after t))

def Reading.outside (r : Reading) : Step :=
  match r.rest.dropWhile isBlank with
  | '<' :: '?' :: cs => r.passage takeInstruction .instruction cs
  | '<' :: '!' :: '-' :: '-' :: cs => r.passage takeComment .comment cs
  | _ => .ok ([], none)

def Reading.step (said : Doctype) (fuel : Nat) (r : Reading) : Step :=
  match r.opened with
  | element :: outer => r.inside said fuel element outer
  | [] => r.outside

def Reading.events (said : Doctype) : Nat → Reading → Except Utf8.Fault (List Event)
  | 0, _ => .ok []
  | fuel + 1, r => do
    let (met, next?) ← r.step said fuel
    match next? with
    | some next => return met ++ (← next.events said fuel)
    | none => return met

/-! ## Before the root -/

/-- Takes instructions, comments and the first document type before the root; none where reading
ends. The text stands `alone` or not and is `sound` so far or not. -/
def takeProlog (alone : Bool) : Nat → Bool → Option Doctype → Scan (Option Doctype)
  | 0, _, _ => return none
  | fuel + 1, sound, said? => do
    let _ ← Scan.blanks
    if ← Scan.word "<?" then
      let (_, ok) ← Scan.judged takeInstruction
      takeProlog alone fuel (sound && ok) said?
    else if ← Scan.word "<!--" then
      let (_, ok) ← Scan.judged takeComment
      takeProlog alone fuel (sound && ok) said?
    else
      let first ← if said?.isNone then Scan.word "<!DOCTYPE" else pure false
      if first then
        let (found, ok) ← Scan.judged (Doctype.take alone sound)
        match found with
        | some said => takeProlog alone fuel (sound && ok) (some said)
        | none => return none
      else return said?.getD .empty

/-- The events of a text. Byte order marks before it are passed over. -/
def events (cs : List Char) : Except Utf8.Fault (List Event) := do
  let text := cs.drop ((cs.take 2).takeWhile (· = '\ufeff')).length
  let heading := Heading.take? text
  let prolog := takeProlog heading.value (text.length + 1) heading.sound none heading.rest
  match prolog.value, prolog.rest with
  | some said, '<' :: cs =>
    let fuel := cs.length + 1
    let (met, next?) ← Reading.start said fuel ⟨[], heading.sound && prolog.sound, cs⟩ cs
    match next? with
    | some next => return met ++ (← next.events said fuel)
    | none => return met
  | _, _ => return []

end TokenCatalog.Xml
