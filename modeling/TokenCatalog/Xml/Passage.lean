import TokenCatalog.Xml.Scan

/-!
# Passages between tags

Text, comments, sections of plain text and instructions. Every passage has its line ends written as
LF. A passage that holds what may not stand in a text is broken off there, and so is one without an
end; both are lost.
-/

namespace TokenCatalog.Xml

/-! ## Text -/

/-- Whether a character is one of those that text can be made of without looking closer. -/
def isPlain (c : Char) : Bool :=
  c == '\t' || c == '\n' || (' ' ≤ c && c ≤ '\x7f')

/-- Takes text up to a bracket or an ampersand. A character that may not stand in a text ends it and
is passed over; the mark that ends a section is a lapse. -/
def takeWideText : Scan (List Char)
  | [] => ⟨[], [], true⟩
  | ']' :: ']' :: '>' :: cs =>
    let more := takeWideText (']' :: '>' :: cs)
    ⟨']' :: more.value, more.rest, false⟩
  | '\r' :: '\n' :: cs => (takeWideText cs).map ('\n' :: ·)
  | c :: cs =>
    if c = '<' || c = '&' then ⟨[], c :: cs, true⟩
    else if !isAllowed c.toNat then ⟨[], cs, false⟩
    else (takeWideText cs).map ((if c = '\r' then '\n' else c) :: ·)

/-- Takes text up to a bracket or an ampersand, given the plain characters met so far, the last one
first. As long as they are all plain, the mark that ends a section breaks the text off: what was met
is lost, and with it the first character of the mark. -/
def takePlainText (met : List Char) : Scan (List Char)
  | [] => ⟨met.reverse, [], true⟩
  | ']' :: ']' :: '>' :: cs => ⟨[], ']' :: '>' :: cs, false⟩
  | '\r' :: '\n' :: cs =>
    (if cs.head?.any isPlain then takePlainText ['\n'] cs else takeWideText ('\n' :: cs)).map
      (met.reverse ++ ·)
  | c :: cs =>
    if c = '<' || c = '&' then ⟨met.reverse, c :: cs, true⟩
    else if isPlain c then takePlainText (c :: met) cs
    else (takeWideText (c :: cs)).map (met.reverse ++ ·)

def takeText : Scan (List Char) := takePlainText []

/-! ## Passages with an end of their own -/

/-- Takes characters up to a mark and the mark; none if the text ends or may not go on before. -/
def takeUntil (mark : List Char) : Scan (Option (List Char))
  | [] => ⟨none, [], false⟩
  | c :: cs =>
    match Text.after? mark (c :: cs) with
    | some rest => ⟨some [], rest, true⟩
    | none =>
      if !isAllowed c.toNat then ⟨none, c :: cs, false⟩
      else if c = '\r' then
        let more := takeUntil mark cs
        if cs.head? = some '\n' then more else more.map fun text => text.map ('\n' :: ·)
      else (takeUntil mark cs).map fun text => text.map (c :: ·)

def takeSection : Scan (Option (List Char)) :=
  takeUntil "]]>".toList

/-- Takes a comment from a character on that is not plain. Hyphens in pairs are a lapse. -/
def takeWideComment : Scan (Option (List Char)) := do
  let text ← takeUntil "-->".toList
  Scan.require !(text.any fun text => Text.occursIn "--".toList (text ++ ['-']))
  return text

/-- Takes a comment, from after its opening on. As long as all characters are plain, hyphens are
passed over in pairs, so that three of them before a bracket end no comment. -/
def takeComment : Scan (Option (List Char))
  | [] => ⟨none, [], false⟩
  | '-' :: '-' :: '>' :: cs => ⟨some [], cs, true⟩
  | '-' :: '-' :: cs =>
    let more := takeComment cs
    ⟨more.value.map fun text => '-' :: '-' :: text, more.rest, false⟩
  | '\r' :: '\n' :: cs => (takeComment cs).map fun text => text.map ('\n' :: ·)
  | c :: cs =>
    if isPlain c then (takeComment cs).map fun text => text.map (c :: ·)
    else takeWideComment (c :: cs)

/-- Takes an instruction, from after its opening on: its name, a space and its data. The name that
begins a heading is a lapse. -/
def takeInstruction : Scan (Option (List Char)) := do
  let name ← Scan.name
  if name.isEmpty then
    Scan.lapse
    return none
  else
    Scan.require (name.map Char.toLower ≠ "xml".toList)
    if ← Scan.word "?>" then return some (name ++ [' '])
    else
      Scan.require (← Scan.blanks)
      let data ← takeUntil "?>".toList
      return data.map fun data => name ++ ' ' :: data

end TokenCatalog.Xml
