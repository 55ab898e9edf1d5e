import TokenCatalog.Proofs.Text.Search
import TokenCatalog.Proofs.Xml.Prefixes
import TokenCatalog.Text.Lines
import Mathlib.Data.List.Basic

/-!
# Well-formed markup

A grammar of markup, without a reader or a writer: which texts say a row of trees. It has those
forms of well-formed markup that a tree can be written in, with line ends that are line feeds. Main
statements:

* `contents_writeNodes`: what is written of legible trees says them.
-/

namespace TokenCatalog.Xml

/-! ## Characters -/

/-- Whether a character may stand for itself: in a value between some quotation marks, or else in a
text. -/
def isBare (quote? : Option Char) (c : Char) : Bool :=
  isAllowed c.toNat && c != '<' && c != '&' &&
    match quote? with
    | some quote => c != quote && (c == ' ' || !isBlank c)
    | none => c != '>' && c != '\r'

/-- Whether a text refers to a character: by one of five names, or by a number in hexadecimal. -/
def Refers (c : Char) (reference : List Char) : Prop :=
  entity? reference = some c ∨
    ∃ digits, digits ≠ [] ∧ (∀ d ∈ digits, Text.isHex d = true) ∧ reference = '#' :: 'x' :: digits ∧
      Text.ofDigits 16 (digits.filterMap Text.hexValue?) = c.toNat ∧ isAllowed c.toNat = true

/-- What a line end counts as: a space in a value, and a line feed in a text. -/
def lineEnd (quote? : Option Char) : Char :=
  if quote?.isSome then ' ' else '\n'

/-- What may say a row of characters in a value or in a text: characters that stand for themselves,
references, and blanks and line ends, which count as what they are read as. -/
inductive Spells (quote? : Option Char) : List Char → List Char → Prop
  | nil : Spells quote? [] []
  | bare {c : Char} {text cs : List Char} : isBare quote? c = true → Spells quote? text cs →
      Spells quote? (c :: text) (c :: cs)
  | reference {c : Char} {reference text cs : List Char} : Refers c reference →
      Spells quote? text cs →
      Spells quote? (c :: text) ('&' :: reference ++ ';' :: cs)
  | blank {c : Char} {text cs : List Char} : quote?.isSome = true → c = '\t' ∨ c = '\n' →
      Spells quote? text cs → Spells quote? (' ' :: text) (c :: cs)
  | return {text cs : List Char} : cs.head? ≠ some '\n' → Spells quote? text cs →
      Spells quote? (lineEnd quote? :: text) ('\r' :: cs)
  | returnFeed {text cs : List Char} : Spells quote? text cs →
      Spells quote? (lineEnd quote? :: text) ('\r' :: '\n' :: cs)

/-- What a character counts as: a blank in a value counts as a space. -/
def countsAs (inValue : Bool) (c : Char) : Char :=
  if inValue && isBlank c then ' ' else c

/-- What characters are read as that stand in a value or in a text, where every line end is one
character. -/
def readAs (inValue : Bool) (cs : List Char) : List Char :=
  (Text.universalNewlines cs).map (countsAs inValue)

/-- Characters are said by what spells them one by one, if it leaves line ends as they are. -/
theorem spells_flatMap {quote? : Option Char} {spell : Char → List Char} {text : List Char}
    (hspell : ∀ c ∈ text, c ≠ '\r' → ∀ {more cs}, Spells quote? more cs →
      Spells quote? (countsAs quote?.isSome c :: more) (spell c ++ cs))
    (hreturn : spell '\r' = ['\r']) (hfeed : spell '\n' = ['\n'])
    (hhead : ∀ c, c ≠ '\n' → ∃ d more, spell c = d :: more ∧ d ≠ '\n') :
    Spells quote? (readAs quote?.isSome text) (text.flatMap spell) := by
  have hline : countsAs quote?.isSome '\n' = lineEnd quote? := by
    rw [countsAs, show isBlank '\n' = true from rfl, Bool.and_true]
    rfl
  unfold readAs
  induction text using Text.universalNewlines.induct with
  | case1 => exact .nil
  | case2 cs ih =>
      have hcs := ih fun c hc => hspell c (List.mem_cons_of_mem _ (List.mem_cons_of_mem _ hc))
      rw [Text.universalNewlines, List.map_cons, hline, List.flatMap_cons, List.flatMap_cons,
        hreturn, hfeed]
      exact .returnFeed hcs
  | case3 cs hnext ih =>
      have hcs := ih fun c hc => hspell c (List.mem_cons_of_mem _ hc)
      rw [Text.universalNewlines, List.map_cons, hline, List.flatMap_cons, hreturn]
      · refine .return ?_ hcs
        cases cs with
        | nil => exact nofun
        | cons c cs =>
            have hc : c ≠ '\n' := fun heq => hnext cs (heq ▸ rfl)
            obtain ⟨d, more, hd, hne⟩ := hhead c hc
            simp [hd, hne]
      · exact hnext
  | case4 c cs hcrlf hcr ih =>
      have hc : c ≠ '\r' := fun heq => hcr heq
      have hcs := ih fun c hc => hspell c (List.mem_cons_of_mem _ hc)
      rw [Text.universalNewlines, List.map_cons, List.flatMap_cons]
      · exact hspell c List.mem_cons_self hc hcs
      · exact hcrlf
      · exact hcr

theorem spells_self {quote? : Option Char} {cs : List Char} (h : ∀ c ∈ cs, isBare quote? c = true) :
    Spells quote? cs cs := by
  induction cs with
  | nil => exact .nil
  | cons c cs ih =>
      obtain ⟨hc, hcs⟩ := List.forall_mem_cons.mp h
      exact .bare hc (ih hcs)

/-! ## Names, comments and instructions -/

def isSimpleName (cs : List Char) : Bool :=
  isPlainName cs && cs.all isNameChar

def Name.isSound (name : Name) : Bool :=
  isSimpleName name.base && name.space.all isSimpleName

/-- Whether characters may stand in a comment or an instruction. -/
def isRaw (cs : List Char) : Bool :=
  cs.all fun c => isAllowed c.toNat && c != '\r'

/-- Whether a text may stand between the marks of a comment. -/
def isComment (cs : List Char) : Bool :=
  isRaw cs && !Text.occursIn "--".toList (cs ++ ['-'])

/-- Whether a text may stand between the marks of an instruction: a name, a space and data. -/
def isInstruction (cs : List Char) : Bool :=
  let target := cs.takeWhile (· != ' ')
  match cs.dropWhile (· != ' ') with
  | ' ' :: data =>
    isSimpleName target && target.map Char.toLower != "xml".toList && !data.head?.any isBlank &&
      isRaw data && !Text.occursIn "?>".toList data
  | _ => false

/-! ## Elements -/

def Quoted (value cs : List Char) : Prop :=
  ∃ quote, (quote = '"' ∨ quote = '\'') ∧ ∃ inner, cs = quote :: inner ++ [quote] ∧
    Spells (some quote) value inner

inductive Attributes : List (List Char × List Char) → List Char → Prop
  | nil : Attributes [] []
  | cons {name value quoted cs : List Char} {attributes : List (List Char × List Char)} :
      (Name.read name).isSound = true → Quoted value quoted → Attributes attributes cs →
      Attributes ((name, value) :: attributes) (' ' :: name ++ '=' :: quoted ++ cs)

theorem Attributes.append {attributes attributes' : List (List Char × List Char)}
    {cs cs' : List Char} (h : Attributes attributes cs) (h' : Attributes attributes' cs') :
    Attributes (attributes ++ attributes') (cs ++ cs') := by
  induction h with
  | nil => exact h'
  | cons hname hvalue _ ih => simpa using Attributes.cons hname hvalue ih

def Node.isText : Node → Bool
  | .text _ => true
  | _ => false

/-- What may say a row of trees. The attributes of an element may be in any order. -/
inductive Contents : List Node → List Char → Prop
  | nil : Contents [] []
  | element {name : Name} {attributes written : List (List Char × List Char)}
      {children nodes : List Node}
      {tag inner cs : List Char} : name.isSound = true → (attributes.map Prod.fst).Nodup →
      written.Perm attributes → Attributes written tag → Contents children inner →
        Contents nodes cs →
      Contents (.element name attributes children :: nodes)
        ('<' :: name.text ++ tag ++ '>' :: inner ++ '<' :: '/' :: name.text ++ '>' :: cs)
  | empty {name : Name} {attributes written : List (List Char × List Char)} {nodes : List Node}
      {tag cs : List Char} : name.isSound = true → (attributes.map Prod.fst).Nodup →
      written.Perm attributes → Attributes written tag → Contents nodes cs →
      Contents (.element name attributes [] :: nodes) ('<' :: name.text ++ tag ++ '/' :: '>' :: cs)
  | text {text written cs : List Char} {nodes : List Node} : text ≠ [] → Spells none text written →
      nodes.head?.any Node.isText = false → Contents nodes cs →
      Contents (.text text :: nodes) (written ++ cs)
  | comment {text cs : List Char} {nodes : List Node} : isComment text = true → Contents nodes cs →
      Contents (.comment text :: nodes) ("<!--".toList ++ text ++ "-->".toList ++ cs)
  | instruction {text cs : List Char} {nodes : List Node} : isInstruction text = true →
      Contents nodes cs → Contents (.instruction text :: nodes) ("<?".toList ++ text ++
        "?>".toList ++ cs)

/-! ## Legible trees -/

mutual

/-- Whether a tree has texts that are not empty and not next to each other, and elements with
different attributes. -/
def Node.isTidy : Node → Bool
  | .element _ attributes children => decide (attributes.map Prod.fst).Nodup && areTidy children
  | .text cs => !cs.isEmpty
  | .comment _ => true
  | .instruction _ => true

def areTidy : List Node → Bool
  | [] => true
  | node :: nodes =>
    Node.isTidy node && !(node.isText && nodes.head?.any Node.isText) && areTidy nodes

end

def isLegible (cs : List Char) : Bool :=
  cs.all fun c => isAllowed c.toNat

mutual

/-- Whether a tree has names, characters, comments and instructions that markup can have. -/
def Node.isLegible : Node → Bool
  | .element name attributes children =>
    name.isSound && attributes.all (fun a => (Name.read a.1).isSound && Xml.isLegible a.2) &&
      areLegible children
  | .text cs => Xml.isLegible cs
  | .comment cs => isComment cs
  | .instruction cs => isInstruction cs

def areLegible : List Node → Bool
  | [] => true
  | node :: nodes => Node.isLegible node && areLegible nodes

end

def attributesAsRead (attributes : List (List Char × List Char)) : List (List Char × List Char) :=
  attributes.map fun a => (a.1, readAs true a.2)

mutual

/-- A tree with its characters as they are read after it has been written. -/
def Node.asRead : Node → Node
  | .element name attributes children =>
      .element name (attributesAsRead attributes) (allAsRead children)
  | .text cs => .text (readAs false cs)
  | .comment cs => .comment cs
  | .instruction cs => .instruction cs

/-- Trees with their characters as they are read after they have been written. -/
def allAsRead : List Node → List Node
  | [] => []
  | node :: nodes => Node.asRead node :: allAsRead nodes

end

/-! ## What is written -/

/-- Escaping leaves no character out and adds no line feed. -/
theorem exists_escape {c : Char} (hc : c ≠ '\n') : ∃ d more, escape c = d :: more ∧ d ≠ '\n' := by
  unfold escape
  split
  · exact ⟨'&', _, rfl, by decide⟩
  · split
    · exact ⟨'&', _, rfl, by decide⟩
    · split
      · exact ⟨'&', _, rfl, by decide⟩
      · exact ⟨c, [], rfl, hc⟩

theorem countsAs_of_not_isBlank {inValue : Bool} {c : Char} (h : isBlank c = false) :
    countsAs inValue c = c := by
  simp [countsAs, h]

/-- A character is said by what it is escaped to, before what says others. -/
theorem spells_escape {quote? : Option Char} {c : Char} (hallowed : isAllowed c.toNat = true)
    (hreturn : c ≠ '\r') (hquote : quote? ≠ some c) {text cs : List Char}
    (h : Spells quote? text cs) :
    Spells quote? (countsAs quote?.isSome c :: text) (escape c ++ cs) := by
  have hamp : Refers '&' "amp".toList := .inl rfl
  have hlt : Refers '<' "lt".toList := .inl rfl
  have hgt : Refers '>' "gt".toList := .inl rfl
  unfold escape
  split
  · next heq =>
    subst heq
    rw [countsAs_of_not_isBlank (by decide : isBlank '&' = false)]
    exact Spells.reference hamp h
  · split
    · next heq =>
      subst heq
      rw [countsAs_of_not_isBlank (by decide : isBlank '<' = false)]
      exact Spells.reference hlt h
    · split
      · next heq =>
        subst heq
        rw [countsAs_of_not_isBlank (by decide : isBlank '>' = false)]
        exact Spells.reference hgt h
      · cases quote? with
        | none =>
            change Spells none (c :: text) (c :: cs)
            exact .bare (by simp_all [isBare]) h
        | some quote =>
            have hne : c ≠ quote := fun heq => hquote (heq ▸ rfl)
            by_cases hblank : isBlank c = true
            · rw [countsAs, if_pos (by simpa using hblank)]
              simp only [isBlank, Bool.or_eq_true, beq_iff_eq] at hblank
              rcases hblank with ((rfl | htab) | hfeed) | hcr
              · exact .bare (by simp_all [isBare]) h
              · exact .blank rfl (.inl htab) h
              · exact .blank rfl (.inr hfeed) h
              · exact absurd hcr hreturn
            · rw [countsAs_of_not_isBlank (by simpa using hblank)]
              exact .bare (by simp_all [isBare]) h

theorem isAllowed_of_mem {cs : List Char} (h : isLegible cs = true) {c : Char} (hc : c ∈ cs) :
    isAllowed c.toNat = true :=
  List.all_eq_true.mp h c hc

/-- Escaping adds no quotation mark and takes none away. -/
theorem mem_escape {quote : Char} (hquote : quote = '"' ∨ quote = '\'') {c : Char} :
    quote ∈ escape c ↔ c = quote := by
  unfold escape
  split
  · next heq => rcases hquote with rfl | rfl <;> simp [heq]
  · split
    · next heq => rcases hquote with rfl | rfl <;> simp [heq]
    · split
      · next heq => rcases hquote with rfl | rfl <;> simp [heq]
      · simp [eq_comm]

/-- **A value is quoted so that the quoted text says it.** -/
theorem quoted_quoteValue {value : List Char} (h : isLegible value = true) :
    Quoted (readAs true value) (quoteValue value) := by
  have hquot : Refers '"' "quot".toList := .inl rfl
  -- a quotation mark that the value does not have can go around it
  have haround : ∀ quote, (quote = '"' ∨ quote = '\'') → quote ∉ value.flatMap escape →
      Quoted (readAs true value) (quote :: value.flatMap escape ++ [quote]) := by
    intro quote hquote hmem
    refine ⟨quote, hquote, _, rfl, spells_flatMap ?_ rfl rfl fun c hc => exists_escape hc⟩
    intro c hc hreturn more cs hmore
    refine spells_escape (isAllowed_of_mem h hc) hreturn ?_ hmore
    rintro ⟨⟩
    exact hmem (List.mem_flatMap.mpr ⟨quote, hc, (mem_escape hquote).mpr rfl⟩)
  -- otherwise the double ones are escaped
  have hself : ∀ c, c ≠ '"' →
      ((escape c).flatMap fun d => if d = '"' then "&quot;".toList else [d]) = escape c := by
    intro c hc
    have hpieces : ((escape c).flatMap fun d => if d = '"' then "&quot;".toList else [d]) =
        (escape c).flatMap fun d => [d] := by
      refine List.flatMap_congr fun d hd => if_neg ?_
      rintro rfl
      exact hc ((mem_escape (.inl rfl)).mp hd)
    rw [hpieces, List.flatMap_singleton']
  unfold quoteValue
  dsimp only
  split
  · next hdouble => exact haround '"' (.inl rfl) (by simpa using hdouble)
  · split
    · next hsingle => exact haround '\'' (.inr rfl) (by simpa using hsingle)
    · refine ⟨'"', .inl rfl, _, rfl, ?_⟩
      rw [List.flatMap_assoc]
      refine spells_flatMap ?_ rfl rfl ?_
      · intro c hc hreturn more cs hmore
        by_cases hdouble : c = '"'
        · subst hdouble
          exact Spells.reference hquot hmore
        · rw [hself c hdouble]
          exact spells_escape (isAllowed_of_mem h hc) hreturn
            (fun heq => hdouble (Option.some_inj.mp heq).symm) hmore
      · intro c hc
        by_cases hdouble : c = '"'
        · subst hdouble
          exact ⟨'&', _, rfl, by decide⟩
        · rw [hself c hdouble]
          exact exists_escape hc

theorem attributes_writeAll {attributes : List (List Char × List Char)}
    (h : ∀ a ∈ attributes, (Name.read a.1).isSound = true ∧ isLegible a.2 = true) :
    Attributes (attributesAsRead attributes)
      (attributes.flatMap fun a => ' ' :: a.1 ++ '=' :: quoteValue a.2) := by
  induction attributes with
  | nil => exact .nil
  | cons a attributes ih =>
      obtain ⟨⟨hname, hvalue⟩, hattributes⟩ := List.forall_mem_cons.mp h
      exact .cons hname (quoted_quoteValue hvalue) (ih hattributes)

/-- What is written of attributes says them, sorted. -/
theorem exists_writeAttributes {attributes : List (List Char × List Char)}
    (h : ∀ a ∈ attributes, (Name.read a.1).isSound = true ∧ isLegible a.2 = true) :
    ∃ written, written.Perm (attributesAsRead attributes) ∧
      Attributes written (writeAttributes attributes) := by
  have hperm := List.mergeSort_perm attributes fun a b => !(b.1 < a.1)
  exact ⟨_, hperm.map _, attributes_writeAll fun a ha => h a (hperm.mem_iff.mp ha)⟩

theorem names_attributesAsRead (attributes : List (List Char × List Char)) :
    (attributesAsRead attributes).map Prod.fst = attributes.map Prod.fst := by
  simp [attributesAsRead]

theorem spells_text {cs : List Char} (h : isLegible cs = true) :
    Spells none (readAs false cs) (cs.flatMap escape) := by
  refine spells_flatMap ?_ rfl rfl fun c hc => exists_escape hc
  intro c hc hreturn more cs hmore
  refine spells_escape (isAllowed_of_mem h hc) hreturn ?_ hmore
  exact nofun

theorem readAs_ne_nil {inValue : Bool} {cs : List Char} (h : cs ≠ []) : readAs inValue cs ≠ [] := by
  have hlines : ∀ {cs : List Char}, Text.universalNewlines cs = [] → cs = [] := by
    intro cs hnil
    unfold Text.universalNewlines at hnil
    split at hnil
    · rfl
    all_goals cases hnil
  exact fun hnil => h (hlines (List.map_eq_nil_iff.mp hnil))

theorem isEmpty_readAs (inValue : Bool) (cs : List Char) :
    (readAs inValue cs).isEmpty = cs.isEmpty := by
  cases cs with
  | nil => rfl
  | cons c cs =>
      have hne : readAs inValue (c :: cs) ≠ [] := readAs_ne_nil (List.cons_ne_nil c cs)
      simpa using hne

/-! ### Prefixes -/

theorem usedBy_attributesAsRead (attributes : List (List Char × List Char)) :
    usedBy (attributesAsRead attributes) = usedBy attributes := by
  simp [usedBy, attributesAsRead, List.filterMap_map]

theorem declaredBy_attributesAsRead (attributes : List (List Char × List Char)) :
    declaredBy (attributesAsRead attributes) = declaredBy attributes := by
  simp only [declaredBy, attributesAsRead, List.filterMap_map, Function.comp_def, isEmpty_readAs]

mutual

theorem free_asRead : ∀ node : Node, node.asRead.free = node.free
  | .element name attributes children => by
      rw [Node.asRead, Node.free, Node.free, usedBy_attributesAsRead, declaredBy_attributesAsRead,
        freeOf_allAsRead children]
  | .text _ => rfl
  | .comment _ => rfl
  | .instruction _ => rfl

theorem freeOf_allAsRead : ∀ nodes : List Node, freeOf (allAsRead nodes) = freeOf nodes
  | [] => rfl
  | node :: nodes => by
      rw [allAsRead, freeOf, freeOf, free_asRead node, freeOf_allAsRead nodes]

end

/-! ### Trees -/

theorem isText_asRead (node : Node) : node.asRead.isText = node.isText := by
  cases node <;> rfl

theorem head?_allAsRead (nodes : List Node) :
    (allAsRead nodes).head?.any Node.isText = nodes.head?.any Node.isText := by
  cases nodes with
  | nil => rfl
  | cons node nodes => exact isText_asRead node

mutual

/-- What is written of a legible tree says it, before what says other trees. -/
theorem contents_write : ∀ {node : Node}, node.isTidy = true → node.isLegible = true →
    ∀ {nodes : List Node} {cs : List Char}, (node.isText && nodes.head?.any Node.isText) = false →
    Contents nodes cs → Contents (node.asRead :: nodes) (node.write ++ cs)
  | .element name attributes children, htidy, h, nodes, cs, _, hcs => by
      simp only [Node.isTidy, Bool.and_eq_true, decide_eq_true_eq] at htidy
      simp only [Node.isLegible, Bool.and_eq_true, List.all_eq_true] at h
      obtain ⟨hnodup, hchildrenTidy⟩ := htidy
      obtain ⟨⟨hname, hattributes⟩, hchildren⟩ := h
      rw [← names_attributesAsRead] at hnodup
      obtain ⟨written, hperm, htag⟩ := exists_writeAttributes hattributes
      have hinner := contents_writeNodes hchildrenTidy hchildren
      cases children with
      | nil => simpa [Node.write, Node.asRead, allAsRead]
          using Contents.empty hname hnodup hperm htag hcs
      | cons child rest =>
          simpa [Node.write, Node.asRead] using Contents.element hname hnodup hperm htag hinner hcs
  | .text text, htidy, h, nodes, cs, hnext, hcs => by
      simp only [Node.isTidy, Bool.not_eq_true', List.isEmpty_eq_false_iff] at htidy
      have hfirst : nodes.head?.any Node.isText = false := by simpa [Node.isText] using hnext
      simpa [Node.write, Node.asRead] using
        Contents.text (readAs_ne_nil htidy) (spells_text h) hfirst hcs
  | .comment text, _, h, nodes, cs, _, hcs => by
      simpa [Node.write, Node.asRead] using Contents.comment h hcs
  | .instruction text, _, h, nodes, cs, _, hcs => by
      simpa [Node.write, Node.asRead] using Contents.instruction h hcs

/-- **What is written of legible trees says them**, with their characters as they are read. -/
theorem contents_writeNodes :
    ∀ {nodes : List Node}, areTidy nodes = true → areLegible nodes = true →
    Contents (allAsRead nodes) (writeNodes nodes)
  | [], _, _ => .nil
  | node :: nodes, htidy, h => by
      simp only [areTidy, Bool.and_eq_true, Bool.not_eq_true'] at htidy
      simp only [areLegible, Bool.and_eq_true] at h
      obtain ⟨⟨hnodeTidy, hnext⟩, hnodesTidy⟩ := htidy
      obtain ⟨hnode, hnodes⟩ := h
      rw [← head?_allAsRead] at hnext
      exact contents_write hnodeTidy hnode hnext (contents_writeNodes hnodesTidy hnodes)

end

end TokenCatalog.Xml
