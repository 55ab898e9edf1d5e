import Mathlib.Data.List.Basic
import Mathlib.Data.List.TakeWhile
import TokenCatalog.Proofs.Css.Verbatim
import TokenCatalog.Proofs.Stylesheet.Holds
import TokenCatalog.Proofs.Text.Search
import TokenCatalog.Stylesheet.Scope

/-!
# Where statements stand

Statements are cut out of a tree, and the tree has forgotten the text. Reading is local, though, and
statements end at stops, so each statement can be traced to the piece of the text that its nodes are
the tree of, at any depth of blocks in blocks. Main statements:

* `DeclarationAt`, `RuleAt`: a declaration or a rule stands at a place of the text;
* `Extent`: where the value of a declaration begins, and on which line the declaration ends;
* `traced_of_holds` and `Traced.located`: every statement of a stylesheet stands somewhere.

The invariant of the split is `Begun`: apart from blanks in front, the nodes of the statement that
has begun are those of one piece of the text, which ends where the split has arrived.
-/

namespace TokenCatalog.Css

def Point.On (source : List Char) (x : Point) : Prop :=
  ∃ before, Point.Leads ⟨.start, source⟩ before x

theorem Point.On.leads {source cs : List Char} {x y : Point} (hx : x.On source)
    (h : x.Leads cs y) : y.On source := by
  obtain ⟨before, hbefore⟩ := hx
  exact ⟨before ++ cs, hbefore.trans h⟩

theorem Point.Leads.unique {x y : Point} {cs ds : List Char} (h : x.Leads cs y)
    (h' : x.Leads ds y) : cs = ds :=
  List.append_cancel_right (h.text.symm.trans h'.text)

theorem Spans.on {source : List Char} {x y : Point} {nodes : List Node} (h : Spans x nodes y)
    (hx : x.On source) : y.On source := by
  obtain ⟨cs, hcs⟩ := h.leads
  exact hx.leads hcs

/-- A node stands where the row that it begins does. -/
theorem Spans.position_eq {x y : Point} {node : Node} {nodes : List Node}
    (h : Spans x (node :: nodes) y) : node.position = x.position := by
  have hopener : ∀ (opener : Opener) (p : Position) (content : List Node),
      (opener.node p content).position = p := by
    intro opener p content
    cases opener <;> rfl
  generalize hall : node :: nodes = all at h
  cases h with
  | nil => cases hall
  | leaf => cases hall; rfl
  | closed => cases hall; exact hopener _ _ _
  | ended => cases hall; exact hopener _ _ _

/-- The last node of a row stands where the text that it is read from begins. -/
theorem Spans.exists_last {x y : Point} {nodes : List Node} {last : Node} (h : Spans x nodes y)
    (hlast : nodes.getLast? = some last) (hstops : Stops y.text) :
    ∃ z upto rest, x.Leads upto z ∧ z.Leads rest y ∧ parseAt z.position rest = [last] ∧
      last.position = z.position := by
  obtain ⟨front, rfl⟩ := List.getLast?_eq_some_iff.mp hlast
  obtain ⟨z, hfront, hrest⟩ := spans_append.mp h
  obtain ⟨upto, hupto⟩ := hfront.leads
  obtain ⟨rest, htext⟩ := hrest.leads
  exact ⟨z, upto, rest, hupto, htext, hrest.parseAt_eq htext hstops, hrest.position_eq⟩

end TokenCatalog.Css

namespace TokenCatalog.Stylesheet

open TokenCatalog.Css (Node Position Point Spans Stops Closed parseAt)

/-! ## Places of the text -/

/-- Where a statement can end: before a semicolon or a closing brace, or with the text. -/
def EndsStatement (after : List Char) : Prop :=
  ∀ c ∈ after.head?, c = ';' ∨ c = '\x7d'

theorem EndsStatement.stops {after : List Char} (h : EndsStatement after) : Stops after := by
  intro c hc
  rcases h c hc with rfl | rfl <;> decide

/-- Where a value begins, behind a name and a colon. -/
def valueStart (before name : List Char) : Position :=
  Position.start.after (before ++ name ++ [':'])

/-- Where the body of a rule begins, behind a head and a brace. -/
def bodyStart (before head : List Char) : Position :=
  Position.start.after (before ++ head ++ ['\x7b'])

/-- A declaration stands in a text: its name, a colon, its value, and what ends it. The name and the
value are read from their own pieces of the text; only the end of the text can leave the value
open. -/
structure DeclarationAt (dialect : Dialect) (source : List Char) (d : Declaration)
    (before name value after : List Char) : Prop where
  text : source = before ++ (name ++ ':' :: (value ++ after))
  declares : ∃ filler, hasContent filler = false ∧
    declaredName? dialect (parseAt (Position.start.after before) name) = some (d.name, filler)
  reads : d.nodes = parseAt (valueStart before name) value
  ends : EndsStatement after
  closed : after ≠ [] → Closed (valueStart before name) value

/-- Where the value of a declaration begins, blanks and comments aside, and the line on which the
declaration ends: that of its semicolon, or without one that of its last node. -/
structure Extent (d : Declaration) (before name value after : List Char) : Prop where
  begins : d.value ≠ [] → ∃ fill rest, value = fill ++ rest ∧
    d.position = (valueStart before name).after fill ∧ skipFiller d.nodes = parseAt d.position rest
  ends : ∃ upto rest, ':' :: value = upto ++ rest ∧
    d.endLine = (Position.start.after (before ++ name ++ upto)).line ∧
    if after.head? = some ';' then rest = []
    else ∃ last, parseAt (Position.start.after (before ++ name ++ upto)) rest = [last]

def IsBlank (node : Node) : Prop :=
  ∃ p text, node = .leaf p (.whitespace text) ∧ ∀ c ∈ text, Text.isBlank c = true

def isBlankNode (node : Node) : Bool :=
  match node.leaf? with
  | some (.whitespace text) => text.all Text.isBlank
  | _ => false

theorem isBlankNode_iff {node : Node} : isBlankNode node = true ↔ IsBlank node := by
  unfold isBlankNode
  constructor
  · intro h
    split at h
    · next text hleaf =>
        cases node with
        | leaf p leaf =>
            obtain rfl := Option.some.inj hleaf
            exact ⟨p, text, rfl, List.all_eq_true.mp h⟩
        | function => cases hleaf
        | block => cases hleaf
    · cases h
  · rintro ⟨p, text, rfl, h⟩
    exact List.all_eq_true.mpr h

instance : DecidablePred IsBlank :=
  fun _ => decidable_of_iff _ isBlankNode_iff

/-- A rule stands in a text: its head, a brace, its body, and the closing brace unless the text ends
in the body. Blanks in front of the head may stand further up. -/
structure RuleAt (source : List Char) (headNodes bodyNodes : List Node)
    (before head body after : List Char) : Prop where
  text : source = before ++ (head ++ '\x7b' :: (body ++ after))
  blanks : ∃ fill, headNodes = fill ++ skipFiller headNodes ∧ ∀ node ∈ fill, IsBlank node
  heads : skipFiller headNodes = parseAt (Position.start.after before) head
  headClosed : Closed (Position.start.after before) head
  reads : bodyNodes = parseAt (bodyStart before head) body
  closes : ∀ c ∈ after.head?, c = '\x7d'
  closed : after ≠ [] → Closed (bodyStart before head) body

def Located (dialect : Dialect) (source : List Char) : Statement → Prop
  | .comment _ _ => True
  | .declaration d => ∃ before name value after,
      DeclarationAt dialect source d before name value after
  | .rule headNodes bodyNodes _ => ∃ before head body after,
      RuleAt source headNodes bodyNodes before head body after

/-! ## Leading fillers -/

theorem hasContent_eq_false_iff {nodes : List Node} :
    hasContent nodes = false ↔ skipFiller nodes = [] := by
  rw [hasContent, skipFiller, List.any_eq_false, List.dropWhile_eq_nil_iff]
  simp

theorem skipFiller_append_of_content {nodes : List Node} (h : hasContent nodes = true)
    (more : List Node) : skipFiller (nodes ++ more) = skipFiller nodes ++ more := by
  have hne : nodes.dropWhile (·.isFiller) ≠ [] := by
    intro hnil
    rw [hasContent_eq_false_iff.mpr hnil] at h
    cases h
  rw [skipFiller, List.dropWhile_append, List.isEmpty_eq_false_iff.mpr hne]
  rfl

theorem skipFiller_append_of_filler {nodes : List Node} (h : hasContent nodes = false)
    (more : List Node) : skipFiller (nodes ++ more) = skipFiller more := by
  have hnil : nodes.dropWhile (·.isFiller) = [] := hasContent_eq_false_iff.mp h
  rw [skipFiller, List.dropWhile_append, hnil]
  rfl

theorem exists_fill (nodes : List Node) :
    ∃ fill, hasContent fill = false ∧ nodes = fill ++ skipFiller nodes := by
  refine ⟨nodes.takeWhile (·.isFiller), ?_, List.takeWhile_append_dropWhile.symm⟩
  rw [hasContent, List.any_eq_false]
  intro node hnode
  simp [List.mem_takeWhile_imp hnode]

/-- A filler that is no comment is a blank. -/
theorem isBlank_of_spans {x y : Point} {node : Node} (h : Spans x [node] y)
    (hfiller : node.isFiller = true) (hcomment : node.isComment = false) : IsBlank node := by
  cases node with
  | leaf p leaf =>
      cases leaf with
      | whitespace text =>
          obtain ⟨c, cs, more, rfl, hscan, -⟩ := Css.spans_leaf h
          exact ⟨p, text, rfl, fun d hd => Css.isBlank_of_isSpace
            (Css.whitespace_of_scan hscan d hd)⟩
      | comment text => cases hcomment
      | _ => cases hfiller
  | function p name arguments => cases hfiller
  | block p bracket content => cases hfiller

/-- Blanks in front are written in front. -/
theorem exists_write_of_blanks {fill : List Node} (h : ∀ node ∈ fill, IsBlank node)
    (nodes : List Node) : ∃ blanks, (∀ c ∈ blanks, Text.isBlank c = true) ∧
      Css.write (fill ++ nodes) = blanks ++ Css.write nodes := by
  induction fill with
  | nil => exact ⟨[], nofun, rfl⟩
  | cons node fill ih =>
      rw [List.forall_mem_cons] at h
      obtain ⟨⟨p, text, rfl, htext⟩, hfill⟩ := h
      obtain ⟨blanks, hblanks, hwrite⟩ := ih hfill
      refine ⟨text ++ blanks, ?_, ?_⟩
      · intro c hc
        exact (List.mem_append.mp hc).elim (htext c) (hblanks c)
      · have hself : Css.write (.leaf p (.whitespace text) :: (fill ++ nodes)) =
            text ++ Css.writeFrom (some .other) (fill ++ nodes) := by
          rw [Css.write, Css.writeFrom]
          rfl
        rw [List.cons_append, hself, Css.writeFrom_other, hwrite, List.append_assoc]

/-- A value of blanks and comments only is empty. -/
theorem value_eq_nil_of_spans {d : Declaration} {x y : Point} (h : Spans x d.nodes y)
    (hcontent : hasContent d.nodes = false) : d.value = [] := by
  have hblanks : ∀ node ∈ Css.withoutComments d.nodes, IsBlank node := by
    intro node hnode
    obtain ⟨hmem, hcomment⟩ := List.mem_filter.mp hnode
    obtain ⟨front, more, hsplit⟩ := List.append_of_mem hmem
    rw [hsplit, Css.spans_append] at h
    obtain ⟨z, -, h⟩ := h
    obtain ⟨u, hhere, -⟩ := Css.spans_cons.mp h
    rw [hasContent, List.any_eq_false] at hcontent
    exact isBlank_of_spans hhere (by simpa using hcontent node hmem) (by simpa using hcomment)
  obtain ⟨blanks, hall, hwrite⟩ := exists_write_of_blanks hblanks []
  rw [List.append_nil] at hwrite
  rw [Declaration.value, hwrite]
  exact Text.strip_append_of_blank hall []

/-! ## The statement that has begun -/

/-- The nodes of the statement that has begun, when the split has arrived at a point. -/
structure Begun (source : List Char) (current : List Node) (x : Point) : Prop where
  blanks : ∃ fill, current = fill ++ skipFiller current ∧ ∀ node ∈ fill, IsBlank node
  core : ∃ u, u.On source ∧ Spans u (skipFiller current) x

theorem Begun.start {source : List Char} {x : Point} (hx : x.On source) : Begun source [] x where
  blanks := ⟨[], rfl, nofun⟩
  core := ⟨x, hx, .nil x⟩

theorem Begun.on {source : List Char} {current : List Node} {x : Point}
    (h : Begun source current x) : x.On source := by
  obtain ⟨u, hu, hcore⟩ := h.core
  exact hcore.on hu

/-- A comment in front of a statement is none of its nodes. -/
theorem Begun.pass {source : List Char} {current : List Node} {x y : Point} {node : Node}
    (h : Begun source current x) (hcontent : hasContent current = false)
    (hnode : Spans x [node] y) :
    Begun source current y where
  blanks := h.blanks
  core := by
    rw [hasContent_eq_false_iff.mp hcontent]
    exact ⟨y, hnode.on h.on, .nil y⟩

/-- One more node of the statement; only blanks may stand in front of it. -/
theorem Begun.push {source : List Char} {current : List Node} {x y : Point} {node : Node}
    (h : Begun source current x) (hnode : Spans x [node] y)
    (hcomment : hasContent current = true ∨ node.isComment = false) :
    Begun source (current ++ [node]) y := by
  obtain ⟨fill, hfill, hblanks⟩ := h.blanks
  obtain ⟨u, hu, hcore⟩ := h.core
  cases hcontent : hasContent current with
  | true =>
      have hskip := skipFiller_append_of_content hcontent [node]
      refine ⟨⟨fill, ?_, hblanks⟩, u, hu, ?_⟩
      · rw [hskip, ← List.append_assoc, ← hfill]
      · rw [hskip]
        exact hcore.append hnode
  | false =>
      have hskip := skipFiller_append_of_filler hcontent [node]
      rw [hasContent_eq_false_iff.mp hcontent, List.append_nil] at hfill
      subst hfill
      have hcomment := hcomment.resolve_left (by rw [hcontent]; exact Bool.false_ne_true)
      cases hfiller : node.isFiller with
      | true =>
          have hnone : skipFiller [node] = [] := by simp [skipFiller, hfiller]
          rw [hnone] at hskip
          refine ⟨⟨current ++ [node], by rw [hskip, List.append_nil], ?_⟩, y, hnode.on h.on, ?_⟩
          · intro other hother
            rcases List.mem_append.mp hother with hbefore | hlast
            · exact hblanks other hbefore
            · rw [List.mem_singleton.mp hlast]
              exact isBlank_of_spans hnode hfiller hcomment
          · rw [hskip]
            exact .nil y
      | false =>
          have hself : skipFiller [node] = [node] := by simp [skipFiller, hfiller]
          rw [hself] at hskip
          refine ⟨⟨current, by rw [hskip], hblanks⟩, x, h.on, ?_⟩
          rw [hskip]
          exact hnode

/-- The line on which the statement that has begun ends, if it ends at a point: that of the
semicolon there, or that of its last node. -/
def EndsOn (current : List Node) (x : Point) (line : Nat) : Prop :=
  if x.text.head? = some ';' then line = x.position.line
  else ∃ last, current.getLast? = some last ∧ line = last.position.line

/-! ## Declarations and rules -/

/-- The name of a declaration is read off the nodes before the rest. -/
theorem exists_of_declaredName? {dialect : Dialect} {nodes rest : List Node} {name : List Char}
    (h : declaredName? dialect nodes = some (name, rest)) :
    ∃ front, nodes = front ++ rest ∧
      ∀ more, declaredName? dialect (front ++ more) = some (name, more) := by
  unfold declaredName? at h
  split at h
  · next p ident rest' =>
      cases h
      exact ⟨[.leaf p (.ident name)], rfl, fun more => rfl⟩
  · next p rest' =>
      split at h
      · next hsign =>
          split at h
          · next q ident rest'' hskip =>
              cases h
              obtain ⟨fill, hfill, hrest⟩ := exists_fill rest'
              rw [hskip] at hrest
              refine ⟨.leaf p (.literal ['$']) :: (fill ++ [.leaf q (.ident ident)]), ?_, ?_⟩
              · rw [hrest]
                simp
              · intro more
                rw [List.cons_append, List.append_assoc, declaredName?, if_pos hsign,
                  skipFiller_append_of_filler hfill]
                rfl
          · cases h
      · cases h
  · next p ident rest' =>
      split at h
      · next hsign =>
          cases h
          exact ⟨[.leaf p (.atKeyword ident)], rfl, fun more => by
            rw [List.singleton_append, declaredName?, if_pos hsign]⟩
      · cases h
  · cases h

theorem eq_of_isLiteral {text : List Char} {node : Node} (h : node.isLiteral text = true) :
    ∃ p, node = .leaf p (.literal text) := by
  cases node with
  | leaf p leaf =>
      rw [Node.isLiteral, decide_eq_true_eq] at h
      cases h
      exact ⟨p, rfl⟩
  | function p name arguments => cases h
  | block p bracket content => cases h

/-- The parts of a declaration: what declares its name, a colon and its value. -/
theorem exists_of_declaration? {dialect : Dialect} {current : List Node} {line : Nat}
    {d : Declaration} (h : declaration? dialect current line = some d) :
    (∃ front p, skipFiller current = front ++ .leaf p (.literal [':']) :: d.nodes ∧
      ∃ filler, hasContent filler = false ∧ declaredName? dialect front = some (d.name, filler)) ∧
    (∀ node ∈ (skipFiller d.nodes).head?, node.position = d.position) ∧ d.endLine = line := by
  rw [declaration?, Option.bind_eq_bind, Option.bind_eq_some_iff] at h
  obtain ⟨⟨name, rest⟩, hname, h⟩ := h
  obtain ⟨front, hfront, hdeclares⟩ := exists_of_declaredName? hname
  obtain ⟨filler, hfiller, hrest⟩ := exists_fill rest
  dsimp only at h
  split at h
  · next colon value hskip =>
      split at h
      · next hcolon =>
          obtain ⟨p, rfl⟩ := eq_of_isLiteral hcolon
          rw [Option.bind_eq_bind, Option.bind_eq_some_iff] at h
          obtain ⟨anchor, hanchor, hd⟩ := h
          cases hd
          refine ⟨⟨front ++ filler, p, ?_, filler, hfiller, hdeclares filler⟩, ?_, rfl⟩
          · rw [hfront, hrest, hskip, List.append_assoc]
          · intro node hnode
            rw [Option.mem_def.mp hnode] at hanchor
            cases hanchor
            rfl
      · cases h
  · cases h

/-- The value of a declaration begins behind its leading blanks and comments. -/
theorem exists_begins {d : Declaration} {w x : Point} {value : List Char}
    (hvalue : Spans w d.nodes x) (hvalueText : w.Leads value x) (hstops : Stops x.text)
    (hposition : ∀ node ∈ (skipFiller d.nodes).head?, node.position = d.position)
    (hcontent : d.value ≠ []) :
    ∃ fill rest, value = fill ++ rest ∧ d.position = w.position.after fill ∧
      skipFiller d.nodes = parseAt d.position rest := by
  obtain ⟨fillers, -, hnodes⟩ := exists_fill d.nodes
  cases hskip : skipFiller d.nodes with
  | nil =>
      exact absurd (value_eq_nil_of_spans hvalue (hasContent_eq_false_iff.mpr hskip)) hcontent
  | cons node more =>
      rw [hskip] at hnodes hposition
      rw [hnodes] at hvalue
      obtain ⟨y, hfill, hrest⟩ := Css.spans_append.mp hvalue
      obtain ⟨fill, hfillText⟩ := hfill.leads
      obtain ⟨rest, hrestText⟩ := hrest.leads
      have hnode : d.position = y.position := by
        rw [← hposition node rfl, hrest.position_eq]
      refine ⟨fill, rest, hvalueText.unique (hfillText.trans hrestText), ?_, ?_⟩
      · rw [hnode, hfillText.position]
      · rw [hnode, hrest.parseAt_eq hrestText hstops]

/-- A declaration ends on the line of its semicolon, or on that of its last node. -/
theorem exists_ends {current front : List Node} {p : Position} {d : Declaration} {v x : Point}
    {before value : List Char} (hparts : skipFiller current = front ++ .leaf p (.literal [':']) ::
      d.nodes)
    (hbefore : v.position = Position.start.after before)
    (hvalue : Spans v (.leaf p (.literal [':']) :: d.nodes) x)
    (hvalueText : v.Leads (':' :: value) x)
    (hstops : Stops x.text) (hline : EndsOn current x d.endLine) :
    ∃ upto rest, ':' :: value = upto ++ rest ∧
      d.endLine = (Position.start.after (before ++ upto)).line ∧
      if x.text.head? = some ';' then rest = []
      else ∃ last, parseAt (Position.start.after (before ++ upto)) rest = [last] := by
  have hplace : ∀ {upto z}, v.Leads upto z →
      z.position = Position.start.after (before ++ upto) := by
    intro upto z hupto
    rw [hupto.position, hbefore, Css.Position.after_append]
  rw [EndsOn] at hline
  split at hline
  · next hsemicolon =>
      refine ⟨':' :: value, [], (List.append_nil _).symm, ?_, ?_⟩
      · rw [hline, hplace hvalueText]
      · rw [if_pos hsemicolon]
  · next hsemicolon =>
      obtain ⟨last, hlast, hendLine⟩ := hline
      obtain ⟨fill, -, hfill⟩ := exists_fill current
      rw [hfill, hparts, ← List.append_assoc, List.getLast?_append_cons] at hlast
      obtain ⟨z, upto, rest, hupto, hrest, hread, hposition⟩ := hvalue.exists_last hlast hstops
      refine ⟨upto, rest, hvalueText.unique (hupto.trans hrest), ?_, ?_⟩
      · rw [hendLine, hposition, hplace hupto]
      · rw [if_neg hsemicolon, ← hplace hupto]
        exact ⟨last, hread⟩

theorem Begun.declaration {dialect : Dialect} {source : List Char} {current : List Node} {x : Point}
    {line : Nat} {d : Declaration} (h : Begun source current x) (hends : EndsStatement x.text)
    (hline : EndsOn current x line) (hd : declaration? dialect current line = some d) :
    ∃ before name value after, DeclarationAt dialect source d before name value after ∧
      Extent d before name value after := by
  obtain ⟨⟨front, p, hparts, hdeclares⟩, hanchor, rfl⟩ := exists_of_declaration? hd
  obtain ⟨u, ⟨before, hbefore⟩, hcore⟩ := h.core
  rw [hparts, Css.spans_append] at hcore
  obtain ⟨v, hfront, hrest⟩ := hcore
  obtain ⟨w, hcolon, hvalue⟩ := Css.spans_literal hrest
  obtain ⟨name, hname⟩ := hfront.leads
  obtain ⟨value, hvalueText⟩ := hvalue.leads
  have hstop : Stops v.text := by
    rw [hcolon.text]
    exact Css.stops_cons.mpr (by decide)
  have hposition : w.position = valueStart before name :=
    ((hbefore.trans hname).trans hcolon).position
  refine ⟨before, name, value, x.text, ⟨?_, ?_, ?_, hends, ?_⟩, ?_, ?_⟩
  · have htext := hbefore.text
    rw [hname.text, hcolon.text, hvalueText.text] at htext
    exact htext
  · rw [← hbefore.position, hfront.parseAt_eq hname hstop]
    exact hdeclares
  · rw [← hposition, hvalue.parseAt_eq hvalueText hends.stops]
  · intro hne
    rw [← hposition]
    exact ⟨_, _, hvalue.closed_piece hvalueText hends.stops hne⟩
  · intro hcontent
    rw [← hposition]
    exact exists_begins hvalue hvalueText hends.stops hanchor hcontent
  · exact exists_ends hparts (hbefore.trans hname).position hrest (hcolon.trans hvalueText)
      hends.stops hline

/-- Where a block can end: before its closing brace, or with the text. -/
def EndsBlock (after : List Char) : Prop :=
  ∀ c ∈ after.head?, c = '\x7d'

theorem EndsBlock.endsStatement {after : List Char} (h : EndsBlock after) : EndsStatement after :=
  fun c hc => .inr (h c hc)

/-- What stands in a block ends there. -/
theorem endsBlock_of_closes {w z : Point} {nodes : List Node}
    (h : (∃ v, w.Leads [Css.Bracket.curly.closing] v ∧ Spans v nodes z) ∨
      w.text = [] ∧ nodes = [] ∧ z = w) : EndsBlock w.text := by
  rcases h with ⟨v, hclosing, -⟩ | ⟨hnil, -, -⟩
  · rw [hclosing.text]
    intro c hc
    exact (Option.some.inj hc).symm
  · rw [hnil]
    exact nofun

theorem Begun.rule {source : List Char} {current content nodes : List Node} {x z : Point}
    {p : Position} (h : Begun source current x)
    (hblock : Spans x (.block p .curly content :: nodes) z) :
    ∃ before head body after, RuleAt source current content before head body after := by
  obtain ⟨u, ⟨before, hbefore⟩, hcore⟩ := h.core
  obtain ⟨y, w, hopen, hcontent, hclose⟩ := Css.spans_block hblock
  obtain ⟨head, hhead⟩ := hcore.leads
  obtain ⟨body, hbody⟩ := hcontent.leads
  have hstop : Stops x.text := by
    rw [hopen.text]
    exact Css.stops_cons.mpr (by decide)
  have hcloses : EndsBlock w.text := endsBlock_of_closes hclose
  have hends := hcloses.endsStatement
  have hposition : y.position = bodyStart before head :=
    ((hbefore.trans hhead).trans hopen).position
  refine ⟨before, head, body, w.text, ?_, h.blanks, ?_, ?_, ?_, hcloses, ?_⟩
  · have htext := hbefore.text
    rw [hhead.text, hopen.text, hbody.text] at htext
    exact htext
  · rw [← hbefore.position, hcore.parseAt_eq hhead hstop]
  · rw [← hbefore.position]
    refine ⟨_, _, hcore.closed_piece hhead hstop ?_⟩
    rw [hopen.text]
    exact List.cons_ne_nil _ _
  · rw [← hposition, hcontent.parseAt_eq hbody hends.stops]
  · intro hne
    rw [← hposition]
    exact ⟨_, _, hcontent.closed_piece hbody hends.stops hne⟩

/-! ## The statements of a block -/

/-- What a statement was made of when the split arrived at a point of the text. -/
inductive Traced (dialect : Dialect) (source : List Char) : Statement → Prop
  | comment {x y : Point} {p : Position} {text : List Char} (hx : x.On source)
      (h : Spans x [.leaf p (.comment text)] y) : Traced dialect source (.comment text p.line)
  | declaration {x : Point} {current : List Node} {line : Nat} {d : Declaration}
      (h : Begun source current x) (hends : EndsStatement x.text) (hline : EndsOn current x line)
      (hd : declaration? dialect current line = some d) : Traced dialect source (.declaration d)
  | rule {x z : Point} {p : Position} {current content nodes : List Node} {inner : List Statement}
      (h : Begun source current x) (hblock : Spans x (.block p .curly content :: nodes) z) :
      Traced dialect source (.rule current content inner)

/-- **Every statement of a block is traced to the text**, at any depth. -/
theorem traced_of_holds {dialect : Dialect} {source : List Char} {s : Statement}
    {current nodes : List Node} {x z : Point} (hbegun : Begun source current x)
    (hnodes : Spans x nodes z) (hends : EndsBlock z.text)
    (h : Holds s (statementsFrom dialect current nodes)) : Traced dialect source s := by
  induction current, nodes using statementsFrom.induct dialect generalizing x z with
  | case1 current hcontent =>
      rw [statementsFrom, if_pos hcontent] at h
      cases hnodes
      -- what is left at the end of a block is a declaration without a semicolon
      obtain ⟨d, hd, rfl⟩ := holds_declaration.mp h
      obtain ⟨last, hlast, hd⟩ := Option.bind_eq_some_iff.mp hd
      refine .declaration hbegun hends.endsStatement ?_ hd
      rw [EndsOn, if_neg fun hsemicolon => by cases hends _ hsemicolon]
      exact ⟨last, hlast, rfl⟩
  | case2 current hcontent =>
      rw [statementsFrom, if_neg hcontent] at h
      have hnone : ¬ Holds s ((none : Option Declaration).map Statement.declaration).toList := by
        intro h
        obtain ⟨d, hd, -⟩ := holds_declaration.mp h
        cases hd
      exact absurd h hnone
  | case3 current p comment nodes hcontent ih =>
      rw [statementsFrom, if_pos hcontent] at h
      obtain ⟨y, hnode, hrest⟩ := Css.spans_cons.mp hnodes
      exact ih (hbegun.push hnode (.inl hcontent)) hrest hends h
  | case4 current p comment nodes hcontent ih =>
      rw [statementsFrom, if_neg hcontent, holds_cons, holds_comment] at h
      obtain ⟨y, hnode, hrest⟩ := Css.spans_cons.mp hnodes
      rcases h with rfl | hlater
      · exact .comment hbegun.on hnode
      · exact ih (hbegun.pass (eq_false_of_ne_true hcontent) hnode) hrest hends hlater
  | case5 current p nodes ih =>
      rw [statementsFrom, holds_append] at h
      obtain ⟨y, hsemicolon, hrest⟩ := Css.spans_literal hnodes
      rcases h with hhere | hlater
      · obtain ⟨d, hd, rfl⟩ := holds_declaration.mp hhere
        refine .declaration hbegun ?_ ?_ hd
        · rw [hsemicolon.text]
          intro c hc
          exact .inl (Option.some.inj hc).symm
        · rw [EndsOn, if_pos (by rw [hsemicolon.text]; rfl), ← hnodes.position_eq]
          rfl
      · exact ih (.start (hbegun.on.leads hsemicolon)) hrest hends hlater
  | case6 current p leaf nodes hcomment hsemicolon ih =>
      rw [statementsFrom] at h
      · obtain ⟨y, hnode, hrest⟩ := Css.spans_cons.mp hnodes
        refine ih (hbegun.push hnode (.inr ?_)) hrest hends h
        cases leaf with
        | comment text => exact absurd rfl (hcomment text)
        | _ => rfl
      · exact hcomment
      · exact hsemicolon
  | case7 current p name arguments nodes ih =>
      rw [statementsFrom] at h
      obtain ⟨y, hnode, hrest⟩ := Css.spans_cons.mp hnodes
      exact ih (hbegun.push hnode (.inr rfl)) hrest hends h
  | case8 current p bracket content nodes hrule ihcontent ih =>
      rw [statementsFrom, if_pos hrule, holds_cons, holds_rule] at h
      rw [Bool.and_eq_true, decide_eq_true_eq] at hrule
      obtain ⟨rfl, -⟩ := hrule
      rcases h with (rfl | hinner) | hlater
      · exact .rule hbegun hnodes
      · -- the block's statements end at its closing brace, or with the text
        obtain ⟨y, w, hopen, hcontent, hclose⟩ := Css.spans_block hnodes
        exact ihcontent (.start (hbegun.on.leads hopen)) hcontent
          (endsBlock_of_closes hclose) hinner
      · obtain ⟨y, hnode, hrest⟩ := Css.spans_cons.mp hnodes
        exact ih (.start (hnode.on hbegun.on)) hrest hends hlater
  | case9 current p bracket content nodes hrule ih =>
      rw [statementsFrom, if_neg hrule] at h
      obtain ⟨y, hnode, hrest⟩ := Css.spans_cons.mp hnodes
      exact ih (hbegun.push hnode (.inr rfl)) hrest hends h

/-- So it stands somewhere in the text. -/
theorem Traced.located {dialect : Dialect} {source : List Char} {s : Statement}
    (h : Traced dialect source s) : Located dialect source s := by
  cases h with
  | comment hx h => trivial
  | declaration h hends hline hd =>
      obtain ⟨before, name, value, after, hplace, -⟩ := h.declaration hends hline hd
      exact ⟨before, name, value, after, hplace⟩
  | rule h hblock => exact h.rule hblock

end TokenCatalog.Stylesheet
