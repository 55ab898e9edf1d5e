import TokenCatalog.Proofs.Css.Comment
import TokenCatalog.Proofs.Stylesheet.Reported
import TokenCatalog.Proofs.Stylesheet.Rewritten

/-!
# Places of statements in the file

Where literals stand, and on which lines declarations end and comments begin, is said of the text
that is read. Each such place comes from a place of the file. Main statements:

* `placed_of_sound`: the lines of a statement are those of places in the text that is read;
* `origins_of_findings`: they and the places of literals are where the file has them, but for line
  comments that end in CR LF.
-/

namespace TokenCatalog.Stylesheet

open TokenCatalog.Css (Position uniform parseAt)

/-- The lines of a statement are those of places in a text. -/
def Placed (dialect : Dialect) (source : List Char) : Statement → Prop
  | .comment comment line => ∃ read rest, source = read ++ '/' :: '*' :: rest ∧
      comment = (Css.takeComment rest).1 ∧ line = (Position.start.after read).line
  | .declaration d => ∃ before name value after,
      DeclarationAt dialect source d before name value after ∧ Extent d before name value after
  | .rule _ _ _ => True

theorem Traced.placed {dialect : Dialect} {source : List Char} {s : Statement}
    (h : Traced dialect source s) : Placed dialect source s := by
  cases h with
  | rule => trivial
  | declaration h hends hline hd => exact h.declaration hends hline hd
  | comment hx h =>
      obtain ⟨read, hread⟩ := hx
      obtain ⟨c, cs, more, rfl, hscan, -⟩ := Css.spans_leaf h
      obtain ⟨rest, hrest, hcomment⟩ := Css.exists_of_scan_comment hscan
      refine ⟨read, rest, ?_, hcomment, congrArg Position.line hread.position⟩
      rw [← hrest]
      exact hread.text

theorem placed_of_sound {dialect : Dialect} {text : List Char}
    (hsound : Css.firstFault? (nodesOf dialect text) = none) {s : Statement}
    (h : Holds s (statements dialect (nodesOf dialect text))) :
    Placed dialect (sourceOf dialect text) s :=
  (traced_of_sound hsound h).placed

/-- A literal is located at the value of its declaration. -/
theorem exists_declaration_of_literal {dialect : Dialect} {filename : String} {text : List Char}
    {found : Findings} (hfound : findings dialect filename text = .ok found)
    {literal : HardCodedValue} (h : literal ∈ found.hardCoded) :
    ∃ d, Holds (.declaration d) (statements dialect (nodesOf dialect text)) ∧ d.value ≠ [] ∧
      literal.property = .str (String.ofList d.name) ∧
      literal.value = .str (String.ofList d.value) ∧
      literal.location = ⟨.str filename, .int d.position.line, .int d.position.column⟩ := by
  obtain ⟨judged, hsites, -, hliterals⟩ :=
    exists_judged_of_findings (sound_of_findings hfound) hfound
  rw [hliterals, List.mem_filterMap] at h
  obtain ⟨⟨site, c⟩, hjudged, hliteral⟩ := h
  have hsite : site ∈ sites dialect text := by
    rw [← hsites]
    exact List.mem_map_of_mem hjudged
  obtain ⟨hmem, hvalue⟩ := List.mem_filter.mp hsite
  rw [literalAt?] at hliteral
  split at hliteral
  · cases hliteral
    refine ⟨site.declaration, (mem_sitesFrom_iff.mp hmem).holds, ?_, rfl, rfl, rfl⟩
    intro hempty
    rw [Site.hasValue, hempty] at hvalue
    cases hvalue
  · cases hliteral

/-- **Rewriting line comments keeps every place**, but for the lines below a line comment that ends
in CR LF. In a dialect with line comments, the rewritten text has the line breaks of the text and
one more for each CR LF that is torn apart; a text without CR LF has none. A character outside line
comments, each of which ends with its line feed, is written as it is, in its column and on its line,
but for those breaks before it. Every place of the text that is read comes from a place of the file.
A literal is located where the value of its declaration begins, and declarations and comments have
the lines of places in the text that is read. Outside line comments places share a line there
exactly if they share one in the file, so that a comment describes the token that ends on its
line. -/
theorem origins_of_findings {dialect : Dialect} (hdialect : dialect.hasLineComments = true)
    (filename : String) (text : List Char) :
    ((uniform (withBlockComments text)).count '\n' = (uniform text).count '\n' + splitEnds text ∧
      (¬ ['\r', '\n'] <:+: text → ∀ before, before <+: text → splitEnds before = 0)) ∧
    (∀ before c after, text = before ++ c :: after → (regionAfter before).inLine = false →
      (regionAfter (before ++ [c])).inLine = false →
        (∃ rest, withBlockComments text = rewritten before ++ c :: rest) ∧
        placeAfter (rewritten before) =
          ⟨(placeAfter before).line + splitEnds before, (placeAfter before).column⟩) ∧
    (∀ read rest, sourceOf dialect text = read ++ rest → ∃ before, Origin text read before) ∧
    (∀ read read' before before', Origin text read before → Origin text read' before' →
      (regionAfter before).inLine = false → (regionAfter before').inLine = false →
        ((Position.start.after read).line = (Position.start.after read').line ↔
          (placeAfter before).line = (placeAfter before').line)) ∧
    ∀ found, findings dialect filename text = .ok found →
      (∀ s, Holds s (statements dialect (nodesOf dialect text)) →
        Placed dialect (sourceOf dialect text) s) ∧
      ∀ literal ∈ found.hardCoded, ∃ d before name value after fill rest origin,
        DeclarationAt dialect (sourceOf dialect text) d before name value after ∧
        literal.property = .str (String.ofList d.name) ∧
        literal.value = .str (String.ofList d.value) ∧
        value = fill ++ rest ∧ skipFiller d.nodes = parseAt d.position rest ∧
        Origin text (before ++ name ++ ':' :: fill) origin ∧
        d.position = Position.start.after (before ++ name ++ ':' :: fill) ∧
        literal.location = ⟨.str filename,
          .int ((placeAfter origin).line + splitEnds origin : Nat), .int d.position.column⟩ ∧
        ((regionAfter origin).inLine = false → d.position.column = (placeAfter origin).column) := by
  have horigins : ∀ read rest, sourceOf dialect text = read ++ rest →
      ∃ before, Origin text read before := by
    intro read rest h
    rw [sourceOf, if_pos hdialect] at h
    exact exists_origin h
  refine ⟨⟨count_withBlockComments text, fun hcrlf before hpart => ?_⟩, ?_, horigins, ?_, ?_⟩
  · exact splitEndsFrom_eq_zero fun h => hcrlf (h.trans hpart.isInfix)
  · rintro before c after rfl hbefore hafter
    refine ⟨withBlockComments_of_outside hbefore hafter, ?_⟩
    rw [placeAfter_rewritten, added_eq_zero hbefore, Nat.add_zero]
  · intro read read' before before' h h' houtside houtside'
    exact h.line_eq_iff h' houtside houtside'
  · intro found hfound
    have hsound := sound_of_findings hfound
    refine ⟨fun s hs => placed_of_sound hsound hs, fun literal hliteral => ?_⟩
    obtain ⟨d, hholds, hvalue, hproperty, htext, hlocation⟩ :=
      exists_declaration_of_literal hfound hliteral
    obtain ⟨before, name, value, after, hplace, hextent⟩ := placed_of_sound hsound hholds
    obtain ⟨fill, rest, hsplit, hposition, hread⟩ := hextent.begins hvalue
    have hplace' : d.position = Position.start.after (before ++ name ++ ':' :: fill) := by
      rw [hposition, valueStart, ← Css.Position.after_append, List.append_assoc]
      rfl
    obtain ⟨origin, horigin⟩ := horigins (before ++ name ++ ':' :: fill) (rest ++ after)
      (by rw [hplace.text, hsplit]; simp)
    refine ⟨d, before, name, value, after, fill, rest, origin, hplace, hproperty, htext,
      hsplit, hread, horigin, hplace', ?_, fun houtside => ?_⟩
    · rw [hlocation, ← horigin.line, ← hplace']
    · rw [hplace']
      exact horigin.column houtside

/-- A line comment that ends in CR LF, and what follows it up to a literal. -/
def tornStart : List Char :=
  "// note\r\n.a \x7b color: ".toList

/-- The literal stands on the second line of the file and on the third of what is read. -/
theorem origins_of_findings_torn :
    scss.hasLineComments = true ∧
    (uniform (withBlockComments (tornStart ++ "red; \x7d".toList))).count '\n' =
      (uniform (tornStart ++ "red; \x7d".toList)).count '\n' + 1 ∧
    placeAfter tornStart = ⟨2, 13⟩ ∧ placeAfter (rewritten tornStart) = ⟨3, 13⟩ := by
  obtain ⟨⟨hcount, -⟩, hcharacters, -⟩ :=
    origins_of_findings (show scss.hasLineComments = true from rfl) "a.scss" (tornStart ++
      "red; \x7d".toList)
  have hplace := (hcharacters tornStart 'r' "ed; \x7d".toList rfl (by decide) (by decide)).2
  have hsplit : splitEnds tornStart = 1 := by decide
  have htext : splitEnds (tornStart ++ "red; \x7d".toList) = 1 := by decide
  have hstart : placeAfter tornStart = ⟨2, 13⟩ := by decide
  rw [hstart, hsplit] at hplace
  rw [htext] at hcount
  exact ⟨rfl, hcount, hstart, hplace⟩

end TokenCatalog.Stylesheet
