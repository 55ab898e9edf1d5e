import TokenCatalog.Proofs.Css.Uniform
import TokenCatalog.Proofs.Stylesheet.Keyframes
import TokenCatalog.Proofs.Stylesheet.Located
import TokenCatalog.Proofs.Text.Search

/-!
# Reported text and the text of the file

Values and keyframes are reported as their trees are written, not as they stand in the file. Main
statements:

* `exists_declarationAt` and `isKeyframesOf_walk`: every value comes from a declaration, and every
  entry of the keyframes from a rule, that stands in the text;
* `DeclarationAt.value_eq` and `RuleAt.ruleText_of_spelled`: the piece of the text itself is
  reported where it is spelled as its tree is written;
* `reported_of_sound`: both together, for all that is found in a stylesheet.
-/

namespace TokenCatalog.Stylesheet

open TokenCatalog.Css (Node Position Closed Spelled Faithful Plain parseAt)

/-! ## What is in the stylesheet -/

/-- The uniform text of a stylesheet, with block comments only. -/
def sourceOf (dialect : Dialect) (text : List Char) : List Char :=
  Css.uniform (if dialect.hasLineComments then withBlockComments text else text)

theorem Stands.holds {selector : List Char} {entry : Option Scope} {block : List Statement}
    {site : Site} (h : Stands selector entry block site) :
    Holds (.declaration site.declaration) block := by
  induction h with
  | here selector entry before after d =>
      exact .here (List.mem_append_right before List.mem_cons_self)
  | @inside selector entry before after inner head body site hkey h ih =>
      exact .inside (List.mem_append_right before List.mem_cons_self) ih

/-- Every statement of a stylesheet without faults is traced to its text. -/
theorem traced_of_sound {dialect : Dialect} {text : List Char}
    (hsound : Css.firstFault? (nodesOf dialect text) = none) {s : Statement}
    (h : Holds s (statements dialect (nodesOf dialect text))) :
    Traced dialect (sourceOf dialect text) s := by
  obtain ⟨q, hspans⟩ := Css.parse_spans hsound
  refine traced_of_holds (.start ?_) hspans nofun h
  exact ⟨[], .refl _⟩

theorem exists_declarationAt {dialect : Dialect} {text : List Char}
    (hsound : Css.firstFault? (nodesOf dialect text) = none) {site : Site}
    (h : site ∈ sites dialect text) : ∃ before name value after,
      DeclarationAt dialect (sourceOf dialect text) site.declaration before name value after := by
  have hstands := mem_sitesFrom_iff.mp (List.mem_filter.mp h).1
  exact (traced_of_sound hsound hstands.holds).located

/-! ## Keyframes -/

/-- An entry of the keyframes is a keyframes rule of a block, at some depth. -/
def IsKeyframesOf (block : List Statement) (entry : List Char) : Prop :=
  ∃ head body inner, Holds (.rule head body inner) block ∧ isKeyframes head = true ∧
    entry = ruleText head body

/-- The walk collects keyframes rules of the block and nothing else. -/
theorem isKeyframesOf_walk {place : Place} {outer : Option Scope} {w : Walk}
    {block : List Statement} {found : Findings} (h : walk place outer w block = .ok found)
    {entry : List Char} (hentry : entry ∈ found.keyframes) : IsKeyframesOf block entry := by
  have hnone : ([] : List (List Node)).any isKeyframes = false := rfl
  rw [walk_keyframes h hnone, collected] at hentry
  split at hentry
  · obtain ⟨r, hr, rfl⟩ := List.mem_map.mp hentry
    obtain ⟨hmem, houtermost⟩ := List.mem_filter.mp hr
    obtain ⟨inner, hholds⟩ := holds_of_mem_rulesFrom hmem
    rw [RuleSite.isOutermost, Bool.and_eq_true] at houtermost
    exact ⟨r.head, r.body, inner, hholds, houtermost.1, rfl⟩
  · cases hentry

/-- The text of a rule is that of its head and body as they stand in the text, read and written. -/
theorem RuleAt.ruleText_eq {source : List Char} {headNodes bodyNodes : List Node}
    {before head body after : List Char}
    (h : RuleAt source headNodes bodyNodes before head body after) :
    ruleText headNodes bodyNodes =
      Text.strip (Css.write (parseAt (Position.start.after before) head) ++ '\x7b' ::
        Css.write (parseAt (bodyStart before head) body) ++ ['\x7d']) := by
  obtain ⟨fill, hfill, hblanks⟩ := h.blanks
  obtain ⟨blanks, hall, hwrite⟩ := exists_write_of_blanks hblanks (skipFiller headNodes)
  rw [← hfill, h.heads] at hwrite
  rw [ruleText, hwrite, ← h.reads, List.append_assoc, List.append_assoc,
    Text.strip_append_of_blank hall, ← List.append_assoc]

/-! ## Tokens and literals -/

/-- The name under which a site is reported, and its text. -/
def Site.reported (dialect : Dialect) (s : Site) : Json × Json :=
  (.str (String.ofList (s.name dialect)), .str (String.ofList s.declaration.value))

theorem tokens_reported (dialect : Dialect) (filename : String)
    (judged : List (Site × Classified)) :
    (judged.filterMap (tokenAt? dialect filename)).map (fun t => (t.name, t.sourceValue)) =
      ((judged.map (·.1)).filter (·.scope.isSome)).map (Site.reported dialect) := by
  induction judged with
  | nil => rfl
  | cons here judged ih =>
      obtain ⟨⟨selector, scope, d⟩, c⟩ := here
      cases scope with
      | none => exact ih
      | some scope => exact congrArg (_ :: ·) ih

theorem literals_reported (dialect : Dialect) (filename : String)
    (judged : List (Site × Classified)) :
    ((judged.filterMap (literalAt? filename)).map fun l => (l.property, l.value)).Sublist
      (((judged.map (·.1)).filter (·.scope.isNone)).map (Site.reported dialect)) := by
  induction judged with
  | nil => exact .slnil
  | cons here judged ih =>
      obtain ⟨⟨selector, scope, d⟩, c⟩ := here
      cases scope with
      | some scope => exact ih
      | none =>
          cases hreport : c.isHardCoded with
          | true =>
              have hhere : (literalAt? filename (⟨selector, none, d⟩, c)).map
                  (fun l => (l.property, l.value)) =
                    some (Site.reported dialect ⟨selector, none, d⟩) := by
                rw [literalAt?, hreport]
                rfl
              obtain ⟨literal, hliteral, hvalue⟩ := Option.map_eq_some_iff.mp hhere
              rw [List.filterMap_cons_some hliteral, List.map_cons, hvalue]
              exact ih.cons_cons _
          | false =>
              have hhere : literalAt? filename (⟨selector, none, d⟩, c) = none := by
                rw [literalAt?, hreport]
                rfl
              rw [List.filterMap_cons_none hhere]
              exact ih.cons _

/-! ## The whole stylesheet -/

/-- A piece of the text of a stylesheet is faithful if it is plain. -/
theorem faithful_of_isInfix {dialect : Dialect} {text piece : List Char}
    (h : piece <:+: sourceOf dialect text) (hplain : Plain piece) : Faithful piece :=
  Css.faithful_of_plain hplain fun _ hc =>
    have hclean := Css.isClean_of_mem_uniform (h.subset hc)
    ⟨hclean.1, hclean.2.1⟩

/-- A value without comments is reported as it stands in the text, if it is spelled so. -/
theorem DeclarationAt.value_eq {dialect : Dialect} {source : List Char} {d : Declaration}
    {before name value after : List Char}
    (h : DeclarationAt dialect source d before name value after)
    (hcomment : ∀ node ∈ d.nodes, node.isComment = false)
    (hclosed : after = [] → Closed (valueStart before name) value)
    (hspelled : Spelled (valueStart before name) value) :
    d.value = Text.strip value := by
  have hkept : Css.withoutComments d.nodes = d.nodes := by
    refine List.filter_eq_self.mpr fun node hnode => ?_
    rw [hcomment node hnode]
    rfl
  have hvalue : Closed (valueStart before name) value := by
    by_cases hend : after = []
    · exact hclosed hend
    · exact h.closed hend
  rw [Declaration.value, hkept, h.reads, hspelled.write_eq hvalue]

/-- A rule that is closed is reported as it stands in the text, if it is spelled so. -/
theorem RuleAt.ruleText_of_spelled {source : List Char} {headNodes bodyNodes : List Node}
    {before head body after : List Char}
    (h : RuleAt source headNodes bodyNodes before head body after) (hclosed : after ≠ [])
    (hhead : Spelled (Position.start.after before) head)
    (hbody : Spelled (bodyStart before head) body) :
    ruleText headNodes bodyNodes = Text.strip (head ++ '\x7b' :: body ++ ['\x7d']) := by
  rw [h.ruleText_eq, hhead.write_eq h.headClosed, hbody.write_eq (h.closed hclosed)]

/-- **What is reported of a stylesheet is written from pieces of its text.** Without a fault in the
tree, the value of every declaration is the tree of the text between its colon and what ends it,
written without comments; the tokens carry the values of the declarations in a scope and the
literals values of others; and every entry of the keyframes is the tree of a rule, written. A value
without comments is the trimmed piece itself, and an entry the rule itself, where the piece is
closed and spelled as its tree is written: plain tokens are, unless two of them need to be kept
apart. -/
theorem reported_of_sound (dialect : Dialect) (filename : String) (text : List Char)
    (hsound : Css.firstFault? (nodesOf dialect text) = none) :
    (∀ site ∈ sites dialect text, ∃ before name value after,
      DeclarationAt dialect (sourceOf dialect text) site.declaration before name value after ∧
      site.declaration.value =
        Text.strip (Css.write (Css.withoutComments (parseAt (valueStart before name) value))) ∧
      ((∀ node ∈ site.declaration.nodes, node.isComment = false) →
        (after = [] → Closed (valueStart before name) value) →
        Spelled (valueStart before name) value →
        site.declaration.value = Text.strip value)) ∧
    (∀ found, findings dialect filename text = .ok found →
      found.tokens.map (fun t => (t.name, t.sourceValue)) =
        ((sites dialect text).filter (·.scope.isSome)).map (Site.reported dialect) ∧
      (found.hardCoded.map fun l => (l.property, l.value)).Sublist
        (((sites dialect text).filter (·.scope.isNone)).map (Site.reported dialect)) ∧
      ∀ entry ∈ found.keyframes, ∃ headNodes bodyNodes before head body after,
        isKeyframes headNodes = true ∧
        RuleAt (sourceOf dialect text) headNodes bodyNodes before head body after ∧
        entry = Text.strip (Css.write (parseAt (Position.start.after before) head) ++ '\x7b' ::
          Css.write (parseAt (bodyStart before head) body) ++ ['\x7d']) ∧
        (after ≠ [] → Spelled (Position.start.after before) head →
          Spelled (bodyStart before head) body →
          entry = Text.strip (head ++ '\x7b' :: body ++ ['\x7d']))) ∧
    ∀ piece, piece <:+: sourceOf dialect text → Plain piece → Faithful piece := by
  refine ⟨fun site hsite => ?_, fun found hfound => ?_, fun piece => faithful_of_isInfix⟩
  · obtain ⟨before, name, value, after, hplace⟩ := exists_declarationAt hsound hsite
    refine ⟨before, name, value, after, hplace, ?_, hplace.value_eq⟩
    rw [Declaration.value, hplace.reads]
  · obtain ⟨judged, hsites, htokens, hliterals⟩ := exists_judged_of_findings hsound hfound
    refine ⟨?_, ?_, fun entry hentry => ?_⟩
    · have hundescribed : found.tokens.map (fun t => (t.name, t.sourceValue)) =
          (found.tokens.map undescribed).map fun t => (t.name, t.sourceValue) := by
        rw [List.map_map]
        rfl
      rw [hundescribed, htokens, tokens_reported, hsites]
    · rw [hliterals, ← hsites]
      exact literals_reported dialect filename judged
    · rw [findings_eq_walk filename hsound] at hfound
      obtain ⟨headNodes, bodyNodes, inner, hholds, hkey, rfl⟩ :=
        isKeyframesOf_walk (eq_ok_of_mapError hfound) hentry
      obtain ⟨before, head, body, after, hplace⟩ := (traced_of_sound hsound hholds).located
      exact ⟨headNodes, bodyNodes, before, head, body, after, hkey, hplace, hplace.ruleText_eq,
        hplace.ruleText_of_spelled⟩

def escapedValue : List Char :=
  "a \x7b color: r\\65 d \x7d".toList

theorem reported_of_sound_escapedValue :
    Css.firstFault? (nodesOf css escapedValue) = none ∧
    ¬ "red".toList <:+: sourceOf css escapedValue ∧
    ∃ site ∈ sites css escapedValue, site.declaration.value = "red".toList ∧
      ∃ before name value after,
        DeclarationAt css (sourceOf css escapedValue) site.declaration before name value after ∧
        site.declaration.value =
          Text.strip (Css.write (Css.withoutComments
            (parseAt (valueStart before name) value))) := by
  have hsound : Css.firstFault? (nodesOf css escapedValue) = none := by decide +kernel
  have hvalues : (sites css escapedValue).map (·.declaration.value) = ["red".toList] := by
    decide +kernel
  obtain ⟨site, hsites, hvalue⟩ := List.map_eq_singleton_iff.mp hvalues
  have hsite : site ∈ sites css escapedValue := by
    rw [hsites]
    exact List.mem_cons_self
  obtain ⟨before, name, value, after, hplace, hwritten, -⟩ :=
    (reported_of_sound css "a.css" escapedValue hsound).1 site hsite
  exact ⟨hsound, by decide, site, hsite, hvalue, before, name, value, after, hplace, hwritten⟩

end TokenCatalog.Stylesheet
