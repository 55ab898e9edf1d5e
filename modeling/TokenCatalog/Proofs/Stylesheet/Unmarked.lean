import TokenCatalog.Extraction.Parser
import TokenCatalog.Proofs.Css.Comment
import TokenCatalog.Proofs.Stylesheet.Holds
import TokenCatalog.Proofs.Stylesheet.LexicalScope
import TokenCatalog.Proofs.Stylesheet.Rewritten

/-!
# Stylesheets without a marker

Between the text of a file and the comment that is read as a marker stand four rewritings: line
comments become block comments, line ends become uniform, the text becomes a tree, and the lines of
a comment lose their decoration. None of them brings the opening word about. Main statements:

* `openWord_of_readMarker`: a comment that opens a scope holds the opening word;
* `openWord_of_comment`: so does then the text of the stylesheet, as it is in the file;
* `sitesFrom_outside`: without a marker that opens a scope every declaration is outside all scopes;
* `tokens_of_unmarked`: a stylesheet whose text lacks the opening word has no tokens.
-/

namespace TokenCatalog.Stylesheet

open TokenCatalog.Css (Node Position Within)

/-! ## Line comments -/

/-- What is written where a line comment becomes a block comment. -/
def commentMarks : List Char := ['*', '/', ' ', '\n']

theorem Region.step_writes (region : Region) (c : Char) :
    (region.step c).1 = [c] ∨ (region.step c).1 ≠ [] ∧ (region.step c).1 ⊆ commentMarks := by
  have hmarks : ∀ d ds, (d :: ds).all commentMarks.contains = true →
      d :: ds ≠ [] ∧ d :: ds ⊆ commentMarks := by
    intro d ds h
    refine ⟨List.cons_ne_nil d ds, fun e he => ?_⟩
    exact List.contains_iff_mem.mp (List.all_eq_true.mp h e he)
  rcases region.step_cases c with hsame | ⟨-, hstep⟩ | ⟨-, -, hstep⟩ | ⟨-, -, hstep⟩
  · exact .inl hsame
  all_goals
    rw [hstep]
    exact .inr (hmarks _ _ rfl)

/-- Turning line comments into block comments writes only marks. -/
theorem blockCommentsFrom_retouched {letter : Char → Bool}
    (hmarks : commentMarks.all (!letter ·) = true) (region : Region) (cs : List Char) :
    Text.Retouched letter (blockCommentsFrom region cs) cs := by
  have hnone : ∀ c ∈ commentMarks, letter c = false := by simpa using hmarks
  induction cs generalizing region with
  | nil =>
      have hstar : letter '*' = false := hnone '*' (by decide)
      have hslash : letter '/' = false := hnone '/' (by decide)
      cases region with
      | line => exact .mark hstar [] (.mark hslash [] .nil)
      | lineStar => exact .mark hstar [] (.mark hslash [] .nil)
      | _ => exact .nil
  | cons c cs ih =>
      rw [blockCommentsFrom]
      rcases region.step_writes c with hsame | ⟨hne, hwritten⟩
      · rw [hsame]
        exact (ih _).same c
      · exact (ih _).write (fun d hd => hnone d (hwritten hd)) hne [c]

/-! ## Markers -/

theorem plainLine_isInfix (line : List Char) : plainLine line <:+: line :=
  (Text.strip_isInfix _).trans
    ((List.dropWhile_suffix _).isInfix.trans (Text.strip_isInfix line))

theorem openWord_of_label? {line label : List Char} (h : label? line = some label) :
    openWord <+: line := by
  rw [label?, Option.bind_eq_bind, Option.bind_eq_some_iff] at h
  obtain ⟨rest, hafter, -⟩ := h
  exact ⟨rest, (Text.after?_eq_some_iff.mp hafter).symm⟩

/-- **A comment that opens a scope holds the opening word.** -/
theorem openWord_of_readMarker {comment : List Char} {scope : Scope}
    (h : readMarker comment = some (.opens scope)) : openWord <:+: comment := by
  unfold readMarker at h
  dsimp only at h
  split at h
  · cases h
  · obtain ⟨label, hlabel, -⟩ := Option.map_eq_some_iff.mp h
    obtain ⟨plain, hplain, hline⟩ := List.exists_of_findSome?_eq_some hlabel
    obtain ⟨line, hmem, rfl⟩ := List.mem_map.mp (List.mem_filter.mp hplain).1
    exact (openWord_of_label? hline).isInfix.trans
      ((plainLine_isInfix line).trans (Text.infix_of_mem_lines hmem))

/-! ## Comments between statements -/

theorem within_of_tail {first : Node} {nodes : List Node} {text : List Char}
    (h : ∃ p, Within (.leaf p (.comment text)) nodes) :
    ∃ p, Within (.leaf p (.comment text)) (first :: nodes) := by
  obtain ⟨p, hp⟩ := h
  exact ⟨p, hp.mono (List.subset_cons_self _ _)⟩

/-- Every comment between statements is a node, wherever its block stands. -/
theorem within_of_holds {dialect : Dialect} {text : List Char} {line : Nat}
    {current nodes : List Node}
    (h : Holds (.comment text line) (statementsFrom dialect current nodes)) :
    ∃ p, Within (.leaf p (.comment text)) nodes := by
  have hdeclared : ∀ declared : Option Declaration,
      ¬ Holds (.comment text line) (declared.map Statement.declaration).toList := by
    intro declared h
    obtain ⟨d, -, hd⟩ := holds_declaration.mp h
    cases hd
  induction current, nodes using statementsFrom.induct dialect with
  | case1 current hcontent =>
      rw [statementsFrom, if_pos hcontent] at h
      exact absurd h (hdeclared _)
  | case2 current hcontent =>
      rw [statementsFrom, if_neg hcontent] at h
      exact absurd h (hdeclared none)
  | case3 current p comment nodes hcontent ih =>
      rw [statementsFrom, if_pos hcontent] at h
      exact within_of_tail (ih h)
  | case4 current p comment nodes hcontent ih =>
      rw [statementsFrom, if_neg hcontent, holds_cons, holds_comment] at h
      rcases h with hhere | hlater
      · cases hhere
        exact ⟨p, .here List.mem_cons_self⟩
      · exact within_of_tail (ih hlater)
  | case5 current p nodes ih =>
      rw [statementsFrom, holds_append] at h
      exact within_of_tail (ih (h.resolve_left (hdeclared _)))
  | case6 current p leaf nodes hcomment hsemicolon ih =>
      rw [statementsFrom] at h
      · exact within_of_tail (ih h)
      · exact hcomment
      · exact hsemicolon
  | case7 current p name arguments nodes ih =>
      rw [statementsFrom] at h
      exact within_of_tail (ih h)
  | case8 current p bracket content nodes hrule ihcontent ih =>
      rw [statementsFrom, if_pos hrule, holds_cons, holds_rule] at h
      -- the statements of the rule's block come from the nodes of that block
      rcases h with (hhere | hinner) | hlater
      · cases hhere
      · obtain ⟨q, hq⟩ := ihcontent hinner
        exact ⟨q, .content List.mem_cons_self hq⟩
      · exact within_of_tail (ih hlater)
  | case9 current p bracket content nodes hrule ih =>
      rw [statementsFrom, if_neg hrule] at h
      exact within_of_tail (ih h)

/-- **A comment between statements is a piece of the file's text**, as far as a word goes that the
rewritings of the text do not write. -/
theorem openWord_of_comment {dialect : Dialect} {text comment : List Char} {line : Nat}
    (hsound : Css.firstFault? (nodesOf dialect text) = none)
    (h : Holds (.comment comment line) (statements dialect (nodesOf dialect text)))
    (hword : openWord <:+: comment) : openWord <:+: text := by
  obtain ⟨p, hp⟩ := within_of_holds h
  have hletters : ∀ c ∈ openWord, openWord.contains c = true :=
    fun c hc => List.contains_iff_mem.mpr hc
  have huniform := (hword.trans (Css.comment_isInfix hsound hp))
  have hconverted := (Css.uniform_retouched (by decide) (by decide) _).contains hletters huniform
  split at hconverted
  · exact (blockCommentsFrom_retouched (by decide) _ _).contains hletters hconverted
  · exact hconverted

/-! ## Scopes -/

/-- No comment of a block, at any depth, opens a scope. -/
def Unmarked (block : List Statement) : Prop :=
  ∀ text line scope, Holds (.comment text line) block → readMarker text ≠ some (.opens scope)

theorem Unmarked.of_append {xs ys : List Statement} (h : Unmarked (xs ++ ys)) :
    Unmarked xs ∧ Unmarked ys :=
  ⟨fun text line scope htext => h text line scope (holds_append.mpr (.inl htext)),
    fun text line scope htext => h text line scope (holds_append.mpr (.inr htext))⟩

theorem Unmarked.inner {block inner : List Statement} {head body : List Node}
    (h : Unmarked block) (hmem : .rule head body inner ∈ block) : Unmarked inner :=
  fun text line scope htext => h text line scope (.inside hmem htext)

/-- What marks a place in a block is a comment of the block. -/
theorem exists_of_lastMarker? {before after : List Statement} {marker : Marker}
    (h : lastMarker? before = some (marker, after)) :
    ∃ text line, .comment text line ∈ before ∧ readMarker text = some marker := by
  induction before with
  | nil => cases h
  | cons s rest ih =>
      rw [lastMarker?] at h
      cases hrest : lastMarker? rest with
      | some found =>
          rw [hrest] at h
          cases h
          obtain ⟨text, line, hmem, hmarker⟩ := ih hrest
          exact ⟨text, line, List.mem_cons_of_mem s hmem, hmarker⟩
      | none =>
          rw [hrest] at h
          cases s with
          | comment text line =>
              obtain ⟨found, hfound, heq⟩ := Option.map_eq_some_iff.mp h
              cases heq
              exact ⟨text, line, List.mem_cons_self, hfound⟩
          | declaration d => cases h
          | rule head body inner => cases h

/-- Without a marker that opens a scope, whatever marks a place closes one. -/
theorem Unmarked.scope?_eq_none {before after : List Statement} {marker : Marker}
    (h : Unmarked before) (hmarker : lastMarker? before = some (marker, after)) :
    marker.scope? after = none := by
  obtain ⟨text, line, hmem, hread⟩ := exists_of_lastMarker? hmarker
  cases marker with
  | opens scope => exact absurd hread (h text line scope (.here hmem))
  | closes => rfl

theorem Unmarked.scopeAt_eq_none {before : List Statement} (h : Unmarked before) :
    scopeAt none before = none := by
  rw [scopeAt]
  split
  · next hmarker => exact h.scope?_eq_none hmarker
  · rfl

theorem Unmarked.ruleScope_eq_none {before : List Statement} (h : Unmarked before) :
    ruleScope none before = none := by
  rw [ruleScope]
  split
  · next hmarker =>
      rw [lastMarker?_recentComments] at hmarker
      exact h.scope?_eq_none (Option.filter_eq_some_iff.mp hmarker).1
  · rfl

/-- **Without a marker that opens a scope every declaration is outside all scopes**, at any
depth. -/
theorem sitesFrom_outside {selector : List Char} {entry : Option Scope}
    {before block : List Statement} (hentry : entry = none) (h : Unmarked (before ++ block))
    {site : Site} (hsite : site ∈ sitesFrom selector entry before block) : site.scope = none := by
  induction selector, entry, before, block using sitesFrom.induct with
  | case1 selector entry before =>
      rw [sitesFrom] at hsite
      cases hsite
  | case2 selector entry before text line rest ih =>
      rw [sitesFrom] at hsite
      exact ih hentry (by simpa using h) hsite
  | case3 selector entry before d rest ih =>
      rw [sitesFrom] at hsite
      rcases List.mem_cons.mp hsite with rfl | hlater
      · rw [hentry]
        exact h.of_append.1.scopeAt_eq_none
      · exact ih hentry (by simpa using h) hlater
  | case4 selector entry before head body inner rest ihinner ih =>
      rw [sitesFrom] at hsite
      rcases List.mem_append.mp hsite with hinside | hlater
      · split at hinside
        · cases hinside
        · have hinner : Unmarked inner := h.inner (List.mem_append_right _ List.mem_cons_self)
          rw [hentry] at hinside ihinner
          exact ihinner h.of_append.1.ruleScope_eq_none hinner hinside
      · exact ih hentry (by simpa using h) hlater

/-! ## The whole stylesheet -/

theorem unmarked_of_text {dialect : Dialect} {text : List Char}
    (hsound : Css.firstFault? (nodesOf dialect text) = none) (h : ¬ openWord <:+: text) :
    Unmarked (statements dialect (nodesOf dialect text)) :=
  fun _ _ _ hcomment hread =>
    h (openWord_of_comment hsound hcomment (openWord_of_readMarker hread))

theorem tokenAt?_eq_none {dialect : Dialect} {filename : String} {judged : Site × Classified}
    (h : judged.1.scope = none) : tokenAt? dialect filename judged = none := by
  rw [tokenAt?, h]
  rfl

/-- **A stylesheet whose text lacks the opening word has no tokens.** -/
theorem tokens_of_unmarked {dialect : Dialect} {filename : String} {text : List Char}
    {found : Findings} (h : ¬ openWord <:+: text)
    (hfound : findings dialect filename text = .ok found) : found.tokens = [] := by
  have hsound := sound_of_findings hfound
  have hunmarked := unmarked_of_text hsound h
  obtain ⟨judged, hsites, htokens, -⟩ := exists_judged_of_findings hsound hfound
  have hnone : judged.filterMap (tokenAt? dialect filename) = [] := by
    refine List.filterMap_eq_nil_iff.mpr fun here hhere => tokenAt?_eq_none ?_
    have hsite := List.mem_map_of_mem (f := Prod.fst) hhere
    rw [hsites] at hsite
    exact sitesFrom_outside rfl hunmarked (List.mem_filter.mp hsite).1
  rw [hnone] at htokens
  exact List.map_eq_nil_iff.mp htokens

/-- So a file without the opening word in its text contributes no group of tokens. -/
theorem tokenGroups_of_unmarked {dialect : Dialect} {file : SourceFile} {found : Extraction}
    (h : ∀ text, file.text = .ok text → ¬ openWord <:+: text)
    (hfound : parseFile dialect file = .ok found) : found.tokenGroups = [] := by
  unfold parseFile at hfound
  split at hfound
  · cases hfound
  · next text htext =>
      obtain ⟨found', hfindings, rfl⟩ := exists_of_map_eq_ok hfound
      rw [Findings.toExtraction, tokens_of_unmarked (h text htext) hfindings]
      rfl

theorem extract_of_unmarked [Image.Decoder] {dialect : Dialect} {file : SourceFile}
    (h : ∀ text, file.text = .ok text → ¬ openWord <:+: text) :
    ((Parser.stylesheets dialect).extract file).tokenGroups = [] := by
  unfold Parser.extract
  split
  · next found hfound => exact tokenGroups_of_unmarked h (eq_ok_of_mapError hfound)
  · rfl

end TokenCatalog.Stylesheet
