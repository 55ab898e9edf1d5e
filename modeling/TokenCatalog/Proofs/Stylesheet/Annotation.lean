import TokenCatalog.Proofs.Stylesheet.Decoration

/-!
# The spellings of an annotation

A label and a name can be given in one block comment, on one line or on a line each, or in two line
comments. All spellings open the same scope, so it makes no difference to the tokens of a stylesheet
which of them stands in front of a declaration or a rule. Main statements:

* `Annotation`: the spellings, with what comments and blanks may stand in between and behind;
* `Annotation.exists_filler`: every spelling is read as comments that open the scope of label and
  name;
* `Between.refilled`: in the place of each other, comments between statements change nothing else;
* `annotation_forms_agree`: a stylesheet with one spelling in the place of another yields the same
  tokens, in the same scopes.
-/

namespace TokenCatalog.Stylesheet

open TokenCatalog.Css (uniform Nesting Position)
open TokenCatalog.Text (OnLine strip joinWith)

/-! ## Spellings -/

/-- A comment that marks nothing and names no presenter. -/
structure IsOrdinary (text : List Char) : Prop where
  marker : readMarker text = none
  presenter : presenter? text = none

/-- The spellings of an annotation with a label and a name, with blanks and ordinary comments behind
it. Between the lines of two line comments there may be some, too. -/
inductive Annotation (label name : List Char) : List Char → Prop
  | oneLine {tokens presenter feed more : List Char} {lines texts : List (List Char)} {opens : Bool}
      (htokens : GivesLabel label tokens) (hpresenter : GivesName name presenter)
      (hlines : Decorated [tokens ++ presenter] lines) (hfeed : IsLineEnd feed)
      (hmore : Filler false more texts opens) (hordinary : ∀ text ∈ texts, IsOrdinary text) :
      Annotation label name ('/' :: '*' :: (joinWith feed lines ++ '*' :: '/' :: more))
  | ownLines {tokens presenter feed more : List Char} {lines texts : List (List Char)}
      {opens : Bool}
      (htokens : GivesLabel label tokens) (hpresenter : GivesName name presenter)
      (hlines : Decorated [tokens, presenter] lines) (hfeed : IsLineEnd feed)
      (hmore : Filler false more texts opens) (hordinary : ∀ text ∈ texts, IsOrdinary text) :
      Annotation label name ('/' :: '*' :: (joinWith feed lines ++ '*' :: '/' :: more))
  | lineComments {gap gap' tokens presenter feed feed' between more : List Char}
      {texts texts' : List (List Char)} {opens : Bool}
      (hgap : IsGap gap) (htokens : GivesLabel label tokens) (hfeed : IsLineEnd feed)
      (hbetween : Filler true between texts true) (hordinary : ∀ text ∈ texts, IsOrdinary text)
      (hgap' : IsGap gap') (hpresenter : GivesName name presenter) (hfeed' : IsLineEnd feed')
      (hmore : Filler true more texts' opens) (hordinary' : ∀ text ∈ texts', IsOrdinary text) :
      Annotation label name
        ('/' :: '/' :: (gap ++ tokens ++ feed ++
          (between ++ '/' :: '/' :: (gap' ++ presenter ++ feed' ++ more))))

/-- The scope of a label and a name. -/
def scopeOf (label name : List Char) : Scope :=
  ⟨nonEmpty? (strip (uniform label)), some (String.ofList name)⟩

/-! ## Scopes that comments open -/

theorem AreComments.over_append {texts : List (List Char)} {marks : List Statement}
    (h : AreComments texts marks) (w : Walk) (rest : List Statement) :
    w.over (marks ++ rest) = (w.over marks).over rest := by
  induction h generalizing w with
  | nil => rfl
  | cons hmark _ ih =>
      obtain ⟨line, rfl⟩ := hmark
      exact ih (w.comment _ line)

theorem AreComments.exists_concat {texts : List (List Char)} {text : List Char}
    {marks : List Statement} (h : AreComments (texts ++ [text]) marks) :
    ∃ front line, marks = front ++ [.comment text line] ∧ AreComments texts front := by
  induction texts generalizing marks with
  | nil =>
      cases h with
      | cons hmark hrest =>
          obtain ⟨line, rfl⟩ := hmark
          cases hrest
          exact ⟨[], line, rfl, .nil⟩
  | cons first texts ih =>
      cases h with
      | @cons _ mark _ marks hmark hrest =>
          obtain ⟨front, line, rfl, hfront⟩ := ih hrest
          exact ⟨mark :: front, line, rfl, .cons hmark hfront⟩

section

variable {scope scope' : Scope} {texts more : List (List Char)} {text name : List Char}

theorem opensScope_of_marker (h : readMarker text = some (.opens scope)) :
    OpensScope scope [text] := by
  intro marks hmarks w
  cases hmarks with
  | cons hmark hrest =>
      obtain ⟨line, rfl⟩ := hmark
      cases hrest
      simp [Walk.over, Walk.comment, h]

/-- One more comment: what it makes of the scope is the scope that is open behind it. -/
theorem OpensScope.concat (h : OpensScope scope texts)
    (hstep : ∀ (w : Walk) (line : Nat), w.pending = some scope → w.active = some scope →
      (w.comment text line).active = some scope' ∧ (w.comment text line).pending = some scope') :
    OpensScope scope' (texts ++ [text]) := by
  intro marks hmarks w
  obtain ⟨front, line, rfl, hfront⟩ := hmarks.exists_concat
  obtain ⟨hactive, hpending⟩ := h front hfront w
  rw [hfront.over_append]
  exact hstep (w.over front) line hpending hactive

/-- A presenter's name goes on with the scope that is open. -/
theorem OpensScope.names (h : OpensScope scope texts) (hmarker : readMarker text = none)
    (hname : presenter? text = some name) :
    OpensScope { scope with presenter := some (String.ofList name) } (texts ++ [text]) := by
  refine h.concat fun w line hpending _ => ?_
  rw [Walk.comment, hmarker]
  rw [Walk.remark_presenter hpending hname]
  exact ⟨rfl, rfl⟩

/-- Ordinary comments leave the scope as it is. -/
theorem OpensScope.ordinary (h : OpensScope scope texts) (hmore : ∀ text ∈ more, IsOrdinary text) :
    OpensScope scope (texts ++ more) := by
  induction more generalizing texts with
  | nil => rwa [List.append_nil]
  | cons text more ih =>
      obtain ⟨htext, hmore⟩ := List.forall_mem_cons.mp hmore
      rw [List.append_cons]
      refine ih (h.concat fun w line hpending hactive => ?_) hmore
      rw [Walk.comment, htext.marker]
      obtain ⟨h1, h2⟩ := w.remark_scopes text line (.inr htext.presenter)
      exact ⟨h1.trans hactive, h2.trans hpending⟩

end

/-! ## Reading the spellings -/

section

variable {label name tokens presenter : List Char}

theorem GivesLabel.isContent (h : GivesLabel label tokens) (hlabel : IsLabel label) :
    IsContent tokens := by
  cases h with
  | intro hgap hne hgap' =>
      refine ⟨by rw [openWord_eq]; rfl,
        onLine_openWord.append (hgap.onLine.append (hlabel.onLine.append hgap'.onLine)), ?_⟩
      simp only [List.mem_append, not_or]
      exact ⟨by decide, hgap.unstarred, hlabel.unstarred, hgap'.unstarred⟩

theorem GivesName.isContent (h : GivesName name presenter) (hname : IsName name) :
    IsContent presenter := by
  cases h with
  | intro hgap hne hgap' =>
      have hgap := isGap_of_inline hgap
      refine ⟨by rw [presenterWord_eq]; rfl,
        onLine_presenterWord.append (hgap.onLine.append (hname.onLine.append hgap'.onLine)), ?_⟩
      simp only [List.mem_append, not_or]
      exact ⟨by decide, hgap.unstarred, hname.not_mem (by decide), hgap'.unstarred⟩

/-- The name that is given is found, whatever blanks stand behind it. -/
theorem GivesName.presenter? (h : GivesName name presenter) (hname : IsName name) {tail : List Char}
    (htail : ∀ c ∈ tail, Text.isBlank c = true) :
    Stylesheet.presenter? (presenter ++ tail) = some name := by
  cases h with
  | @intro gap gap' hgap hne hgap' =>
      have hend : (gap' ++ tail).head?.any Text.isWordOrHyphen = false := by
        cases hall : gap' ++ tail with
        | nil => rfl
        | cons c more =>
            have hblank : ∀ c ∈ gap' ++ tail, Text.isBlank c = true :=
              List.forall_mem_append.mpr ⟨hgap'.isBlank, htail⟩
            exact isWordOrHyphen_of_isBlank (hblank c (hall ▸ List.mem_cons_self))
      simpa only [List.append_assoc] using presenter?_presenterWord hgap hne hname hend

end

/-- What is read of a line comment. -/
theorem Filler.exists_line {body feed : List Char} (hbody : OnLine body) (hunstarred : '*' ∉ body)
    (hfeed : IsLineEnd feed) {cs : List Char} {texts : List (List Char)} {opens : Bool}
    (h : Filler true cs texts opens) :
    ∃ tail, (tail = [] ∨ tail = ['\n']) ∧
      Filler true ('/' :: '/' :: (body ++ feed ++ cs)) ((uniform body ++ tail) :: texts) opens := by
  have hline : '\n' ∉ body := fun hmem => absurd (hbody _ hmem) (by decide)
  rcases hfeed with rfl | rfl
  · have hread := Filler.line hline h
    have hwhole := broken_append hunstarred []
    rw [List.append_nil] at hwhole
    refine ⟨[], .inl rfl, ?_⟩
    rw [hwhole] at hread
    simpa [broken] using hread
  · have hcarriage : '\n' ∉ body ++ ['\r'] := by simpa using hline
    have hread := Filler.line hcarriage h
    refine ⟨['\n'], .inr rfl, ?_⟩
    have hreturn : uniform (broken ['\r']) = ['\n'] := by decide
    rw [broken_append hunstarred, uniform_onLine hbody, hreturn] at hread
    simpa using hread

/-- What a line comment says. -/
theorem plainLines_line {gap content tail : List Char} (hgap : IsGap gap)
    (hcontent : IsContent content) (htail : tail = [] ∨ tail = ['\n']) :
    plainLines (uniform (gap ++ content) ++ tail) = [strip (uniform content)] := by
  rcases htail with rfl | rfl
  · have hlines := (Decorated.content (.blanks hgap) hcontent .nil).plainLines_uniform (.inl rfl)
    simpa [joinWith] using hlines
  -- a line end stands in front of a line with nothing on it
  · have hnothing : Decoration [] := .blanks (by decide)
    have hlines := (Decorated.content (.blanks hgap) hcontent
        (.bare hnothing .nil)).plainLines_uniform
      (.inl rfl)
    have hjoin : joinWith ['\n'] [gap ++ content, []] = gap ++ content ++
        ['\n'] := by simp [joinWith]
    rw [hjoin, uniform_onLine (hgap.onLine.append hcontent.onLine)] at hlines
    exact hlines

/-- **Every spelling is read as comments that open the scope of label and name.** -/
theorem Annotation.exists_filler {label name cs : List Char} (h : Annotation label name cs)
    (hlabel : IsLabel label) (hname : IsName name) :
    ∃ texts opens, Filler true cs texts opens ∧ OpensScope (scopeOf label name) texts := by
  cases h with
  | oneLine htokens hpresenter hlines hfeed hmore hordinary =>
      refine ⟨_, _, .block (hlines.broken hfeed) hmore, ?_⟩
      have hread := hlines.plainLines_uniform hfeed
      rw [List.map_singleton, uniform_onLine (htokens.isContent hlabel).onLine,
        hpresenter.uniform hname] at hread
      exact (opensScope_of_marker (readMarker_oneLine hlabel.uniform hname (htokens.uniform hlabel)
        hpresenter hread)).ordinary hordinary
  | ownLines htokens hpresenter hlines hfeed hmore hordinary =>
      refine ⟨_, _, .block (hlines.broken hfeed) hmore, ?_⟩
      have hread := hlines.plainLines_uniform hfeed
      rw [List.map_cons, List.map_singleton, hpresenter.uniform hname] at hread
      exact (opensScope_of_marker (readMarker_ownLines hlabel.uniform hname (htokens.uniform hlabel)
        hpresenter hread)).ordinary hordinary
  | @lineComments gap gap' tokens presenter feed feed' between more texts texts' opens hgap
      htokens hfeed
      hbetween hordinary hgap' hpresenter hfeed' hmore hordinary' =>
      have htokensContent := htokens.isContent hlabel
      have hpresenterContent := hpresenter.isContent hname
      -- the last comment comes first, since a line is put in front of the filler behind it
      obtain ⟨tail', htail', hsecond⟩ := hmore.exists_line
        (hgap'.onLine.append hpresenterContent.onLine)
        (by simpa using ⟨hgap'.unstarred, hpresenterContent.unstarred⟩) hfeed'
      obtain ⟨tail, htail, hfirst⟩ := (hbetween.append hsecond).exists_line
        (hgap.onLine.append htokensContent.onLine)
        (by simpa using ⟨hgap.unstarred, htokensContent.unstarred⟩) hfeed
      refine ⟨_, _, hfirst, ?_⟩
      have hmarks := readMarker_label hlabel.uniform (htokens.uniform hlabel)
        (plainLines_line hgap htokensContent htail)
      have hlines := plainLines_line hgap' hpresenterContent htail'
      rw [hpresenter.uniform hname] at hlines
      have hnone := readMarker_name hname hpresenter hlines
      have hfound : presenter? (uniform (gap' ++ presenter) ++ tail') = some name := by
        rw [uniform_onLine hgap'.onLine, hgap'.uniform, hpresenter.uniform hname, List.append_assoc,
          presenter?_append (hgap'.not_mem (by decide)), hpresenter.presenter? hname]
        rcases htail' with rfl | rfl
        · nofun
        · exact List.forall_mem_singleton.mpr (by decide)
      have hopens := ((opensScope_of_marker hmarks).ordinary hordinary).names hnone hfound
      have hall : OpensScope (scopeOf label name) _ := hopens.ordinary hordinary'
      simpa only [List.append_assoc, List.singleton_append, List.cons_append, List.nil_append]
        using hall

/-! ## Between statements -/

def nestingAfter (before : List Char) : Nesting :=
  (Css.lexemes (rewritten before)).foldl Nesting.add ⟨[], []⟩

/-- What follows a part of a text stands between two statements, of the text itself or of the block
of a rule, and two slashes begin a comment there. -/
structure Between (dialect : Dialect) (before : List Char) : Prop where
  region : regionAfter before = .code true
  /-- A comment in this place is one, and no part of what stands before it. -/
  whole : Css.lastLexeme? (Css.lexemes (rewritten before ++ "/**/".toList)) =
    some (.leaf (.comment []))
  blank : ∀ node ∈ begun dialect (nestingAfter before).current.reverse, IsBlank node
  rules : ∀ frame ∈ (nestingAfter before).frames, OpensRule dialect frame

instance (dialect : Dialect) (before : List Char) : Decidable (Between dialect before) :=
  decidable_of_iff
    (regionAfter before = .code true ∧
      Css.lastLexeme? (Css.lexemes (rewritten before ++ "/**/".toList)) =
        some (.leaf (.comment [])) ∧
      (∀ node ∈ begun dialect (nestingAfter before).current.reverse, IsBlank node) ∧
      ∀ frame ∈ (nestingAfter before).frames, OpensRule dialect frame)
    ⟨fun ⟨hregion, hwhole, hblank, hrules⟩ => ⟨hregion, hwhole, hblank, hrules⟩,
      fun h => ⟨h.region, h.whole, h.blank, h.rules⟩⟩

theorem Between.nodesOf_append {dialect : Dialect} {before : List Char} (h : Between dialect before)
    (hdialect : dialect.hasLineComments = true) {cs : List Char} (hcs : cs.head? = some '/') :
    nodesOf dialect (before ++ cs) =
      (nestingAfter before).finish
        ⟨placeAfter (rewritten before), uniform (blockCommentsFrom (.code true) cs)⟩ := by
  obtain ⟨rest, rfl⟩ := List.head?_eq_some_iff.mp hcs
  have hstops : Css.Stops (uniform (blockCommentsFrom (.code true) ('/' :: rest))) :=
    Css.stops_cons.mpr (by decide)
  have htext : uniform (withBlockComments (before ++ '/' :: rest)) =
      uniform (rewritten before) ++ uniform (blockCommentsFrom (.code true) ('/' :: rest)) := by
    have hregion : (Region.code true).after before = .code true := h.region
    rw [withBlockComments, Region.blockCommentsFrom_append, hregion,
      Css.uniform_append fun _ hhead => by cases hhead]
    rfl
  have hwhole := h.whole
  rw [Css.lexemes, Css.uniform_append fun _ hhead => by cases hhead] at hwhole
  rw [nodesOf, if_pos hdialect, Css.parse, Css.lexemes, htext, Css.lexemesFrom_append hstops hwhole,
    Css.nest, List.foldl_append]
  rfl

/-- **Comments between two statements are read as comments there**, and what stands before and
behind them is read the same, whatever comments they are. -/
theorem Between.refilled {dialect : Dialect} {before : List Char} (h : Between dialect before)
    (hdialect : dialect.hasLineComments = true) {cs cs' : List Char}
    {texts texts' : List (List Char)}
    {opens opens' : Bool} (hfill : Filler true cs texts opens)
    (hfill' : Filler true cs' texts' opens')
    (hcs : cs.head? = some '/') (hcs' : cs'.head? = some '/') {after : List Char}
    (hafter : ¬ ['/', '/'] <+: after) :
    Refilled dialect texts texts' (nodesOf dialect (before ++ (cs ++ after)))
      (nodesOf dialect (before ++ (cs' ++ after))) := by
  obtain ⟨row, q, hrow, hread⟩ :=
    hfill.finish hafter (nestingAfter before) (placeAfter (rewritten before))
  obtain ⟨row', q', hrow', hread'⟩ :=
    hfill'.finish hafter (nestingAfter before) (placeAfter (rewritten before))
  have hhead : ∀ {cs : List Char}, cs.head? = some '/' → (cs ++ after).head? = some '/' := by
    intro cs hcs
    rw [List.head?_append, hcs]
    rfl
  have hhere := Refilled.here h.blank hrow hrow' .nil
  rw [List.append_nil, List.append_nil] at hhere
  rw [h.nodesOf_append hdialect (hhead hcs), h.nodesOf_append hdialect (hhead hcs'), hread, hread']
  refine (Refilling.here h.rules ?_).finish q q' _
  rw [List.reverse_append, List.reverse_append, List.reverse_reverse, List.reverse_reverse]
  exact hhere

/-! ## One spelling for another -/

theorem Annotation.head {label name cs : List Char} (h : Annotation label name cs) :
    cs.head? = some '/' := by
  cases h <;> rfl

/-- **The spellings of an annotation are worth the same.** In front of the same text, between the
same statements, they are comments behind which the scope of the label and the name is open, for
declarations and for a rule, and the whole stylesheet yields the same tokens, but for their
descriptions. -/
theorem annotation_forms_agree {dialect : Dialect} (hdialect : dialect.hasLineComments = true)
    {label name : List Char} (hlabel : IsLabel label) (hname : IsName name) {before : List Char}
    (hbefore : Between dialect before) {cs cs' : List Char} (hcs : Annotation label name cs)
    (hcs' : Annotation label name cs') {after : List Char} (hafter : ¬ ['/', '/'] <+: after) :
    (∃ marks marks',
      Reannotated marks marks' (statements dialect (nodesOf dialect (before ++ (cs ++ after))))
        (statements dialect (nodesOf dialect (before ++ (cs' ++ after)))) ∧
      ∀ (entry : Option Scope) (earlier : List Statement),
        scopeAt entry (earlier ++ marks) = some (scopeOf label name) ∧
        ruleScope entry (earlier ++ marks) = some (scopeOf label name) ∧
        scopeAt entry (earlier ++ marks') = some (scopeOf label name) ∧
        ruleScope entry (earlier ++ marks') = some (scopeOf label name)) ∧
    ∀ filename, tokensOf (findings dialect filename (before ++ (cs ++ after))) =
      tokensOf (findings dialect filename (before ++ (cs' ++ after))) := by
  obtain ⟨texts, opens, hfill, hscope⟩ := hcs.exists_filler hlabel hname
  obtain ⟨texts', opens', hfill', hscope'⟩ := hcs'.exists_filler hlabel hname
  have htrees := hbefore.refilled hdialect hfill hfill' hcs.head hcs'.head hafter
  obtain ⟨marks, marks', hmarks, hmarks', hblocks⟩ := exists_reannotated htrees
  refine ⟨⟨marks, marks', hblocks, fun entry earlier => ?_⟩, fun filename => ?_⟩
  · obtain ⟨hactive, hrule⟩ := hscope.scopeAt hmarks entry earlier
    obtain ⟨hactive', hrule'⟩ := hscope'.scopeAt hmarks' entry earlier
    exact ⟨hactive, hrule, hactive', hrule'⟩
  · exact hblocks.tokensOf_findings htrees.isSome_firstFault? hmarks hmarks' hscope hscope' filename

/-- An annotation on two lines of a block comment, as it is often written. -/
def spelledInBlock : List Char :=
  "/**\n * @tokens Brand colors\n * @presenter Swatch\n */\n  ".toList

/-- The same annotation in line comments, with another one in between. -/
def spelledInLines : List Char :=
  "// @tokens Brand colors\n  // kept by hand\n  // @presenter Swatch\n  ".toList

theorem givesLabel_brand : GivesLabel "Brand colors".toList "@tokens Brand colors".toList :=
  @GivesLabel.intro _ [' '] [] (by decide) (by decide) (by decide)

theorem givesName_swatch : GivesName "Swatch".toList "@presenter Swatch".toList :=
  @GivesName.intro _ [' '] [] (by simp [isInlineBlank]) (by decide) (by decide)

theorem annotation_spelledInBlock :
    Annotation "Brand colors".toList "Swatch".toList spelledInBlock := by
  have hfirst : Decoration "*".toList := @Decoration.star [] [] (by decide) (by decide)
  have hstar : Decoration " * ".toList := @Decoration.star [' '] [' '] (by decide) (by decide)
  have hlast : Decoration [' '] := .blanks (by decide)
  have htokens := givesLabel_brand.isContent (by decide)
  have hpresenter := givesName_swatch.isContent (by decide)
  have hlines := Decorated.bare hfirst
    (.content hstar htokens (.content hstar hpresenter (.bare hlast .nil)))
  have hmore : Filler false "\n  ".toList [] true :=
    .blank (by decide) (.blank (by decide) (.blank (by decide) (.nil true)))
  exact .ownLines givesLabel_brand givesName_swatch hlines (.inl rfl) hmore nofun

theorem annotation_spelledInLines :
    Annotation "Brand colors".toList "Swatch".toList spelledInLines := by
  have hbetween : Filler true "  // kept by hand\n  ".toList [" kept by hand".toList] true :=
    .blank (by decide) (.blank (by decide) (@Filler.line true " kept by hand".toList (by decide) _ _
      (.blank (by decide) (.blank (by decide) (.nil true)))))
  have hmore : Filler true "  ".toList [] true :=
    .blank (by decide) (.blank (by decide) (.nil true))
  have hordinary : ∀ text ∈ [" kept by hand".toList], IsOrdinary text := by
    rw [List.forall_mem_singleton]
    exact ⟨by decide +kernel, by decide +kernel⟩
  have hgap : IsGap [' '] := by decide
  exact .lineComments hgap givesLabel_brand (.inl rfl) hbetween hordinary hgap givesName_swatch
    (.inl rfl)
    hmore nofun

def mixinBefore : List Char :=
  "@mixin brand \x7b\n  ".toList

def mixinAfter : List Char :=
  "$primary: red;\n\x7d\n".toList

theorem annotation_forms_agree_mixin :
    Between scss mixinBefore ∧ ¬ ['/', '/'] <+: mixinAfter ∧
    Css.firstFault? (nodesOf scss (mixinBefore ++ (spelledInBlock ++ mixinAfter))) = none ∧
    (∃ marks marks',
      Reannotated marks marks'
        (statements scss (nodesOf scss (mixinBefore ++ (spelledInBlock ++ mixinAfter))))
        (statements scss (nodesOf scss (mixinBefore ++ (spelledInLines ++ mixinAfter)))) ∧
      ∀ (entry : Option Scope) (earlier : List Statement),
        scopeAt entry (earlier ++ marks) = some ⟨"Brand colors", "Swatch"⟩ ∧
        ruleScope entry (earlier ++ marks) = some ⟨"Brand colors", "Swatch"⟩ ∧
        scopeAt entry (earlier ++ marks') = some ⟨"Brand colors", "Swatch"⟩ ∧
        ruleScope entry (earlier ++ marks') = some ⟨"Brand colors", "Swatch"⟩) ∧
    ∀ filename, tokensOf (findings scss filename (mixinBefore ++ (spelledInBlock ++ mixinAfter))) =
      tokensOf (findings scss filename (mixinBefore ++ (spelledInLines ++ mixinAfter))) := by
  have hbefore : Between scss mixinBefore := by decide +kernel
  have hafter : ¬ ['/', '/'] <+: mixinAfter := by decide +kernel
  have hscope : scopeOf "Brand colors".toList "Swatch".toList = ⟨"Brand colors", "Swatch"⟩ := by
    decide +kernel
  have hagree := @annotation_forms_agree scss rfl _ _ (by decide +kernel)
      (by decide +kernel) _ hbefore _ _
    annotation_spelledInBlock annotation_spelledInLines _ hafter
  rw [hscope] at hagree
  exact ⟨hbefore, hafter, by decide +kernel, hagree⟩

end TokenCatalog.Stylesheet
