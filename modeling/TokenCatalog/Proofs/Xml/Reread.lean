import TokenCatalog.Proofs.Except
import TokenCatalog.Proofs.Xml.Namespaces
import TokenCatalog.Proofs.Xml.Scans
import TokenCatalog.Xml.Event

/-!
# Well-formed markup is read

The reader takes any text as far as it goes. Of markup that is well formed it meets what the grammar
says, all of it and nothing else. Main statements:

* `startOf_eq`: what the start of an element is in its scope;
* `runs_contents`: reading runs over what says a row of trees, and meets them;
* `events_document`: so it is read from its root on.
-/

namespace TokenCatalog.Xml

/-! ## The start of an element -/

theorem textOf_codes (cs : List Char) : textOf (cs.map Char.toNat) = .ok cs := by
  have hvalid : ∀ n ∈ cs.map Char.toNat, (decide n.isValidChar) = true := by
    intro n hn
    obtain ⟨c, -, rfl⟩ := List.mem_map.mp hn
    exact decide_eq_true c.valid
  rw [textOf, if_pos (List.all_eq_true.mpr hvalid), List.takeWhile_eq_self_iff.mpr hvalid]
  simp [Function.comp_def, Char.ofNat_toNat]

theorem firstDeclarations_eq_self {ds : List (List Char × List Nat)} (h : (ds.map Prod.fst).Nodup) :
    firstDeclarations ds = ds := by
  have hfold : ∀ found, ((found ++ ds).map Prod.fst).Nodup →
      ds.foldl (fun found d => if found.any (·.1 = d.1) then found else found ++ [d]) found =
        found ++ ds := by
    clear h
    induction ds with
    | nil => simp
    | cons d ds ih =>
        intro found hfound
        have hnew : found.any (·.1 = d.1) = false := by
          simp only [List.map_append, List.map_cons, List.nodup_append, List.mem_cons] at hfound
          rw [List.any_eq_false]
          intro e he
          simpa using hfound.2.2 e.1 (List.mem_map_of_mem he) d.1 (.inl rfl)
        rw [List.foldl_cons, hnew, if_neg Bool.false_ne_true, ih _ (by simpa using hfound)]
        simp
  exact hfold [] h

theorem occursTwice_eq_false {seen attributes : List (ExpandedName × List Char)}
    (h : ((seen ++ attributes).map Prod.fst).Nodup) : occursTwice seen attributes = false := by
  induction attributes generalizing seen with
  | nil => rfl
  | cons a more ih =>
      have hnew : seen.find? (·.1 = a.1) = none := by
        simp only [List.map_append, List.map_cons, List.nodup_append, List.mem_cons] at h
        rw [List.find?_eq_none]
        intro e he
        simpa using h.2.2 e.1 (List.mem_map_of_mem he) a.1 (.inl rfl)
      rw [occursTwice, hnew]
      exact ih (by simpa using h)

/-- **The start of an element in its scope**: its name, its declarations and its other attributes,
and nothing occurs twice. -/
theorem startOf_eq {scope : Scope} {name : Name} {attributes : List (List Char × List Char)}
    (hname : name.isSound = true) (hnodup : (attributes.map Prod.fst).Nodup)
    (htag : isTagNamespaced scope attributes = true) (ending : TagEnd) :
    startOf .empty scope ⟨name.text, codesOf attributes, ending⟩ =
      .ok (⟨name.text, Scope.elementName (declarationsOf attributes :: scope) name,
        declarationsOf attributes⟩, namesOf (declarationsOf attributes :: scope) attributes,
          true) := by
  simp only [isTagNamespaced, Bool.and_eq_true, List.all_eq_true, decide_eq_true_eq] at htag
  obtain ⟨hcounts, hdistinct⟩ := htag
  have hown : StartTag.declared ⟨name.text, codesOf attributes, ending⟩ =
      (declarationsOf attributes).map fun d => (d.space, d.namespaceName.map Char.toNat) := by
    rw [StartTag.declared, codesOf, List.filterMap_map, declarationsOf, List.map_filterMap]
    refine List.filterMap_congr fun a ha => ?_
    cases hdeclared : declared? a.1 with
    | none => simp [hdeclared]
    | some space =>
        have hmem : (⟨space, a.2⟩ : Declaration) ∈ declarationsOf attributes :=
          List.mem_filterMap.mpr ⟨a, ha, by rw [hdeclared]; rfl⟩
        simpa [hdeclared] using hcounts _ hmem
  have hself : firstDeclarations (StartTag.declared ⟨name.text, codesOf attributes, ending⟩) =
      StartTag.declared ⟨name.text, codesOf attributes, ending⟩ := by
    refine firstDeclarations_eq_self ?_
    rw [hown, List.map_map]
    exact spaces_nodup hnodup
  have hothers : (codesOf attributes).filter (fun a => (declared? a.1).isNone) =
      codesOf (othersOf attributes) := by
    rw [codesOf, List.filter_map]
    rfl
  obtain ⟨-, -, hread⟩ := Name.text_of_isSound hname
  refine bind_eq_ok_iff.mpr ⟨declarationsOf attributes, ?_, ?_⟩
  · rw [show Doctype.declared .empty name.text = [] from rfl, List.append_nil, hself, hown]
    refine mapM_map_eq_ok (fun d => ?_) _
    rw [textOf_codes]
    rfl
  refine bind_eq_ok_iff.mpr ⟨namesOf (declarationsOf attributes :: scope) attributes, ?_, ?_⟩
  · rw [hothers, codesOf, List.map_map, List.mapM_map]
    refine mapM_eq_ok fun a _ => ?_
    simp only [Function.comp_apply, textOf_codes]
    rfl
  · rw [hself, hothers, hread, occursTwice_eq_false]
    · simp [pure, Except.pure]
    · simpa [codesOf, namesOf, Function.comp_def] using hdistinct

theorem withTokens_empty (tag : StartTag) : tag.withTokens .empty = tag := by
  simp [StartTag.withTokens, Doctype.empty]

/-! ## What is met in a tree -/

/-- The events of a row of trees in a scope. The attributes of an element may be met in any order,
and text in pieces. -/
inductive Tells : Scope → List Node → List Event → Prop
  | nil {scope : Scope} : Tells scope [] []
  | element {scope : Scope} {name : Name} {attributes written : List (List Char × List Char)}
      {children nodes : List Node} {inner met : List Event} : written.Perm attributes →
      Tells (declarationsOf written :: scope) children inner → Tells scope nodes met →
      Tells scope (.element name attributes children :: nodes)
        (.start (Scope.elementName (declarationsOf written :: scope) name) (declarationsOf written)
            (namesOf (declarationsOf written :: scope) written) ::
          inner ++ .finish (Scope.elementName (declarationsOf written :: scope) name) :: met)
  | text {scope : Scope} {pieces : List (List Char)} {nodes : List Node} {met : List Event} :
      Tells scope nodes met → Tells scope (.text pieces.flatten :: nodes) (pieces.map .text ++ met)
  | comment {scope : Scope} {text : List Char} {nodes : List Node} {met : List Event} :
      Tells scope nodes met → Tells scope (.comment text :: nodes) (.comment text :: met)
  | instruction {scope : Scope} {text : List Char} {nodes : List Node} {met : List Event} :
      Tells scope nodes met → Tells scope (.instruction text :: nodes) (.instruction text :: met)

/-! ## Runs -/

/-- Whether reading goes on from one place to another and meets some events on the way, without a
document type and with any fuel that is enough. -/
def Reading.Runs (r : Reading) (met : List Event) (r' : Reading) : Prop :=
  ∀ fuel, r.rest.length < fuel → ∃ fuel', r'.rest.length < fuel' ∧
    r.events .empty fuel = (r'.events .empty fuel').map (met ++ ·)

theorem Reading.Runs.refl (r : Reading) : r.Runs [] r := by
  intro fuel hfuel
  refine ⟨fuel, hfuel, ?_⟩
  cases r.events .empty fuel <;> rfl

theorem Reading.Runs.trans {r r' r'' : Reading} {met met' : List Event} (h : r.Runs met r')
    (h' : r'.Runs met' r'') : r.Runs (met ++ met') r'' := by
  intro fuel hfuel
  obtain ⟨fuel', hfuel', hmet⟩ := h fuel hfuel
  obtain ⟨fuel'', hfuel'', hmet'⟩ := h' fuel' hfuel'
  refine ⟨fuel'', hfuel'', ?_⟩
  rw [hmet, hmet']
  cases r''.events .empty fuel'' with
  | error fault => rfl
  | ok more => exact congrArg Except.ok (List.append_assoc met met' more).symm

/-- A step that takes something. -/
theorem Reading.Runs.step {r r' : Reading} {met : List Event}
    (h : ∀ fuel, r.rest.length ≤ fuel → r.step .empty fuel = .ok (met, some r'))
    (hless : r'.rest.length < r.rest.length) : r.Runs met r' := by
  intro fuel hfuel
  obtain ⟨fuel, rfl⟩ : ∃ n, fuel = n + 1 := ⟨fuel - 1, by omega⟩
  refine ⟨fuel, by omega, ?_⟩
  rw [Reading.events, h fuel (by omega)]
  change Except.bind (r'.events .empty fuel) (fun more => .ok (met ++ more)) = _
  cases r'.events .empty fuel <;> rfl

/-! ## Steps -/

section

variable {element : OpenElement} {outer : List OpenElement}

def within (element : OpenElement) (outer : List OpenElement) (rest : List Char) : Reading :=
  ⟨element :: outer, true, rest⟩

theorem runs_run {run : List Char} (hne : run ≠ []) (h : ∀ c ∈ run, isRun c = true)
    {rest : List Char} (hrest : EndsText rest) :
    (within element outer (run ++ rest)).Runs [.text (Text.universalNewlines run)]
      (within element outer rest) := by
  obtain ⟨c, run, rfl⟩ := List.exists_cons_of_ne_nil hne
  have htakes := takes_text h hrest
  have hlines : (Text.universalNewlines (c :: run)).isEmpty = false := by
    unfold Text.universalNewlines
    split <;> first | rfl | contradiction
  obtain ⟨-, hlt, hamp, -⟩ := isRun_iff.mp (h c List.mem_cons_self)
  have hlength : rest.length < (c :: run ++ rest).length := by
    rw [List.length_append, List.length_cons]
    omega
  refine .step (fun fuel _ => ?_) hlength
  simp only [Reading.step, within, Reading.inside, List.cons_append] at htakes ⊢
  split
  · next heq => exact absurd (List.cons.inj heq).1 hlt
  · next heq => exact absurd (List.cons.inj heq).1 hlt
  · next heq => exact absurd (List.cons.inj heq).1 hlt
  · next heq => exact absurd (List.cons.inj heq).1 hlt
  · next heq => exact absurd (List.cons.inj heq).1 hlt
  · next heq => exact absurd (List.cons.inj heq).1 hamp
  · next heq => cases heq
  · rw [htakes]
    simp only [textEvents, hlines]
    rfl

theorem runs_reference {c : Char} {reference : List Char} (h : Refers c reference)
    (rest : List Char) :
    (within element outer ('&' :: reference ++ ';' :: rest)).Runs [.text [c]]
      (within element outer rest) := by
  obtain ⟨found, htakes, hfound⟩ := takes_reference Doctype.empty.elsewhere h rest
  refine .step (fun fuel _ => ?_) (by simp [within]; omega)
  change Reading.reference .empty (within element outer _) (reference ++ ';' :: rest) = _
  unfold Reading.reference
  rw [htakes]
  rcases hfound with rfl | ⟨rfl, hne⟩
  · rfl
  · obtain ⟨n, hn⟩ := Nat.exists_eq_succ_of_ne_zero hne
    have htext := textOf_codes [c]
    simp only [List.map_cons, List.map_nil, hn] at htext
    rw [hn]
    change (textOf [n.succ]).bind _ = _
    rw [htext]
    rfl

theorem runs_comment {text : List Char} (h : isComment text = true) (rest : List Char) :
    (within element outer ("<!--".toList ++ text ++ "-->".toList ++ rest)).Runs [.comment text]
      (within element outer rest) := by
  have htakes := takes_comment h rest
  rw [← List.append_assoc] at htakes
  refine .step (fun fuel _ => ?_) (by simp [within]; omega)
  change Reading.passage _ takeComment .comment (text ++ "-->".toList ++ rest) = _
  unfold Reading.passage
  rw [htakes]
  rfl

theorem runs_instruction {text : List Char} (h : isInstruction text = true) (rest : List Char) :
    (within element outer ("<?".toList ++ text ++ "?>".toList ++ rest)).Runs [.instruction text]
      (within element outer rest) := by
  have htakes := takes_instruction h rest
  rw [← List.append_assoc] at htakes
  refine .step (fun fuel _ => ?_) (by simp [within]; omega)
  change Reading.passage _ takeInstruction .instruction (text ++ "?>".toList ++ rest) = _
  unfold Reading.passage
  rw [htakes]
  rfl

theorem runs_endTag {element : OpenElement} (outer : List OpenElement) {name : Name}
    (hname : name.isSound = true) (hwritten : element.written = name.text) (rest : List Char) :
    (within element outer ('<' :: '/' :: name.text ++ '>' :: rest)).Runs [.finish element.name]
      ⟨outer, true, rest⟩ := by
  have htakes := takes_endTag hname rest
  refine .step (fun fuel _ => ?_) (by simp [within]; omega)
  change Except.ok ([Event.finish element.name], some { Reading.after _ (takeEndTag element.written
    (name.text ++ '>' :: rest)) with opened := outer }) = _
  rw [hwritten, htakes]
  rfl

/-- **Text is met in pieces that make it up.** -/
theorem runs_text (element : OpenElement) (outer : List OpenElement) {text cs : List Char}
    (h : Spells none text cs) (rest : List Char) :
    ∃ pieces : List (List Char), pieces.flatten = text ∧
      (within element outer (cs ++ '<' :: rest)).Runs (pieces.map .text)
        (within element outer ('<' :: rest)) := by
  induction hlength : cs.length using Nat.strongRecOn generalizing text cs with
  | ind n ih =>
    obtain ⟨run, text', cs', rfl, rfl, hrun, hnext⟩ := h.splitText
    -- what comes first has no references, if there is any of it
    have hfirst : ∀ rest, EndsText rest →
        ∃ pieces : List (List Char), pieces.flatten = Text.universalNewlines run ∧
          (within element outer (run ++ rest)).Runs (pieces.map .text)
            (within element outer rest) := by
      intro rest hrest
      by_cases hne : run = []
      · subst hne
        exact ⟨[], rfl, .refl _⟩
      · exact ⟨[Text.universalNewlines run], by simp, runs_run hne hrun hrest⟩
    rcases hnext with ⟨rfl, rfl⟩ | ⟨c, reference, text'', cs'', rfl, rfl, hreference, hmore⟩
    · obtain ⟨pieces, hpieces, hruns⟩ := hfirst ('<' :: rest) rfl
      exact ⟨pieces, by rw [hpieces, List.append_nil], by rwa [List.append_nil]⟩
    · obtain ⟨pieces, hpieces, hruns⟩ :=
        hfirst ('&' :: reference ++ ';' :: (cs'' ++ '<' :: rest)) rfl
      obtain ⟨pieces'', hpieces'', hruns''⟩ := ih cs''.length (by simp at hlength; omega) hmore rfl
      refine ⟨pieces ++ [c] :: pieces'', by simp [hpieces, hpieces''], ?_⟩
      have hall := hruns.trans ((runs_reference hreference _).trans hruns'')
      simpa using hall

/-! ## Elements -/

/-- An element that is opened with attributes as they are written. -/
def opening (name : Name) (written : List (List Char × List Char)) (outer : List OpenElement) :
    OpenElement :=
  ⟨name.text, Scope.elementName (declarationsOf written :: outer.map (·.declarations)) name,
    declarationsOf written⟩

def starting (name : Name) (written : List (List Char × List Char)) (outer : List OpenElement) :
    Event :=
  .start (opening name written outer).name (declarationsOf written)
    (namesOf (declarationsOf written :: outer.map (·.declarations)) written)

/-- **A start tag opens its element**, or starts it and ends it at once. -/
theorem start_eq (outer : List OpenElement) {name : Name} {written : List (List Char × List Char)}
    {tag : List Char} (hname : name.isSound = true) (hnodup : (written.map Prod.fst).Nodup)
    (htag : Attributes written tag)
    (hnames : isTagNamespaced (outer.map (·.declarations)) written = true) {fuel : Nat}
    (hfuel : tag.length < fuel) (before rest : List Char) :
    Reading.start .empty fuel ⟨outer, true, before⟩ (name.text ++ (tag ++ '>' :: rest)) =
        .ok ([starting name written outer],
          some ⟨opening name written outer :: outer, true, rest⟩) ∧
      Reading.start .empty fuel ⟨outer, true, before⟩ (name.text ++ (tag ++ '/' :: '>' :: rest)) =
        .ok ([starting name written outer, .finish (opening name written outer).name],
          some ⟨outer, true, rest⟩) := by
  obtain ⟨hopened, hclosed⟩ := takes_startTag Doctype.empty.elsewhere hname htag hfuel rest
  constructor
  · unfold Reading.start
    rw [hopened]
    simp only [Option.map_some, withTokens_empty]
    refine bind_eq_ok_iff.mpr ⟨_, startOf_eq hname hnodup hnames .opened, ?_⟩
    rfl
  · unfold Reading.start
    rw [hclosed]
    simp only [Option.map_some, withTokens_empty]
    refine bind_eq_ok_iff.mpr ⟨_, startOf_eq hname hnodup hnames .closed, ?_⟩
    rfl

/-- In an element a name after an opening bracket is that of a start tag. -/
theorem inside_start {name : Name} (hname : name.isSound = true) (fuel : Nat) (rest : List Char) :
    Reading.inside .empty fuel (within element outer ('<' :: (name.text ++ rest))) element outer =
      Reading.start .empty fuel (within element outer ('<' :: (name.text ++ rest))) (name.text ++
        rest) := by
  obtain ⟨hstart, -, -⟩ := Name.text_of_isSound hname
  obtain ⟨c, more, htext⟩ : ∃ c more, name.text = c :: more := by
    cases htext : name.text with
    | nil => simp [htext] at hstart
    | cons c more => exact ⟨c, more, rfl⟩
  rw [htext, List.head?_cons, Option.any_some] at hstart
  have hne : ∀ d, isNameStart d = false → c ≠ d := by
    rintro d hd rfl
    rw [hstart] at hd
    cases hd
  have hsecond : ∀ {d : Char} {cs : List Char}, '<' :: c :: (more ++ rest) = '<' :: d :: cs →
      c = d :=
    fun heq => (List.cons.inj (List.cons.inj heq).2).1
  unfold Reading.inside within
  simp only [htext, List.cons_append]
  split
  · next heq => exact absurd (hsecond heq) (hne _ (by decide))
  · next heq => exact absurd (hsecond heq) (hne _ (by decide))
  · next heq => exact absurd (hsecond heq) (hne _ (by decide))
  · next heq => exact absurd (hsecond heq) (hne _ (by decide))
  · next heq => rw [(List.cons.inj heq).2]
  · next heq => exact absurd (List.cons.inj heq).1 (by decide)
  · next heq => cases heq
  · next hbracket _ _ => exact absurd rfl (hbracket _)

theorem runs_opened {name : Name} {written : List (List Char × List Char)} {tag : List Char}
    (hname : name.isSound = true) (hnodup : (written.map Prod.fst).Nodup)
    (htag : Attributes written tag)
    (hnames : isTagNamespaced ((element :: outer).map (·.declarations)) written = true)
    (rest : List Char) :
    (within element outer ('<' :: name.text ++ tag ++ '>' :: rest)).Runs
        [starting name written (element :: outer)]
        (within (opening name written (element :: outer)) (element :: outer) rest) ∧
      (within element outer ('<' :: name.text ++ tag ++ '/' :: '>' :: rest)).Runs
        [starting name written (element :: outer),
          .finish (opening name written (element :: outer)).name]
        (within element outer rest) := by
  constructor
  · refine .step (fun fuel hfuel => ?_) (by simp [within]; omega)
    have hlength : tag.length < fuel := by
      simp [within] at hfuel
      omega
    have htext : '<' :: name.text ++ tag ++ '>' :: rest =
        '<' :: (name.text ++ (tag ++ '>' :: rest)) := by
      simp
    rw [htext]
    exact (inside_start hname fuel _).trans (start_eq _ hname hnodup htag hnames hlength _ rest).1
  · refine .step (fun fuel hfuel => ?_) (by simp [within]; omega)
    have hlength : tag.length < fuel := by
      simp [within] at hfuel
      omega
    have htext : '<' :: name.text ++ tag ++ '/' :: '>' :: rest =
        '<' :: (name.text ++ (tag ++ '/' :: '>' :: rest)) := by simp
    rw [htext]
    exact (inside_start hname fuel _).trans (start_eq _ hname hnodup htag hnames hlength _ rest).2

end

/-! ## Contents -/

/-- What says trees begins with an opening bracket, unless text comes first. -/
theorem Contents.head? {nodes : List Node} {cs : List Char} (h : Contents nodes cs)
    (hfirst : nodes.head?.any Node.isText = false) (rest : List Char) :
    ∃ more, cs ++ '<' :: rest = '<' :: more := by
  cases h with
  | nil => exact ⟨rest, rfl⟩
  | text => cases hfirst
  | element => exact ⟨_, rfl⟩
  | empty => exact ⟨_, rfl⟩
  | comment => exact ⟨_, rfl⟩
  | instruction => exact ⟨_, rfl⟩

/-- **Reading runs over what says a row of trees**, up to the end of the element around them, and
meets them all. -/
theorem runs_contents {nodes : List Node} {cs : List Char} (h : Contents nodes cs) {scope : Scope}
    (element : OpenElement) (outer : List OpenElement)
    (hscope : scope.Same ((element :: outer).map (·.declarations)))
    (hnames : areNamespaced scope nodes = true) (rest : List Char) :
    ∃ met, Tells ((element :: outer).map (·.declarations)) nodes met ∧
      (within element outer (cs ++ '<' :: '/' :: rest)).Runs met
        (within element outer ('<' :: '/' :: rest)) := by
  induction h generalizing scope element outer rest with
  | nil => exact ⟨[], .nil, .refl _⟩
  | @element name attributes written children nodes tag inner cs hname hnodup hperm htag _ _
      ihinner ihcs =>
      simp only [areNamespaced, Node.isNamespaced, Bool.and_eq_true] at hnames
      obtain ⟨⟨htagNames, hchildren⟩, hnodes⟩ := hnames
      have hnodup' : (written.map Prod.fst).Nodup := (hperm.map _).nodup_iff.mpr hnodup
      have hnames' := htagNames
      rw [isTagNamespaced_congr hscope hperm.symm hnodup] at hnames'
      have hinner : Scope.Same (declarationsOf attributes :: scope)
          ((opening name written (element :: outer) :: element :: outer).map (·.declarations)) :=
        hscope.cons hperm.symm hnodup
      obtain ⟨met, htells, hruns⟩ := ihinner _ _ hinner hchildren
        (name.text ++ '>' :: (cs ++ '<' :: '/' :: rest))
      obtain ⟨met', htells', hruns'⟩ := ihcs _ _ hscope hnodes rest
      -- the tag, what is in the element, its end, and what comes after it are read in this order
      refine ⟨_, .element hperm htells htells', ?_⟩
      have htext : '<' :: name.text ++ tag ++ '>' :: inner ++ '<' :: '/' :: name.text ++
          '>' :: cs ++
          '<' :: '/' :: rest = '<' :: name.text ++ tag ++ '>' ::
            (inner ++ '<' :: '/' :: (name.text ++ '>' :: (cs ++ '<' :: '/' :: rest))) := by simp
      have hopened := (runs_opened hname hnodup' htag hnames'
        (inner ++ '<' :: '/' :: (name.text ++ '>' :: (cs ++ '<' :: '/' :: rest)))).1
      have hwritten : (opening name written (element :: outer)).written = name.text := rfl
      have hclosed := runs_endTag (element :: outer) hname hwritten (cs ++ '<' :: '/' :: rest)
      rw [htext]
      exact hopened.trans (hruns.trans (hclosed.trans hruns'))
  | @empty name attributes written nodes tag cs hname hnodup hperm htag _ ihcs =>
      simp only [areNamespaced, Node.isNamespaced, Bool.and_eq_true] at hnames
      obtain ⟨⟨htagNames, -⟩, hnodes⟩ := hnames
      have hnodup' : (written.map Prod.fst).Nodup := (hperm.map _).nodup_iff.mpr hnodup
      rw [isTagNamespaced_congr hscope hperm.symm hnodup] at htagNames
      obtain ⟨met', htells', hruns'⟩ := ihcs _ _ hscope hnodes rest
      refine ⟨_, .element hperm .nil htells', ?_⟩
      have htext : '<' :: name.text ++ tag ++ '/' :: '>' :: cs ++ '<' :: '/' :: rest =
          '<' :: name.text ++ tag ++ '/' :: '>' :: (cs ++ '<' :: '/' :: rest) := by simp
      rw [htext]
      exact (runs_opened hname hnodup' htag htagNames _).2.trans hruns'
  | @text text written cs nodes _ htext hfirst hcs ih =>
      simp only [areNamespaced, Node.isNamespaced, Bool.true_and] at hnames
      obtain ⟨met, htells, hruns⟩ := ih _ _ hscope hnames rest
      obtain ⟨more, hmore⟩ := hcs.head? hfirst ('/' :: rest)
      obtain ⟨pieces, rfl, hpieces⟩ := runs_text element outer htext more
      refine ⟨_, .text htells, ?_⟩
      rw [← hmore, ← List.append_assoc] at hpieces
      exact hpieces.trans hruns
  | @comment text cs nodes htext _ ih =>
      simp only [areNamespaced, Node.isNamespaced, Bool.true_and] at hnames
      obtain ⟨met, htells, hruns⟩ := ih _ _ hscope hnames rest
      refine ⟨_, .comment htells, ?_⟩
      rw [List.append_assoc]
      exact (runs_comment htext _).trans hruns
  | @instruction text cs nodes htext _ ih =>
      simp only [areNamespaced, Node.isNamespaced, Bool.true_and] at hnames
      obtain ⟨met, htells, hruns⟩ := ih _ _ hscope hnames rest
      refine ⟨_, .instruction htells, ?_⟩
      rw [List.append_assoc]
      exact (runs_instruction htext _).trans hruns

/-! ## From the root on -/

theorem takes_no_heading {c : Char} (hc : isNameStart c = true) (cs : List Char) :
    Heading.take?.Takes ('<' :: c :: cs) false ('<' :: c :: cs) := by
  have hne : '?' ≠ c := by
    rintro rfl
    cases hc
  have hnone : Text.after? "<?xml".toList ('<' :: c :: cs) = none := by
    rw [Option.eq_none_iff_forall_ne_some]
    intro rest hrest
    have htext := Text.after?_eq_some_iff.mp hrest
    exact hne (List.cons.inj (List.cons.inj htext).2).1.symm
  refine (Scan.takes_ahead _).bind ?_
  rw [hnone]
  rfl

theorem takes_no_prolog (alone : Bool) {c : Char} (hc : isNameStart c = true) (cs : List Char)
    (fuel : Nat) (sound : Bool) :
    (takeProlog alone (fuel + 1) sound none).Takes ('<' :: c :: cs) (some .empty) ('<' ::
      c :: cs) := by
  have hno : ∀ {w : String} {d : Char} {more : List Char}, w.toList = '<' :: d :: more →
      isNameStart d = false → ¬ w.toList <+: '<' :: c :: cs := by
    rintro w d more hw hd ⟨rest, hrest⟩
    rw [hw] at hrest
    rw [(List.cons.inj (List.cons.inj hrest).2).1, hc] at hd
    cases hd
  refine (Scan.takes_no_blanks rfl).bind ?_
  refine (Scan.takes_no_word (hno rfl (by decide))).bind ?_
  rw [if_neg Bool.false_ne_true]
  refine (Scan.takes_no_word (hno rfl (by decide))).bind ?_
  rw [if_neg Bool.false_ne_true]
  refine (Scan.takes_no_word (w := "<!DOCTYPE") (hno rfl (by decide))).bind ?_
  exact Scan.takes_pure _ _

def metFrom (fuel : Nat) (step : Step) : Except Utf8.Fault (List Event) := do
  let (met, next?) ← step
  match next? with
  | some next => return met ++ (← next.events .empty fuel)
  | none => return met

/-- What begins with the start tag of an element is read from there on. -/
theorem events_eq {name : Name} (hname : name.isSound = true) (rest : List Char) :
    events ('<' :: (name.text ++ rest)) =
      metFrom ((name.text ++ rest).length +
        1) (Reading.start .empty ((name.text ++ rest).length + 1)
        ⟨[], true, name.text ++ rest⟩ (name.text ++ rest)) := by
  obtain ⟨hstart, -, -⟩ := Name.text_of_isSound hname
  cases htext : name.text with
  | nil => simp [htext] at hstart
  | cons c more =>
      rw [htext, List.head?_cons, Option.any_some] at hstart
      have hmark : ((('<' :: c :: (more ++ rest)).take 2).takeWhile (· = '\ufeff')).length = 0 :=
        rfl
      have hheading : Heading.take? ('<' :: c :: (more ++ rest)) =
          ⟨false, '<' :: c :: (more ++ rest), true⟩ := takes_no_heading hstart _
      have hprolog : ∀ fuel, takeProlog false (fuel + 1) true none ('<' :: c :: (more ++ rest)) =
          ⟨some .empty, '<' :: c :: (more ++ rest), true⟩ :=
        fun fuel => takes_no_prolog false hstart _ fuel true
      unfold events
      simp only [List.cons_append, hmark, List.drop_zero, hheading, hprolog, Bool.and_true]
      rfl

/-- Reading has come to the end of the text after the root. -/
theorem Reading.Runs.events_eq {r : Reading} {met : List Event} (h : r.Runs met ⟨[], true, []⟩)
    {fuel : Nat} (hfuel : r.rest.length < fuel) : r.events .empty fuel = .ok met := by
  obtain ⟨fuel', hfuel', hevents⟩ := h fuel hfuel
  obtain ⟨fuel', rfl⟩ : ∃ n, fuel' = n + 1 := ⟨fuel' - 1, by simp at hfuel'; omega⟩
  rw [hevents]
  exact congrArg Except.ok (List.append_nil met)

/-- **Of well-formed markup the reader meets the tree that it says.** -/
theorem events_document {root : Node} {cs : List Char} (h : Document root cs) :
    ∃ met, events cs = .ok met ∧ Tells [] [root] met := by
  obtain ⟨hcontents, ⟨name, attributes, children, rfl⟩, -, hnames⟩ := h
  have hsame : Scope.Same [] [] := fun _ => rfl
  simp only [Node.isNamespaced, Bool.and_eq_true] at hnames
  obtain ⟨htagNames, hchildren⟩ := hnames
  cases hcontents with
  | @element _ _ written _ _ tag inner _ hname hnodup hperm htag hinner hcs =>
      cases hcs
      have hnodup' : (written.map Prod.fst).Nodup := (hperm.map _).nodup_iff.mpr hnodup
      rw [isTagNamespaced_congr hsame hperm.symm hnodup] at htagNames
      obtain ⟨met, htells, hruns⟩ := runs_contents hinner (opening name written []) []
        (hsame.cons hperm.symm hnodup) hchildren (name.text ++ ['>'])
      have hwritten : (opening name written []).written = name.text := rfl
      have hall := hruns.trans (runs_endTag [] hname hwritten [])
      have htext : '<' :: name.text ++ tag ++ '>' :: inner ++ '<' :: '/' :: name.text ++ ['>'] =
          '<' :: (name.text ++ (tag ++ '>' ::
            (inner ++ '<' :: '/' :: (name.text ++ ['>'])))) := by simp
      refine ⟨_, ?_, .element hperm htells .nil⟩
      rw [htext, events_eq hname]
      refine bind_eq_ok_iff.mpr ⟨_, (start_eq [] hname hnodup' htag htagNames ?_ _ _).1, ?_⟩
      · simp
        omega
      · refine bind_eq_ok_iff.mpr ⟨_, hall.events_eq ?_, rfl⟩
        simp [within]
        omega
  | @empty _ _ written _ tag _ hname hnodup hperm htag hcs =>
      cases hcs
      have hnodup' : (written.map Prod.fst).Nodup := (hperm.map _).nodup_iff.mpr hnodup
      rw [isTagNamespaced_congr hsame hperm.symm hnodup] at htagNames
      have htext : '<' :: name.text ++ tag ++ ['/', '>'] =
          '<' :: (name.text ++ (tag ++ ['/', '>'])) := by
        simp
      refine ⟨_, ?_, .element hperm .nil .nil⟩
      rw [htext, events_eq hname]
      refine bind_eq_ok_iff.mpr ⟨_, (start_eq [] hname hnodup' htag htagNames ?_ _ _).2, ?_⟩
      · simp
        omega
      · exact bind_eq_ok_iff.mpr ⟨_, (Reading.Runs.refl _).events_eq (by simp), rfl⟩

end TokenCatalog.Xml
