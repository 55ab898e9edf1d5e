import TokenCatalog.Proofs.Css.Written
import TokenCatalog.Proofs.Text.Squeeze
import TokenCatalog.Proofs.Value.Hint

/-!
# The normal form of font families

The normal form of a list of families holds the strings among them anew and the other names as they
are. It is read as the same families again if these names need no escapes, and then it is its own
normal form but for two details. Main statements:

* `Family`: a family between commas, with its name;
* `Family.separate`: a family without escapes in its name is read in front of a space and a comma;
* `families_settled`: the families of the normal form, and when it is classified as itself.
-/

namespace TokenCatalog.Value

open TokenCatalog.Css (Node Leaf AreLeaves significant splitCommas isPlainWord)

/-! ## Families -/

/-- A family: a string with its contents, or a name made of identifiers. -/
inductive Family where
  | quoted (value : List Char)
  | unquoted (name : List Char)
  deriving DecidableEq, Repr

/-- The family that a part between commas is: a string, or identifiers with one space between their
names. -/
def Family.of? (part : List Node) : Option Family :=
  match significant part with
  | [] => none
  | [.leaf _ (.string value)] => some (.quoted value)
  | nodes => (nodes.mapM identName?).map fun names => .unquoted (Text.joinWith [' '] names)

/-- The families between the commas of a row, if each part is one. -/
def familiesOf? (nodes : List Node) : Option (List Family) :=
  (splitCommas nodes).mapM Family.of?

/-- A family as it stands in a normal form. -/
def Family.write : Family → List Char
  | .quoted value => Css.writeString value
  | .unquoted name => name

theorem Family.of?_idents {part : List Node} (hne : significant part ≠ [])
    (hstring : ∀ p value, significant part ≠ [.leaf p (.string value)]) :
    Family.of? part = ((significant part).mapM identName?).map fun names =>
      .unquoted (Text.joinWith [' '] names) := by
  unfold Family.of?
  split
  · next hnil => exact absurd hnil hne
  · next hone => exact absurd hone (hstring _ _)
  · rfl

theorem family?_eq (part : List Node) : family? part = (Family.of? part).map Family.write := by
  unfold family?
  split
  · next hnil =>
      rw [Family.of?, hnil]
      rfl
  · next hone =>
      rw [Family.of?, hone]
      rfl
  · next hne hstring =>
      rw [Family.of?_idents hne hstring, Option.map_map]
      rfl

theorem mapM_family? (parts : List (List Node)) :
    parts.mapM family? = (parts.mapM Family.of?).map (List.map Family.write) := by
  induction parts with
  | nil => rfl
  | cons part parts ih =>
      rw [List.mapM_cons, List.mapM_cons, ih, family?_eq]
      cases Family.of? part with
      | none => rfl
      | some family => cases parts.mapM Family.of? <;> rfl

/-- The nodes of a family. -/
inductive Family.Holds : List Node → Family → Prop
  | quoted (p : Css.Position) (value : List Char) : Holds [.leaf p (.string value)] (.quoted value)
  | unquoted {nodes : List Node} {names : List (List Char)} (hne : names ≠ [])
      (h : AreLeaves nodes (names.map Leaf.ident)) :
      Holds nodes (.unquoted (Text.joinWith [' '] names))

theorem mapM_identName?_eq_some_iff {nodes : List Node} {names : List (List Char)} :
    nodes.mapM identName? = some names ↔ AreLeaves nodes (names.map Leaf.ident) := by
  induction nodes generalizing names with
  | nil =>
      constructor
      · rintro ⟨⟩
        exact .nil
      · intro h
        cases names with
        | nil => rfl
        | cons => cases h
  | cons node nodes ih =>
      rw [List.mapM_cons]
      constructor
      · intro h
        obtain ⟨name, hname, h⟩ := Option.bind_eq_some_iff.mp h
        obtain ⟨more, hmore, heq⟩ := Option.bind_eq_some_iff.mp h
        cases heq
        unfold identName? at hname
        split at hname
        · next p _ =>
            cases hname
            exact .cons p _ (ih.mp hmore)
        · cases hname
      · intro h
        cases names with
        | nil => cases h
        | cons name names =>
            cases h with
            | cons p _ h =>
                rw [ih.mpr h]
                rfl

theorem Family.of?_eq_some_iff {part : List Node} {family : Family} :
    Family.of? part = some family ↔ Family.Holds (significant part) family := by
  unfold Family.of?
  constructor
  · intro h
    split at h
    · cases h
    · next p value hpart =>
        cases h
        rw [hpart]
        exact .quoted p value
    · next nodes hne hstring =>
        obtain ⟨names, hnames, rfl⟩ := Option.map_eq_some_iff.mp h
        have hleaves := mapM_identName?_eq_some_iff.mp hnames
        refine .unquoted ?_ hleaves
        rintro rfl
        generalize hnodes : significant part = nodes at hleaves
        cases hleaves
        exact hne hnodes
  · intro h
    generalize significant part = nodes at h
    cases h with
    | quoted p value => rfl
    | @unquoted _ names hne h =>
        split
        · cases names with
          | nil => exact absurd rfl hne
          | cons => cases h
        · rcases names with - | ⟨name, - | ⟨name', names⟩⟩ <;> cases h
        · rw [mapM_identName?_eq_some_iff.mpr h]
          rfl

/-! ## Names without escapes -/

def wordsOf (name : List Char) : List (List Char) :=
  name.splitOn ' '

theorem joinWith_wordsOf (name : List Char) : Text.joinWith [' '] (wordsOf name) = name :=
  List.intercalate_splitOn ' '

/-- Whether a family reads the same in a normal form: a string, or a name of identifiers without
escapes, with single spaces. -/
def Family.isPlain : Family → Bool
  | .quoted _ => true
  | .unquoted name => (wordsOf name).all isPlainWord

def Family.row : Family → List Css.Token
  | .quoted value => [⟨Css.writeString value, .string value⟩]
  | .unquoted name => Css.spaced ((wordsOf name).map Leaf.ident)

def rowOf (families : List Family) : List Css.Token :=
  Css.joined [.comma, .blank] (families.map Family.row)

namespace Family

variable {family : Family} (h : family.isPlain = true)

include h

theorem rowText_row : Css.rowText family.row = family.write := by
  cases family with
  | quoted value => simp [row, Css.rowText, write]
  | unquoted name =>
      have hwords : ((wordsOf name).map Leaf.ident).map Leaf.write = wordsOf name := by
        rw [List.map_map]
        exact (List.map_congr_left fun word hword =>
          Css.writeIdent_plainWord (List.all_eq_true.mp h word hword)).trans (List.map_id _)
      rw [row, Css.rowText_spaced, hwords, joinWith_wordsOf, write]

/-- **A family without escapes is read in front of a space and a comma.** -/
theorem separate_row : Css.Separate family.row := by
  cases family with
  | quoted value => exact Css.separate_string value
  | unquoted name =>
      have hne : wordsOf name ≠ [] := List.splitOn_ne_nil ' ' name
      refine Css.separate_spaced (by simpa using hne) ?_
      rw [List.forall_mem_map]
      intro word hword
      have hplain := List.all_eq_true.mp h word hword
      rw [Leaf.write, Css.writeIdent_plainWord hplain]
      exact Css.separate_word hplain

omit h in
theorem char_cases {name : List Char} (h : isPlain (.unquoted name) = true) :
    ∀ c ∈ name, c = ' ' ∨ Css.isNameChar c = true := by
  rw [← joinWith_wordsOf name]
  refine Text.forall_mem_joinWith (List.forall_mem_singleton.mpr (.inl rfl)) ?_
  intro word hword c hc
  exact .inr ((Css.isPlainWord_iff.mp (List.all_eq_true.mp h word hword)).2 c hc)

omit h in
theorem row_cases (family : Family) : ∀ leaf ∈ family.row.map Css.Token.leaf,
    leaf ≠ .literal [','] := by
  cases family with
  | quoted value => simp [row]
  | unquoted name =>
      rw [row, Css.leaves_spaced]
      intro leaf hleaf
      rcases Css.mem_intersperse hleaf with rfl | hmem
      · exact nofun
      · obtain ⟨word, -, rfl⟩ := List.mem_map.mp hmem
        exact nofun

omit h in
/-- The nodes of the tokens of a family are a family. -/
theorem holds_row {nodes : List Node} (hnodes : AreLeaves nodes (family.row.map Css.Token.leaf)) :
    Holds (significant nodes) family := by
  have hsignificant := hnodes.significant
  generalize significant nodes = left at hsignificant ⊢
  cases family with
  | quoted value =>
      cases hsignificant with
      | cons p _ hrest =>
          cases hrest
          exact .quoted p value
  | unquoted name =>
      rw [row, Css.leaves_spaced, Css.filter_intersperse rfl] at hsignificant
      · have hholds := Holds.unquoted (List.splitOn_ne_nil ' ' name) hsignificant
        rwa [← wordsOf, joinWith_wordsOf] at hholds
      · rw [List.forall_mem_map]
        exact fun word _ => rfl

end Family

/-! ## Reading families again -/

theorem rowText_rowOf {families : List Family} (h : ∀ family ∈ families, family.isPlain = true) :
    Css.rowText (rowOf families) = Text.joinWith [',', ' '] (families.map Family.write) := by
  rw [rowOf, Css.rowText_joined, List.map_map]
  congr 1
  exact List.map_congr_left fun family hfamily => Family.rowText_row (h family hfamily)

/-- The tokens of a family are this family, whatever blanks stand before them. -/
theorem Family.of?_append {lead : List Node} (hlead : ∀ node ∈ lead, node.isFiller = true)
    {family : Family} {nodes : List Node}
    (hnodes : AreLeaves nodes (family.row.map Css.Token.leaf)) :
    (∀ node ∈ lead ++ nodes, node.isLiteral [','] = false) ∧
      Family.of? (lead ++ nodes) = some family := by
  rw [List.forall_mem_append, Family.of?_eq_some_iff, Css.significant_append hlead]
  refine ⟨⟨fun node hnode => Css.isLiteral_of_isFiller (hlead node hnode) _, ?_⟩,
    Family.holds_row hnodes⟩
  intro node hnode
  obtain ⟨p, leaf, hleaf, rfl⟩ := hnodes.exists_mem hnode
  exact decide_eq_false fun heq => Family.row_cases family leaf hleaf (Option.some.inj heq)

/-- **The tokens of families between commas are these families**, whatever blanks stand before
them. -/
theorem familiesOf?_append {families : List Family} (hne : families ≠ []) {lead nodes : List Node}
    (hlead : ∀ node ∈ lead, node.isFiller = true)
    (hnodes : AreLeaves nodes ((rowOf families).map Css.Token.leaf)) :
    familiesOf? (lead ++ nodes) = some families := by
  induction families generalizing lead nodes with
  | nil => exact absurd rfl hne
  | cons family families ih =>
      cases families with
      | nil =>
          have hone : rowOf [family] = family.row := by simp [rowOf, Css.joined]
          rw [hone] at hnodes
          obtain ⟨hcommas, hfamily⟩ := Family.of?_append hlead hnodes
          rw [familiesOf?, Css.splitCommas_of_no_comma hcommas, List.mapM_cons, hfamily]
          rfl
      | cons family' families =>
          have hrow : rowOf (family :: family' :: families) =
              family.row ++ ([.comma, .blank] ++ rowOf (family' :: families)) :=
            Css.joined_cons _ _ (List.cons_ne_nil _ _)
          rw [hrow, List.map_append, List.map_append] at hnodes
          obtain ⟨before, after, rfl, hbefore, hafter⟩ := hnodes.exists_of_append
          obtain ⟨hcommas, hfamily⟩ := Family.of?_append hlead hbefore
          cases hafter with
          | cons p _ hafter =>
              cases hafter with
              | @cons q _ after _ hafter =>
                  have hrest : familiesOf? ([.leaf q Css.Token.blank.leaf] ++ after) =
                      some (family' :: families) :=
                    ih (List.cons_ne_nil _ _) (List.forall_mem_singleton.mpr rfl) hafter
                  rw [familiesOf?] at hrest
                  rw [← List.append_assoc, familiesOf?, Css.splitCommas_append hcommas rfl,
                    List.mapM_cons, hfamily]
                  show (((splitCommas ([_] ++ after)).mapM Family.of?).bind fun _ => _) = _
                  rw [hrest]
                  rfl

/-- **Families without escapes are read again** from their normal form. -/
theorem familiesOf?_parse {families : List Family} (hne : families ≠ [])
    (hplain : ∀ family ∈ families, family.isPlain = true)
    (hclean : ∀ value, .quoted value ∈ families → '\x00' ∉ value) :
    familiesOf? (Css.parse (Text.joinWith [',', ' '] (families.map Family.write))) =
      some families := by
  have hseparate : Css.Separate (rowOf families) := by
    refine Css.Separate.joined Css.separates_comma (by simpa using hne) ?_
    rw [List.forall_mem_map]
    exact fun family hfamily => Family.separate_row (hplain family hfamily)
  have hchars : ∀ family ∈ families, ∀ c ∈ family.write, Css.IsClean c := by
    intro family hfamily
    cases family with
    | quoted value => exact Css.isClean_writeString (hclean value hfamily)
    | unquoted name =>
        intro c hc
        rcases Family.char_cases (hplain _ hfamily) c hc with rfl | hname
        · decide
        · exact Css.isClean_of_isNameChar hname
  have htext := rowText_rowOf hplain
  have hall : ∀ c ∈ Css.rowText (rowOf families), Css.IsClean c := by
    rw [htext]
    refine Text.forall_mem_joinWith (by simp [Css.IsClean]) ?_
    rw [List.forall_mem_map]
    exact hchars
  have hagain : familiesOf? ([] ++ Css.placed .start (rowOf families)) = some families :=
    familiesOf?_append hne nofun (Css.areLeaves_placed _ _)
  rwa [List.nil_append, ← (hseparate.reads [] nofun).parse_eq (Css.uniform_of_clean hall),
    htext] at hagain

/-! ## The nodes of families -/

/-- What a family is made of: strings and identifiers. -/
inductive IsFamilyLeaf : Leaf → Prop
  | string (value : List Char) : IsFamilyLeaf (.string value)
  | ident (name : List Char) : IsFamilyLeaf (.ident name)

theorem Family.Holds.exists_leaf {nodes : List Node} {family : Family} (h : Holds nodes family) :
    ∀ node ∈ nodes, ∃ p leaf, node = .leaf p leaf ∧ IsFamilyLeaf leaf := by
  intro node hnode
  cases h with
  | quoted p value => exact ⟨p, _, List.mem_singleton.mp hnode, .string value⟩
  | unquoted hne h =>
      obtain ⟨p, leaf, hleaf, rfl⟩ := h.exists_mem hnode
      obtain ⟨name, -, rfl⟩ := List.mem_map.mp hleaf
      exact ⟨p, _, rfl, .ident name⟩

theorem areShadowLengths_eq_false {nodes : List Node}
    (h : ∀ node ∈ nodes, isShadowLength node = false) : areShadowLengths nodes = false := by
  cases nodes with
  | nil => rfl
  | cons node nodes =>
      rw [areShadowLengths, List.all_cons, h node List.mem_cons_self, Bool.false_and,
        Bool.and_false]

/-- Strings and identifiers are no layer of a shadow. -/
theorem isShadowLayer_of_family {part : List Node} {family : Family}
    (h : Family.Holds (significant part) family) : isShadowLayer part = .ok false := by
  have hnode : ∀ node ∈ significant part,
      isShadowLength node = false ∧ ∃ color, isColorNode node = .ok color := by
    intro node hnode
    obtain ⟨p, leaf, rfl, hleaf⟩ := h.exists_leaf node hnode
    cases hleaf with
    | string value => exact ⟨rfl, _, rfl⟩
    | ident name => exact ⟨rfl, _, rfl⟩
  unfold isShadowLayer
  split
  · rfl
  · next first rest hrow =>
      have hsub : first :: rest ⊆ significant part := hrow ▸ List.filter_sublist.subset
      obtain ⟨last, hlast⟩ := (hnode _ (hsub (List.getLast_mem (by simp)))).2
      obtain ⟨lead, hlead⟩ := (hnode _ (hsub List.mem_cons_self)).2
      have hbefore : areShadowLengths (first :: rest).dropLast = false :=
        areShadowLengths_eq_false fun node hmem =>
          (hnode node (hsub (List.mem_of_mem_dropLast hmem))).1
      have hafter : areShadowLengths rest = false :=
        areShadowLengths_eq_false fun node hmem =>
          (hnode node (hsub (List.mem_cons_of_mem _ hmem))).1
      rw [hlast, hlead, hbefore, hafter]
      cases last <;> cases lead <;> rfl

/-- A node is a comma or stands between commas. -/
theorem mem_splitCommas {nodes : List Node} {node : Node} (h : node ∈ nodes) :
    node.isLiteral [','] = true ∨ ∃ part ∈ splitCommas nodes, node ∈ part := by
  induction nodes with
  | nil => cases h
  | cons node' nodes ih =>
      rw [splitCommas]
      split
      · next hcomma =>
          rcases List.mem_cons.mp h with rfl | h
          · exact .inl hcomma
          · refine (ih h).imp_right ?_
            rintro ⟨part, hpart, hmem⟩
            exact ⟨part, List.mem_cons_of_mem _ hpart, hmem⟩
      · split
        · next hnil => exact absurd hnil (splitCommas_ne_nil nodes)
        · next part parts hparts =>
            rcases List.mem_cons.mp h with rfl | h
            · exact .inr ⟨_, List.mem_cons_self, List.mem_cons_self⟩
            · refine (ih h).imp_right ?_
              rintro ⟨found, hfound, hmem⟩
              rw [hparts] at hfound
              rcases List.mem_cons.mp hfound with rfl | hfound
              · exact ⟨_, List.mem_cons_self, List.mem_cons_of_mem _ hmem⟩
              · exact ⟨found, List.mem_cons_of_mem _ hfound, hmem⟩

theorem exists_of_mem_mapM {α β : Type} {f : α → Option β} {xs : List α} {ys : List β}
    (h : xs.mapM f = some ys) : (∀ x ∈ xs, ∃ y ∈ ys, f x = some y) ∧
      ∀ y ∈ ys, ∃ x ∈ xs, f x = some y := by
  induction xs generalizing ys with
  | nil =>
      cases h
      exact ⟨nofun, nofun⟩
  | cons x xs ih =>
      rw [List.mapM_cons] at h
      obtain ⟨y, hy, h⟩ := Option.bind_eq_some_iff.mp h
      obtain ⟨rest, hrest, heq⟩ := Option.bind_eq_some_iff.mp h
      cases heq
      obtain ⟨hxs, hys⟩ := ih hrest
      constructor
      · refine List.forall_mem_cons.mpr ⟨⟨y, List.mem_cons_self, hy⟩, fun x' hx' => ?_⟩
        obtain ⟨y', hy', hfound⟩ := hxs x' hx'
        exact ⟨y', List.mem_cons_of_mem y hy', hfound⟩
      · refine List.forall_mem_cons.mpr ⟨⟨x, List.mem_cons_self, hy⟩, fun y' hy' => ?_⟩
        obtain ⟨x', hx', hfound⟩ := hys y' hy'
        exact ⟨x', List.mem_cons_of_mem x hx', hfound⟩

section

variable {nodes : List Node} {families : List Family} (h : familiesOf? nodes = some families)

include h

/-- The nodes of families are single tokens without faults. -/
theorem exists_leaf_of_families {node : Node} (hnode : node ∈ nodes) :
    ∃ p leaf, node = .leaf p leaf ∧ ∀ fault, leaf ≠ .fault fault := by
  rcases mem_splitCommas hnode with hcomma | ⟨part, hpart, hmem⟩
  · cases node with
    | leaf p leaf =>
        refine ⟨p, leaf, rfl, ?_⟩
        rintro fault rfl
        cases hcomma
    | function => cases hcomma
    | block => cases hcomma
  · obtain ⟨family, -, hfamily⟩ := (exists_of_mem_mapM h).1 part hpart
    cases hfiller : node.isFiller with
    | true =>
        cases node with
        | leaf p leaf =>
            refine ⟨p, leaf, rfl, ?_⟩
            rintro fault rfl
            cases hfiller
        | function => cases hfiller
        | block => cases hfiller
    | false =>
        have hsignificant : node ∈ significant part :=
          List.mem_filter.mpr ⟨hmem, by rw [hfiller]; rfl⟩
        obtain ⟨p, leaf, rfl, hleaf⟩ :=
          (Family.of?_eq_some_iff.mp hfamily).exists_leaf node hsignificant
        refine ⟨p, leaf, rfl, ?_⟩
        rintro fault rfl
        cases hleaf

theorem firstFault?_of_families : Css.firstFault? nodes = none := by
  refine Css.firstFault?_of_forall fun node hnode => ?_
  obtain ⟨p, leaf, rfl, hleaf⟩ := exists_leaf_of_families h hnode
  cases leaf with
  | fault fault => exact absurd rfl (hleaf fault)
  | _ => rfl

theorem isGradient_of_families : isGradient nodes = .ok false := by
  refine isGradient_of_forall fun node hnode => ?_
  obtain ⟨p, leaf, rfl, -⟩ := exists_leaf_of_families h hnode
  rfl

/-- The strings of families stand among the nodes. -/
theorem exists_string_of_families {value : List Char} (hvalue : .quoted value ∈ families) :
    ∃ p, Node.leaf p (.string value) ∈ nodes := by
  obtain ⟨part, hpart, hfamily⟩ := (exists_of_mem_mapM h).2 _ hvalue
  have hholds := Family.of?_eq_some_iff.mp hfamily
  generalize hleft : significant part = left at hholds
  cases hholds with
  | quoted p value =>
      have hmem : Node.leaf p (.string value) ∈ significant part := hleft ▸ List.mem_cons_self
      exact ⟨p, subset_of_mem_splitCommas hpart (List.filter_sublist.subset hmem)⟩

theorem isShadow_of_families : isShadow nodes = .ok false := by
  rw [isShadow]
  cases hparts : splitCommas nodes with
  | nil => exact absurd hparts (splitCommas_ne_nil nodes)
  | cons part parts =>
      obtain ⟨family, -, hfamily⟩ := (exists_of_mem_mapM h).1 part (hparts ▸ List.mem_cons_self)
      rw [areShadowLayers, isShadowLayer_of_family (Family.of?_eq_some_iff.mp hfamily)]
      rfl

end

/-! ## Generic families -/

def Family.isGeneric : Family → Bool
  | .quoted _ => false
  | .unquoted name => genericFamilies.any fun g => Text.asciiLower name = g.toList

theorem space_mem_joinWith {name name' : List Char} (names : List (List Char)) :
    ' ' ∈ Text.joinWith [' '] (name :: name' :: names) := by
  rw [Text.joinWith_cons _ _ (List.cons_ne_nil _ _)]
  simp

theorem isGeneric_eq {part : List Node} {family : Family} (h : Family.of? part = some family) :
    isGeneric part = family.isGeneric := by
  have hholds := Family.of?_eq_some_iff.mp h
  unfold isGeneric
  generalize significant part = nodes at hholds ⊢
  cases hholds with
  | quoted p value => rfl
  | @unquoted _ names hne hleaves =>
      rcases names with - | ⟨name, - | ⟨name', names⟩⟩
      · exact absurd rfl hne
      · cases hleaves with
        | cons p _ hleaves =>
            cases hleaves
            simp [Family.isGeneric, Text.joinWith]
      · cases hleaves with
        | cons p _ hleaves =>
            cases hleaves with
            | cons q _ hleaves =>
                symm
                have hgenerics : ∀ g ∈ genericFamilies, ' ' ∉ g.toList := by decide
                refine List.any_eq_false.mpr fun g hg heq => hgenerics g hg ?_
                rw [← of_decide_eq_true heq]
                exact List.mem_map.mpr ⟨' ', space_mem_joinWith names, rfl⟩

theorem getLast?_any_isGeneric {parts : List (List Node)} {families : List Family}
    (h : parts.mapM Family.of? = some families) :
    parts.getLast?.any isGeneric = families.getLast?.any Family.isGeneric := by
  induction parts generalizing families with
  | nil =>
      cases h
      rfl
  | cons part parts ih =>
      rw [List.mapM_cons] at h
      obtain ⟨family, hfamily, h⟩ := Option.bind_eq_some_iff.mp h
      obtain ⟨rest, hrest, heq⟩ := Option.bind_eq_some_iff.mp h
      cases heq
      cases parts with
      | nil =>
          cases hrest
          exact isGeneric_eq hfamily
      | cons part' parts =>
          cases rest with
          | nil => cases length_of_mapM hrest
          | cons family' rest =>
              rw [List.getLast?_cons_cons, List.getLast?_cons_cons]
              exact ih hrest

/-- Only the families count for whether a row is a list of them, and what its normal form is. -/
theorem families?_of_familiesOf? (nodes : List Node) (name : List Char) :
    families? nodes name = (familiesOf? nodes).bind fun families =>
      if isFamilyName name || families.getLast?.any Family.isGeneric then
        some (families.map Family.write)
      else none := by
  rw [families?_eq, familiesOf?, mapM_family?]
  cases hparts : (splitCommas nodes).mapM Family.of? with
  | none => rfl
  | some families =>
      rw [getLast?_any_isGeneric hparts]
      rfl

/-! ## Families and colours -/

theorem keywordColor?_of_space {name : List Char} (h : ' ' ∈ name) :
    Css.keywordColor? name = none := by
  by_contra hcolor
  have hlower : ' ' ∈ Text.asciiLower name := List.mem_map.mpr ⟨' ', h, rfl⟩
  cases List.all_eq_true.mp (Css.letters_of_keywordColor? hcolor).1 ' ' hlower

/-- Nodes that are one part between commas hold no comma. -/
theorem no_comma_of_splitCommas {nodes part : List Node} (h : splitCommas nodes = [part]) :
    ∀ node ∈ nodes, node.isLiteral [','] = false := by
  induction nodes generalizing part with
  | nil => exact nofun
  | cons node nodes ih =>
      rw [splitCommas] at h
      split at h
      · exact absurd (List.cons.inj h).2 (splitCommas_ne_nil nodes)
      · next hcomma =>
          split at h
          · next hnil => exact absurd hnil (splitCommas_ne_nil nodes)
          · next part' parts hparts =>
              cases h
              exact List.forall_mem_cons.mpr ⟨Bool.eq_false_iff.mpr hcomma, ih hparts⟩

def colorOf? : List Family → Option Css.Color
  | [.unquoted name] => Css.keywordColor? name
  | _ => none

/-- A list of families with a comma in it has more than one. -/
theorem colorOf?_of_comma {nodes : List Node} {families : List Family} {node : Node}
    (h : familiesOf? nodes = some families) (hnode : node ∈ nodes)
    (hcomma : node.isLiteral [','] = true) : colorOf? families = none := by
  unfold colorOf?
  split
  · obtain ⟨part, hpart⟩ := List.length_eq_one_iff.mp (length_of_mapM h).symm
    rw [no_comma_of_splitCommas hpart node hnode] at hcomma
    cases hcomma
  · rfl

/-- A text with a comma among its nodes is no colour: it is the comma alone, or more than one
node. -/
theorem color?_of_comma {cs : List Char} {node : Node} (hnode : node ∈ Css.parse cs)
    (hcomma : node.isLiteral [','] = true) : Css.color? cs = .ok none := by
  have hsignificant : node ∈ significant (Css.parse cs) := by
    refine List.mem_filter.mpr ⟨hnode, ?_⟩
    cases hfiller : node.isFiller with
    | true => rw [Css.isLiteral_of_isFiller hfiller] at hcomma; cases hcomma
    | false => rfl
  unfold Css.color?
  split
  · next only hone =>
      rw [Css.significant_eq_of_parseOne? hone] at hsignificant
      obtain rfl := List.mem_singleton.mp hsignificant
      cases node with
      | leaf p leaf =>
          obtain rfl : leaf = .literal [','] := Option.some.inj (of_decide_eq_true hcomma)
          rfl
      | function => cases hcomma
      | block => cases hcomma
  · rfl

/-- A text that is one family is the colour that its one name is, if it has but one. -/
theorem color?_of_holds {cs : List Char} {family : Family}
    (h : family.Holds (significant (Css.parse cs))) : Css.color? cs = .ok (colorOf? [family]) := by
  unfold Css.color? Css.parseOne?
  generalize significant (Css.parse cs) = left at h ⊢
  cases h with
  | quoted p value => rfl
  | @unquoted _ names hne hleaves =>
      rcases names with - | ⟨name, - | ⟨name', names⟩⟩
      · exact absurd rfl hne
      · cases hleaves with
        | cons p _ hleaves =>
            cases hleaves
            simp [colorOf?, Text.joinWith, Node.color?]
      · cases hleaves with
        | cons p _ hleaves =>
            cases hleaves with
            | cons q _ hleaves =>
                exact congrArg Except.ok (keywordColor?_of_space (space_mem_joinWith names)).symm

/-- **Only the families count for whether a text is a colour.** -/
theorem color?_of_families {cs : List Char} {families : List Family}
    (h : familiesOf? (Css.parse cs) = some families) :
    Css.color? cs = .ok (colorOf? families) := by
  by_cases hcomma : ∃ node ∈ Css.parse cs, node.isLiteral [','] = true
  -- a comma is no colour, and there are families on both sides of it
  · obtain ⟨node, hnode, hcomma⟩ := hcomma
    rw [color?_of_comma hnode hcomma, colorOf?_of_comma h hnode hcomma]
  · have hnone : ∀ node ∈ Css.parse cs, node.isLiteral [','] = false := fun node hnode =>
      Bool.eq_false_iff.mpr fun hliteral => hcomma ⟨node, hnode, hliteral⟩
    rw [familiesOf?, Css.splitCommas_of_no_comma hnone, List.mapM_cons] at h
    obtain ⟨family, hfamily, heq⟩ := Option.bind_eq_some_iff.mp h
    cases heq
    exact color?_of_holds (Family.of?_eq_some_iff.mp hfamily)

/-! ## The ends of a normal form -/

/-- A family without escapes begins with a character other than a hash. -/
theorem Family.exists_write_eq {family : Family} (h : family.isPlain = true) :
    ∃ c cs, family.write = c :: cs ∧ c ≠ '#' := by
  cases family with
  | quoted value => exact ⟨'"', _, rfl, by decide⟩
  | unquoted name =>
      obtain ⟨word, words, hwords⟩ := List.exists_cons_of_ne_nil (List.splitOn_ne_nil ' ' name)
      have hword := List.all_eq_true.mp h word (by rw [wordsOf, hwords]; exact List.mem_cons_self)
      obtain ⟨more, hmore⟩ := Text.exists_append_joinWith [' '] word words
      rw [← hwords, ← wordsOf, joinWith_wordsOf] at hmore
      obtain ⟨hstarts, hname⟩ := Css.isPlainWord_iff.mp hword
      cases word with
      | nil => cases hstarts
      | cons c cs =>
          refine ⟨c, cs ++ more, hmore, ?_⟩
          rintro rfl
          cases hname _ List.mem_cons_self

theorem exists_joinWith_eq {families : List Family} (hne : families ≠ [])
    (h : ∀ family ∈ families, family.isPlain = true) :
    ∃ c cs, Text.joinWith [',', ' '] (families.map Family.write) = c :: cs ∧ c ≠ '#' := by
  obtain ⟨family, more, rfl⟩ := List.exists_cons_of_ne_nil hne
  obtain ⟨c, cs, hwrite, hhash⟩ := Family.exists_write_eq (h family List.mem_cons_self)
  obtain ⟨rest, hrest⟩ :=
    Text.exists_append_joinWith [',', ' '] family.write (more.map Family.write)
  rw [hwrite] at hrest
  exact ⟨c, cs ++ rest, by rw [List.map_cons, hwrite, hrest]; rfl, hhash⟩

/-- A family without escapes brings no flag about at its end. -/
theorem not_endsInFlag_of_family {family : Family} (h : family.isPlain = true) :
    ¬ EndsInFlag family.write := by
  cases family with
  | quoted value =>
      intro hflag
      have hquote : IsBarrier '"' := ⟨by decide, by decide, by decide⟩
      have hends : Family.write (.quoted value) =
          ('"' :: value.flatMap Css.writeStringChar) ++ '"' :: [] := Css.writeString_chars value
      rw [hends] at hflag
      exact not_endsInFlag_of_not_mem List.not_mem_nil (endsInFlag_of_barrier hquote hflag)
  | unquoted name =>
      refine not_endsInFlag_of_not_mem fun hmem => ?_
      rcases Family.char_cases h _ hmem with hspace | hname
      · cases hspace
      · cases hname

/-- The normal form of families without escapes ends in no flag. -/
theorem not_endsInFlag_of_families {families : List Family}
    (h : ∀ family ∈ families, family.isPlain = true) :
    ¬ EndsInFlag (Text.joinWith [',', ' '] (families.map Family.write)) := by
  induction families with
  | nil => exact not_endsInFlag_of_not_mem List.not_mem_nil
  | cons family families ih =>
      rw [List.forall_mem_cons] at h
      cases families with
      | nil => simpa [Text.joinWith] using not_endsInFlag_of_family h.1
      | cons family' families =>
          have hcomma : IsBarrier ',' := ⟨by decide, by decide, by decide⟩
          rw [List.map_cons, Text.joinWith_cons _ _ (by simp)]
          intro hflag
          have hrest : EndsInFlag ([' '] ++ Text.joinWith [',', ' ']
              ((family' :: families).map Family.write)) :=
            endsInFlag_of_barrier hcomma hflag
          exact ih h.2 (endsInFlag_of_blank_append (List.forall_mem_singleton.mpr
            (by decide)) hrest)

/-- **Families are recognized** if no colour is, by their name or by a generic one at the end. -/
theorem recognizeNodes_of_families {nodes : List Node} {families : List Family}
    (h : familiesOf? nodes = some families) {name : List Char}
    (hhint : (isFamilyName name || families.getLast?.any Family.isGeneric) = true)
    (candidate : List Char) :
    recognizeNodes candidate name nodes =
      .ok (some ⟨.fontFamily,
        String.ofList (Text.joinWith [',', ' '] (families.map Family.write))⟩) := by
  have hfamilies : families? nodes name = some (families.map Family.write) := by
    rw [families?_of_familiesOf?, h, Option.bind_some, if_pos hhint]
  rw [recognizeNodes, isGradient_of_families h, isShadow_of_families h, hfamilies]
  rfl

/-- A text that is classified as font families holds these families. -/
theorem families_of_classify {raw : List Char} {name : Option (List Char)} {c : Classified}
    (h : classify raw name = .ok c) (hkind : c.kind = .fontFamily) :
    ∃ families, familiesOf? (Css.parse (bareText raw)) = some families ∧
      (isFamilyName (Text.asciiLower (name.getD [])) ||
        families.getLast?.any Family.isGeneric) = true ∧
      c = ⟨.fontFamily, String.ofList (Text.joinWith [',', ' '] (families.map Family.write))⟩ ∧
      Css.color? (bareText raw) = .ok none := by
  obtain ⟨hcolor, hcases⟩ := recognizes_of_classify h (by rw [hkind]; decide)
    (by rw [hkind]; decide)
  generalize hresult : Except.ok (some c) = result at hcases
  cases hcases with
  | gradientFault => cases hresult
  | shadowFault => cases hresult
  | gradient => cases hresult; cases hkind
  | shadow => cases hresult; cases hkind
  | lengths =>
      rcases kind_of_lengths? (Except.ok.inj hresult).symm with hlength | hlength <;>
        · rw [hkind] at hlength
          cases hlength
  | families _ _ hfamilies =>
      cases hresult
      rw [families?_of_familiesOf?] at hfamilies
      obtain ⟨families, hof, hwritten⟩ := Option.bind_eq_some_iff.mp hfamilies
      split at hwritten
      · next hhint =>
          cases hwritten
          exact ⟨families, hof, hhint, rfl, color?_of_normalColor? hcolor⟩
      · cases hwritten

/-- **The normal form of font families.** It holds the strings of the list anew and the other names
as they are. If none of these needs an escape, it is read as the same families; and then it is
classified as itself, unless a blank stands at its end or it reads as digits of a colour under a
name that asks for one. -/
theorem families_settled {raw : List Char} {name : Option (List Char)} {c : Classified}
    (h : classify raw name = .ok c) (hkind : c.kind = .fontFamily) :
    ∃ families, familiesOf? (Css.parse (bareText raw)) = some families ∧
      c.value.toList = Text.joinWith [',', ' '] (families.map Family.write) ∧
      ((∀ family ∈ families, family.isPlain = true) →
        familiesOf? (Css.parse c.value.toList) = some families ∧
        (Text.strip c.value.toList = c.value.toList →
          (NamesColor name → bareDigits? c.value.toList = none) →
          classify c.value.toList name = .ok c)) := by
  obtain ⟨families, hfamilies, hhint, rfl, hcolor⟩ := families_of_classify h hkind
  have hne : families ≠ [] := by
    rintro rfl
    exact splitCommas_ne_nil _ (List.length_eq_zero_iff.mp (length_of_mapM hfamilies).symm)
  refine ⟨families, hfamilies, String.toList_ofList, fun hplain => ?_⟩
  obtain ⟨q, hspans⟩ := Css.parse_spans (firstFault?_of_families hfamilies)
  have hclean : ∀ value, .quoted value ∈ families → '\x00' ∉ value := by
    intro value hvalue
    obtain ⟨p, hmem⟩ := exists_string_of_families hfamilies hvalue
    exact hspans.nul_not_mem (fun hnul => (Css.isClean_of_mem_uniform hnul).2.2 rfl) hmem
  have hagain := familiesOf?_parse hne hplain hclean
  obtain ⟨d, ds, hbegins, hhash⟩ := exists_joinWith_eq hne hplain
  rw [String.toList_ofList]
  refine ⟨hagain, fun hstrip hdigits => ?_⟩
  -- what is left is that nothing but the rule for families fits the text that is written
  generalize htext : Text.joinWith [',', ' '] (families.map Family.write) = text at *
  have hbare : bareText text = text := by
    rw [bareText, hstrip, stripFlags_of_bare hstrip (htext ▸ not_endsInFlag_of_families hplain)]
  have hnone : normalColor? text (Text.asciiLower (name.getD [])) = .ok none := by
    have hcolorDigits : colorDigits? text (Text.asciiLower (name.getD [])) = none := by
      have hnohash : hashDigits? text = none := by
        unfold hashDigits?
        split
        · exact absurd (List.cons.inj hbegins).1.symm hhash
        · rfl
      rw [colorDigits?, hnohash]
      show (if isColorName _ then bareDigits? text else none) = none
      split
      · next hcolorName => exact hdigits (isColorName_iff.mp hcolorName)
      · rfl
    rw [normalColor?_eq, hcolorDigits, color?_of_families hagain, ← color?_of_families hfamilies,
      hcolor]
    rfl
  have hempty : text ≠ [] := hbegins ▸ List.cons_ne_nil d ds
  rw [classify_eq, hbare, recognize, List.isEmpty_eq_false_iff.mpr hempty, hnone]
  show (recognizeNodes _ _ _).map _ = _
  rw [recognizeNodes_of_families hagain hhint, htext]
  rfl

/-- A string in single quotes, a name of two identifiers and a generic family. -/
theorem families_settled_mixedQuotes :
    classify "'A \\22 b',My/**/Font , serif".toList none =
        .ok ⟨.fontFamily, "\"A \\\"b\", My Font, serif"⟩ ∧
      classify "\"A \\\"b\", My Font, serif".toList none =
        .ok ⟨.fontFamily, "\"A \\\"b\", My Font, serif"⟩ := by
  have hclass : classify "'A \\22 b',My/**/Font , serif".toList none =
      .ok ⟨.fontFamily, "\"A \\\"b\", My Font, serif"⟩ := by
    decide +kernel
  have hof : familiesOf? (Css.parse (bareText "'A \\22 b',My/**/Font , serif".toList)) =
      some [.quoted "A \"b".toList, .unquoted "My Font".toList, .unquoted "serif".toList] := by
    decide +kernel
  obtain ⟨families, hfamilies, -, hagain⟩ := families_settled hclass rfl
  cases hof.symm.trans hfamilies
  have hname : NamesColor none → bareDigits? "\"A \\\"b\", My Font, serif".toList = none :=
    fun _ => by decide +kernel
  exact ⟨hclass, (hagain (by decide +kernel)).2 (by decide +kernel) hname⟩

end TokenCatalog.Value
