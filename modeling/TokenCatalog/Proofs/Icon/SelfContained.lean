import TokenCatalog.Proofs.Catalog.Latest
import TokenCatalog.Proofs.Except
import TokenCatalog.Proofs.Icon.InPlace
import TokenCatalog.Proofs.Xml.Reread
import TokenCatalog.Proofs.Xml.Tidy

/-!
# Icons are markup of their own

The markup of an icon says the element that the icon is to be, in well-formed markup that is read
without its file. Main statements:

* `contents_markup`: what the markup says;
* `document_markup`: the markup of an icon that is supplied with its prefixes is well formed on its
  own;
* `parseFile_selfContained`: what is known of the markup of every icon of a file.
-/

namespace TokenCatalog.Icon

open TokenCatalog.Xml

variable {name : Name} {attributes : List (List Char × List Char)} {children : List Node}

/-! ## The root of a symbol -/

theorem exists_escapeQuoted {c : Char} (hc : c ≠ '\n') :
    ∃ d more, escapeQuoted c = d :: more ∧ d ≠ '\n' := by
  unfold escapeQuoted
  split
  · exact ⟨'&', _, rfl, by decide⟩
  · split
    · exact ⟨'&', _, rfl, by decide⟩
    · exact exists_escape hc

theorem spells_escapeQuoted {value : List Char} (h : Xml.isLegible value = true) :
    Spells (some '"') (readAs true value) (value.flatMap escapeQuoted) := by
  have hquot : Refers '"' "quot".toList := .inl rfl
  have hhex : ∀ d ∈ ['2', '7'], Text.isHex d = true := List.all_eq_true.mp rfl
  have hapos : Refers '\'' "#x27".toList := .inr ⟨['2', '7'], by decide, hhex, rfl, rfl, rfl⟩
  refine spells_flatMap ?_ rfl rfl fun c hc => exists_escapeQuoted hc
  intro c hc hreturn more cs hmore
  unfold escapeQuoted
  split
  · next heq =>
    subst heq
    exact .reference hquot hmore
  · next hne =>
    split
    · next heq =>
      subst heq
      exact .reference hapos hmore
    · refine spells_escape (isAllowed_of_mem h hc) hreturn ?_ hmore
      exact fun heq => hne (Option.some_inj.mp heq).symm

theorem attributes_writeAttribute {key value written : List Char}
    (hkey : (Name.read key).isSound = true)
    (hvalue : Spells (some '"') value written) :
    Attributes [(key, value)] (writeAttribute key written) := by
  have hquoted : Quoted value ('"' :: written ++ ['"']) := ⟨'"', .inl rfl, written, rfl, hvalue⟩
  simpa [writeAttribute] using Attributes.cons hkey hquoted .nil

def writeHandedOn (attributes : List (List Char × List Char)) : List Char :=
  symbolAttributes.flatMap fun key =>
    match attribute? key attributes with
    | some value => writeAttribute key.toList (value.flatMap escapeQuoted)
    | none => []

def writeRoot (attributes : List (List Char × List Char)) (children : List Node) : List Char :=
  writeAttribute "xmlns".toList svgNamespace ++
    (if Text.occursIn linkMark (writeNodes children) then
      writeAttribute "xmlns:xlink".toList linkNamespace else []) ++
    writeHandedOn attributes

theorem wrapSymbol_eq :
    wrapSymbol attributes children = '<' :: Name.text ⟨none, "svg".toList⟩ ++
      writeRoot attributes children ++
      '>' :: writeNodes children ++ '<' :: '/' :: Name.text ⟨none, "svg".toList⟩ ++ ['>'] := by
  have hwrap : wrapSymbol attributes children = "<svg".toList ++ writeRoot attributes children ++
      '>' :: writeNodes children ++ "</svg>".toList := by
    unfold writeRoot writeHandedOn
    rw [← List.append_assoc, ← List.append_assoc]
    rfl
  have hclose : "</svg>".toList = '<' :: '/' :: Name.text ⟨none, "svg".toList⟩ ++ ['>'] := rfl
  rw [hwrap, hclose, ← List.append_assoc]
  rfl

theorem attributes_handedOn
    (h : ∀ key value, attribute? key attributes = some value → Xml.isLegible value = true) :
    Attributes (attributesAsRead (handedOn attributes)) (writeHandedOn attributes) := by
  have hsound : ∀ key ∈ symbolAttributes, (Name.read key.toList).isSound = true := by decide
  unfold handedOn writeHandedOn
  generalize symbolAttributes = keys at hsound
  induction keys with
  | nil => exact .nil
  | cons key keys ih =>
      obtain ⟨hkey, hkeys⟩ := List.forall_mem_cons.mp hsound
      have hrest := ih hkeys
      cases hattribute : attribute? key attributes with
      | none => simpa [hattribute] using hrest
      | some value =>
          have hfirst := attributes_writeAttribute hkey (spells_escapeQuoted (h _ _ hattribute))
          simpa [hattribute, attributesAsRead] using hfirst.append hrest

/-- What is known of the attributes of an element that is legible. -/
theorem legible_iff :
    (Node.element name attributes children).isLegible = true ↔
      name.isSound = true ∧ (∀ a ∈ attributes,
        (Name.read a.1).isSound = true ∧ Xml.isLegible a.2 = true) ∧
          areLegible children = true := by
  simp [Node.isLegible, and_assoc]

theorem tidy_iff :
    (Node.element name attributes children).isTidy = true ↔
      (attributes.map Prod.fst).Nodup ∧ areTidy children = true := by
  simp [Node.isTidy]

theorem legible_attribute?
    (h : ∀ a ∈ attributes, (Name.read a.1).isSound = true ∧ Xml.isLegible a.2 = true) {key : String}
    {value : List Char} (hvalue : attribute? key attributes = some value) :
    Xml.isLegible value = true := by
  obtain ⟨found, hlookup, hnonEmpty⟩ := Option.bind_eq_some_iff.mp hvalue
  obtain ⟨before, after, rfl, -⟩ := List.lookup_eq_some_iff.mp hlookup
  have hfound := (h (key.toList, found) (by simp)).2
  unfold nonEmpty? at hnonEmpty
  split at hnonEmpty
  · cases hnonEmpty
  · exact Option.some_inj.mp hnonEmpty ▸ hfound

/-! ## What the markup says -/

theorem attributes_writeRoot
    (h : ∀ key value, attribute? key attributes = some value → Xml.isLegible value = true) :
    Attributes (attributesAsRead (rootAttributes symbolName attributes children))
      (writeRoot attributes children) := by
  have hxmlns : Attributes (attributesAsRead [("xmlns".toList, svgNamespace)])
      (writeAttribute "xmlns".toList svgNamespace) :=
    attributes_writeAttribute (by decide) (spells_self (List.all_eq_true.mp rfl))
  have hxlink : Attributes
      (attributesAsRead
        (if MentionsLinks children then [("xmlns:xlink".toList, linkNamespace)] else []))
      (if Text.occursIn linkMark (writeNodes children) then
        writeAttribute "xmlns:xlink".toList linkNamespace else []) := by
    by_cases hlinks : MentionsLinks children
    · rw [if_pos hlinks, if_pos (Text.occursIn_iff.mpr hlinks)]
      exact attributes_writeAttribute (by decide) (spells_self (List.all_eq_true.mp rfl))
    · rw [if_neg hlinks, if_neg fun hmark => hlinks (Text.occursIn_iff.mp hmark)]
      exact .nil
  have hroot : rootAttributes symbolName attributes children = [("xmlns".toList, svgNamespace)] ++
      (if MentionsLinks children then [("xmlns:xlink".toList, linkNamespace)] else []) ++
      handedOn attributes :=
    if_pos rfl
  rw [hroot, attributesAsRead, List.map_append, List.map_append]
  exact (hxmlns.append hxlink).append (attributes_handedOn h)

/-- A symbol's content between the tags of its root says the icon. -/
theorem contents_wrapSymbol (htidy : (Node.element symbolName attributes children).isTidy = true)
    (h : (Node.element symbolName attributes children).isLegible = true) :
    Contents [(fragment symbolName attributes children).asRead]
      (wrapSymbol attributes children) := by
  obtain ⟨hattributesTidy, hchildrenTidy⟩ := tidy_iff.mp htidy
  obtain ⟨-, hattributes, hchildren⟩ := legible_iff.mp h
  have hsvg : Name.isSound ⟨none, "svg".toList⟩ = true := by decide
  have hnodup : ((attributesAsRead (rootAttributes symbolName attributes children)).map
      Prod.fst).Nodup := by
    rw [names_attributesAsRead]
    exact rootAttributes_nodup hattributesTidy
  have htag : Attributes (attributesAsRead (rootAttributes symbolName attributes children))
      (writeRoot attributes children) :=
    attributes_writeRoot fun key value hvalue => legible_attribute? hattributes hvalue
  rw [fragment, rootName, if_pos rfl, wrapSymbol_eq, Node.asRead]
  exact .element hsvg hnodup (List.Perm.refl _) htag
    (contents_writeNodes hchildrenTidy hchildren) .nil

/-- A tidy and legible element is so as an icon. -/
theorem legible_fragment (hname : name ≠ symbolName)
    (htidy : (Node.element name attributes children).isTidy = true)
    (h : (Node.element name attributes children).isLegible = true) :
    (fragment name attributes children).isTidy = true ∧
      (fragment name attributes children).isLegible = true := by
  obtain ⟨hnodup, hchildrenTidy⟩ := tidy_iff.mp htidy
  obtain ⟨hsound, hattributes, hchildren⟩ := legible_iff.mp h
  have hxmlns : (Name.read "xmlns".toList).isSound = true ∧
      Xml.isLegible svgNamespace = true := by decide
  have hxlink : (Name.read "xmlns:xlink".toList).isSound = true ∧
      Xml.isLegible linkNamespace = true := by
    decide
  have hroot : ∀ a ∈ rootAttributes name attributes children,
      (Name.read a.1).isSound = true ∧ Xml.isLegible a.2 = true := by
    intro a ha
    rcases mem_rootAttributes ha with rfl | rfl | ⟨hsymbol, -⟩ | ⟨-, ha⟩
    · exact hxmlns
    · exact hxlink
    · exact absurd hsymbol hname
    · exact hattributes a ha
  refine ⟨tidy_iff.mpr ⟨rootAttributes_nodup hnodup, hchildrenTidy⟩,
    legible_iff.mpr ⟨?_, hroot, hchildren⟩⟩
  rwa [rootName, if_neg hname]

/-- The markup of an icon. -/
def markup (name : Name) (attributes : List (List Char × List Char)) (children : List Node) :
    List Char :=
  if name = symbolName then wrapSymbol attributes children else standAlone name attributes children

theorem standAlone_eq (hname : name ≠ symbolName) :
    standAlone name attributes children = (fragment name attributes children).write := by
  rw [fragment, rootName, if_neg hname, rootAttributes, if_neg hname, standAlone]
  dsimp only
  by_cases hlinks : MentionsLinks children
  · rw [if_pos hlinks, if_pos (Text.occursIn_iff.mpr hlinks)]
  · rw [if_neg hlinks, if_neg fun hmark => hlinks (Text.occursIn_iff.mp hmark)]

/-- **The markup of an icon says the icon**, if the element that it is made of can be written at
all. -/
theorem contents_markup (htidy : (Node.element name attributes children).isTidy = true)
    (h : (Node.element name attributes children).isLegible = true) :
    Contents [(fragment name attributes children).asRead] (markup name attributes children) := by
  by_cases hname : name = symbolName
  · subst hname
    rw [markup, if_pos rfl]
    exact contents_wrapSymbol htidy h
  · rw [markup, if_neg hname, standAlone_eq hname]
    obtain ⟨hfragmentTidy, hfragment⟩ := legible_fragment hname htidy h
    have hcontents := contents_write hfragmentTidy hfragment rfl .nil
    rwa [List.append_nil] at hcontents

/-- **The markup of an icon is markup of its own**, if the icon is supplied with its prefixes, that
of links stands in the file for these, and the names in the file keep to what namespaces ask of
them. -/
theorem document_markup (htidy : (Node.element name attributes children).isTidy = true)
    (h : (Node.element name attributes children).isLegible = true)
    (hsupplied : IsSupplied name attributes children) {scope : Scope}
    (hplace : ∀ space ∈ needed name attributes children,
      (around name attributes scope).lookup? space = linkScope.lookup? space)
    (hnames : (Node.element name attributes children).asRead.isNamespaced scope = true) :
    Document (fragment name attributes children).asRead (markup name attributes children) where
  contents := contents_markup htidy h
  isElement := ⟨_, _, _, rfl⟩
  declared := by
    rw [free_asRead]
    exact free_fragment_iff.mpr hsupplied
  namespaced := isNamespaced_fragment (tidy_iff.mp htidy).1 hsupplied hplace hnames

/-- A symbol with a link in it, within an element that declares the prefix of links. -/
example :
    let link := Node.element ⟨none, "use".toList⟩ [("xlink:href".toList, "#b".toList)] []
    Document (fragment symbolName [] [link]).asRead (markup symbolName [] [link]) := by
  intro link
  have hplace : ∀ space ∈ needed symbolName [] [link],
      (around symbolName [] linkScope).lookup? space = linkScope.lookup? space := by
    decide +kernel
  exact document_markup (by decide +kernel) (by decide +kernel) (by decide +kernel) hplace
    (by decide +kernel)

/-- What is known of an icon without its file. -/
structure StandsAlone (name : Name) (attributes : List (List Char × List Char))
    (children : List Node) :
    Prop where
  /-- Its view box and size are those of its element. -/
  size : ∀ key ∈ symbolAttributes,
    attribute? key (rootAttributes name attributes children) = attribute? key attributes
  /-- It declares all prefixes that it uses if and only if it is supplied with those that it
  needs. -/
  prefixes : (∀ space ∈ (fragment name attributes children).free,
    space = implicitDeclaration.space) ↔
    IsSupplied name attributes children
  /-- Its markup says it, with the content of the element, if this can be written at all. -/
  written : (Node.element name attributes children).isLegible = true →
    Contents [(fragment name attributes children).asRead] (markup name attributes children)
  /-- If it is supplied, and the names in the file have a meaning by declarations that an icon has
  too, then its markup is well formed with its names, and it is what the reader meets there. -/
  read : (Node.element name attributes children).isLegible = true →
    IsSupplied name attributes children →
    ∀ scope : Scope, (∀ space ∈ needed name attributes children,
      (around name attributes scope).lookup? space = linkScope.lookup? space) →
    (Node.element name attributes children).asRead.isNamespaced scope = true →
    Document (fragment name attributes children).asRead (markup name attributes children) ∧
      ∃ met, events (markup name attributes children) = .ok met ∧
        Tells [] [(fragment name attributes children).asRead] met

theorem standsAlone (htidy : (Node.element name attributes children).isTidy = true) :
    StandsAlone name attributes children where
  size _ := attribute?_rootAttributes
  prefixes := free_fragment_iff
  written := contents_markup htidy
  read := by
    intro hlegible hsupplied scope hplace hnames
    have hdocument := document_markup htidy hlegible hsupplied hplace hnames
    exact ⟨hdocument, events_document hdocument⟩

/-! ## The icons of a file -/

/-- The element of a tree that an icon is made of: a symbol or a graphic with a name. -/
structure IsDefinition (root : Node) (name : Name) (attributes : List (List Char × List Char))
    (children : List Node) (icon : List Char) : Prop where
  isElement : Node.element name attributes children ∈ root.elements
  base : name.base = "symbol".toList ∨ name.base = "svg".toList
  named : nameOf? attributes = some icon

theorem isDefinition_of_icon? {root node : Node} (hnode : node ∈ root.elements)
    {icon : List Char × List Char} (h : icon? node = some icon) :
    ∃ name attributes children, IsDefinition root name attributes children icon.1 ∧
      icon.2 = markup name attributes children := by
  unfold icon? at h
  split at h
  · next name attributes children =>
    split at h
    · next hbase =>
      obtain ⟨found, hnamed, rfl⟩ := Option.map_eq_some_iff.mp h
      rw [Bool.or_eq_true, decide_eq_true_eq, decide_eq_true_eq] at hbase
      exact ⟨name, attributes, children, ⟨hnode, hbase, hnamed⟩, rfl⟩
    · cases h
  · cases h

/-- Every token of a vector file is that of an icon, made of an element in the tree of the file. -/
theorem exists_isDefinition {file : SourceFile} {found : Extraction}
    (h : parseFile file = .ok found)
    {group : TokenGroup} (hgroup : group ∈ found.tokenGroups) {token : Token}
    (htoken : token ∈ group.tokens) :
    ∃ text root name attributes children icon, file.text = .ok text ∧
      parse? text = .ok (some root) ∧
      IsDefinition root name attributes children icon ∧
      token = tokenOf file.filename (icon, markup name attributes children) := by
  obtain ⟨text, htext, h⟩ := exists_of_bind_eq_ok h
  obtain ⟨made, hicons, h⟩ := exists_of_bind_eq_ok h
  have hmem : token ∈ latest (made.map (tokenOf file.filename)) := by
    split at h
    · cases h
      cases hgroup
    · cases h
      obtain rfl := List.mem_singleton.mp hgroup
      exact htoken
  obtain ⟨-, before, after, hmade, -⟩ := lastBy_eq_some_iff.mp (lastBy_of_mem_latest hmem)
  obtain ⟨icon, hicon, rfl⟩ := List.mem_map.mp
    (hmade ▸ List.mem_append_right before List.mem_cons_self)
  obtain ⟨root?, hroot, rfl⟩ := exists_of_map_eq_ok (eq_ok_of_mapError hicons)
  obtain ⟨node, hnode, hmakes⟩ := List.mem_filterMap.mp hicon
  obtain ⟨root, hroot?, hnode⟩ := List.mem_flatMap.mp hnode
  replace hroot? := Option.mem_toList.mp hroot?
  obtain ⟨name, attributes, children, hdefinition, hmarkup⟩ := isDefinition_of_icon? hnode hmakes
  refine ⟨text, root, name, attributes, children, icon.1, eq_ok_of_mapError htext, ?_,
    hdefinition, ?_⟩
  · rw [hroot, hroot?]
  · rw [← hmarkup]

/-- **Every icon of a vector file is markup of its own if it is supplied with its prefixes.** -/
theorem parseFile_selfContained {file : SourceFile} {found : Extraction}
    (h : parseFile file = .ok found)
    {group : TokenGroup} (hgroup : group ∈ found.tokenGroups) {token : Token}
    (htoken : token ∈ group.tokens) :
    ∃ text root name attributes children icon, file.text = .ok text ∧
      parse? text = .ok (some root) ∧
      IsDefinition root name attributes children icon ∧
      token = tokenOf file.filename (icon, markup name attributes children) ∧
      StandsAlone name attributes children := by
  obtain ⟨text, root, name, attributes, children, icon, htext, hroot, hdefinition, htoken⟩ :=
    exists_isDefinition h hgroup htoken
  have htidy := isTidy_of_parse? hroot hdefinition.isElement
  exact ⟨text, root, name, attributes, children, icon, htext, hroot, hdefinition, htoken,
    standsAlone htidy⟩

def linkedSprite : List Char :=
  ("<svg xmlns:xlink=\"http://www.w3.org/1999/xlink\"><symbol id=\"a\">" ++
    "<use xlink:href=\"#b\"/></symbol></svg>").toList

def linkedIcon : List Char :=
  ("<svg xmlns=\"http://www.w3.org/2000/svg\" xmlns:xlink=\"http://www.w3.org/1999/xlink\">" ++
    "<use xlink:href=\"#b\"/></svg>").toList

theorem parseFile_selfContained_linkedSprite :
    ∃ found, parseFile ⟨"sprite.svg", .text (String.ofList linkedSprite)⟩ = .ok found ∧
      ∃ group ∈ found.tokenGroups, tokenOf "sprite.svg" ("a".toList, linkedIcon) ∈ group.tokens ∧
      ∃ root name attributes children icon, parse? linkedSprite = .ok (some root) ∧
        IsDefinition root name attributes children icon ∧
        tokenOf "sprite.svg" ("a".toList, linkedIcon) =
          tokenOf "sprite.svg" (icon, markup name attributes children) ∧
        StandsAlone name attributes children := by
  have hmade : (icons linkedSprite).toOption = some [("a".toList, linkedIcon)] := by decide +kernel
  cases hicons : icons linkedSprite with
  | error fault =>
      rw [hicons] at hmade
      cases hmade
  | ok made =>
      rw [hicons] at hmade
      obtain rfl := Option.some.inj hmade
      have hfound : parseFile ⟨"sprite.svg", .text (String.ofList linkedSprite)⟩ =
          .ok { sourceType := .svg,
                tokenGroups := [⟨.svg, [tokenOf "sprite.svg" ("a".toList, linkedIcon)]⟩] } := by
        refine bind_eq_ok_iff.mpr
          ⟨linkedSprite, ?_, bind_eq_ok_iff.mpr ⟨[("a".toList, linkedIcon)], ?_, rfl⟩⟩
        · simp [SourceFile.text, Except.mapError]
        · rw [hicons]
          rfl
      refine ⟨_, hfound, _, List.mem_singleton_self _, List.mem_singleton_self _, ?_⟩
      obtain ⟨text, root, name, attributes, children, icon, htext, hparsed, hrest⟩ :=
        parseFile_selfContained hfound (List.mem_singleton_self _) (List.mem_singleton_self _)
      simp only [SourceFile.text, String.toList_ofList, Except.ok.injEq] at htext
      exact ⟨root, name, attributes, children, icon, htext ▸ hparsed, hrest⟩

end TokenCatalog.Icon
