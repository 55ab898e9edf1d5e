import TokenCatalog.Proofs.Icon.Fragment
import TokenCatalog.Proofs.Xml.Namespaces

/-!
# Icons and their place

In its file an element stands among declarations of others. Taken out of it, an icon has its own
only. Main statements:

* `lookup?_rootAttributes`: what a prefix stands for in the file, it stands for in the icon;
* `isNamespaced_fragment`: so the names of an icon have a meaning if they have one in the file.
-/

namespace TokenCatalog.Icon

open TokenCatalog.Xml

variable {name : Name} {attributes : List (List Char × List Char)} {children : List Node}

/-- The scope that an icon is taken out of, given that of its element: of a symbol it is the content
that is taken. -/
def around (name : Name) (attributes : List (List Char × List Char)) (scope : Scope) : Scope :=
  if name = symbolName then declarationsOf (attributesAsRead attributes) :: scope else scope

/-- A scope in which the prefix of links stands for what it stands for in an icon. -/
def linkScope : Scope :=
  [[⟨"xlink".toList, linkNamespace⟩]]

/-! ## The declarations of an icon -/

theorem mem_declarationsOf_attributesAsRead {a : List Char × List Char} (ha : a ∈ attributes)
    {space : List Char} (h : declared? a.1 = some space) :
    ⟨space, readAs true a.2⟩ ∈ declarationsOf (attributesAsRead attributes) :=
  List.mem_filterMap.mpr ⟨(a.1, readAs true a.2), List.mem_map_of_mem ha, by rw [h]; rfl⟩

/-- The declarations of an icon count if those of its element do. -/
theorem counts_rootAttributes
    (h : ∀ d ∈ declarationsOf (attributesAsRead attributes),
      counts d.space (d.namespaceName.map Char.toNat) = true) :
    ∀ d ∈ declarationsOf (attributesAsRead (rootAttributes name attributes children)),
      counts d.space (d.namespaceName.map Char.toNat) = true := by
  intro d hd
  obtain ⟨b, hb, hdeclares⟩ := List.mem_filterMap.mp hd
  obtain ⟨space, hspace, rfl⟩ := Option.map_eq_some_iff.mp hdeclares
  obtain ⟨a, ha, rfl⟩ := List.mem_map.mp hb
  rcases mem_rootAttributes ha with rfl | rfl | ⟨-, ha⟩ | ⟨-, ha⟩
  · rw [declared?_xmlns] at hspace
    cases hspace
    decide
  · rw [declared?_xlink] at hspace
    cases hspace
    decide
  · rw [(plain_of_mem_handedOn ha).1] at hspace
    cases hspace
  · exact h _ (mem_declarationsOf_attributesAsRead ha hspace)

/-- An icon whose content mentions links declares their prefix, unless its element does. -/
theorem mem_rootAttributes_xlink (hlinks : MentionsLinks children)
    (h : name = symbolName ∨ "xlink".toList ∉ declaredBy attributes) :
    ("xmlns:xlink".toList, linkNamespace) ∈ rootAttributes name attributes children := by
  unfold rootAttributes
  split
  · simp
  · next hname =>
    have hnotDeclared := h.resolve_left hname
    dsimp only
    rw [supply, if_neg]
    · exact mem_insertKeyed_self
    · intro hsupplied
      obtain ⟨a, ha, hkey, hvalue⟩ := exists_of_lookup hsupplied
      rcases mem_of_mem_supply ha with rfl | ha
      · exact absurd hkey (by decide)
      · exact hnotDeclared (mem_declaredBy.mpr ⟨by decide, a, ha, hvalue, hkey ▸ declared?_xlink⟩)

/-- The attributes of an element stay with an icon, unless they are empty or the element is a
symbol. -/
theorem mem_rootAttributes_of_mem (hname : name ≠ symbolName)
    (hnodup : (attributes.map Prod.fst).Nodup)
    {a : List Char × List Char} (ha : a ∈ attributes) (hvalue : a.2 ≠ []) :
    a ∈ rootAttributes name attributes children := by
  have hsupplied : a ∈ supply "xmlns".toList svgNamespace attributes :=
    mem_supply_of_mem hnodup ha hvalue
  rw [rootAttributes, if_neg hname]
  dsimp only
  split
  · exact mem_supply_of_mem (supply_nodup hnodup) hsupplied hvalue
  · exact hsupplied

theorem lookup?_of_mem (hnodup : (attributes.map Prod.fst).Nodup) {a : List Char × List Char}
    (ha : a ∈ attributes) {space : List Char} (h : declared? a.1 = some space) (scope : Scope) :
    Scope.lookup? (declarationsOf (attributesAsRead attributes) :: scope) space =
      nonEmpty? (readAs true a.2) := by
  rw [← names_attributesAsRead] at hnodup
  have hfind := find?_of_mem (spaces_nodup hnodup) (mem_declarationsOf_attributesAsRead ha h)
  rw [Scope.lookup?_cons, hfind]

/-- A prefix that an icon is supplied with stands in it for what it usually does. -/
theorem lookup?_of_needed (hnodup : (attributes.map Prod.fst).Nodup)
    (hcounts : ∀ d ∈ declarationsOf (attributesAsRead attributes),
      counts d.space (d.namespaceName.map Char.toNat) = true)
    (hsupplied : IsSupplied name attributes children) {space : List Char}
    (hneeded : space ∈ needed name attributes children)
    (hdeclared : name = symbolName ∨ space ∉ declaredBy attributes) :
    Scope.lookup?
        [declarationsOf (attributesAsRead (rootAttributes name attributes children))] space =
      linkScope.lookup? space := by
  rcases hsupplied space hneeded with rfl | ⟨rfl, hlinks⟩
  · rw [lookup?_of_not_declared [] (counts_rootAttributes hcounts) (by decide)]
    · decide
    · exact implicit_notMem_declaredBy (counts_rootAttributes hcounts)
  · have hmentions : MentionsLinks children := by
      rcases hlinks with hname | hmentions
      · rw [needed, if_pos hname] at hneeded
        exact mentionsLinks_of_free hneeded
      · exact hmentions
    have hmem := mem_rootAttributes_xlink hmentions hdeclared
    rw [lookup?_of_mem (rootAttributes_nodup hnodup) hmem declared?_xlink]
    decide

/-- **What a prefix stands for in the file, it stands for in the icon**, if the icon is supplied
with it and the prefix of links stands for these. -/
theorem lookup?_rootAttributes {scope : Scope} (hnodup : (attributes.map Prod.fst).Nodup)
    (hcounts : ∀ d ∈ declarationsOf (attributesAsRead attributes),
      counts d.space (d.namespaceName.map Char.toNat) = true)
    (hsupplied : IsSupplied name attributes children)
    (hplace : ∀ space ∈ needed name attributes children,
      (around name attributes scope).lookup? space = linkScope.lookup? space)
    {space : List Char} (huse : space ∈ freeOf children ∨ name ≠ symbolName ∧
      space ∈ usedBy attributes) :
    Scope.lookup?
        [declarationsOf (attributesAsRead (rootAttributes name attributes children))] space =
      Scope.lookup? (declarationsOf (attributesAsRead attributes) :: scope) space := by
  by_cases hname : name = symbolName
  · -- the content of a symbol is all that is left of it
    have hneeded : space ∈ needed name attributes children := by
      rw [needed, if_pos hname]
      exact huse.resolve_right fun h => h.1 hname
    rw [lookup?_of_needed hnodup hcounts hsupplied hneeded (.inl hname), ← hplace space hneeded,
      around, if_pos hname]
  · by_cases hdeclared : space ∈ declaredBy attributes
    · -- the element declares it, and so does the icon
      obtain ⟨-, a, ha, hvalue, hspace⟩ := mem_declaredBy.mp hdeclared
      rw [lookup?_of_mem hnodup ha hspace, lookup?_of_mem (rootAttributes_nodup hnodup)
        (mem_rootAttributes_of_mem hname hnodup ha hvalue) hspace]
    · have hneeded : space ∈ needed name attributes children := by
        rw [needed, if_neg hname]
        exact mem_free.mpr ⟨.inr (huse.symm.imp_left And.right), hdeclared⟩
      have hne : space ≠ [] := by
        rcases hsupplied space hneeded with rfl | ⟨rfl, -⟩
        · decide
        · decide
      have hnotDeclared : space ∉ declaredBy (attributesAsRead attributes) := by
        rwa [declaredBy_attributesAsRead]
      rw [lookup?_of_needed hnodup hcounts hsupplied hneeded (.inr hdeclared),
        ← hplace space hneeded, around, if_neg hname,
        lookup?_of_not_declared scope hcounts hne hnotDeclared]

/-! ## The names of an icon -/

theorem othersOf_insertKeyed {key value : List Char} (h : (declared? key).isSome = true) :
    othersOf (insertKeyed (· == ·) key value attributes) = othersOf attributes := by
  have hkey : (declared? key).isNone = false := by simpa using h
  induction attributes with
  | nil => simp [insertKeyed, othersOf, hkey]
  | cons a attributes ih =>
      obtain ⟨n, v⟩ := a
      rw [insertKeyed]
      by_cases hn : n = key
      · simp [othersOf, hn, hkey]
      · rw [othersOf, othersOf] at ih
        rw [if_neg (by simpa using hn), othersOf, othersOf, List.filter_cons, List.filter_cons, ih]

theorem othersOf_supply {key value : List Char} (h : (declared? key).isSome = true) :
    othersOf (supply key value attributes) = othersOf attributes := by
  unfold supply
  split
  · rfl
  · exact othersOf_insertKeyed h

theorem othersOf_handedOn : othersOf (handedOn attributes) = handedOn attributes := by
  refine List.filter_eq_self.mpr fun a ha => ?_
  rw [(plain_of_mem_handedOn ha).1]
  rfl

theorem othersOf_rootAttributes :
    othersOf (rootAttributes name attributes children) =
      if name = symbolName then handedOn attributes else othersOf attributes := by
  have hxmlns : (declared? "xmlns".toList).isSome = true := by rw [declared?_xmlns]; rfl
  have hxlink : (declared? "xmlns:xlink".toList).isSome = true := by rw [declared?_xlink]; rfl
  unfold rootAttributes
  split
  · have hlinks :
        othersOf (if MentionsLinks children then
          [("xmlns:xlink".toList, linkNamespace)] else []) = [] := by
      split
      · rw [othersOf, List.filter_cons, declared?_xlink]
        rfl
      · rfl
    rw [othersOf, List.filter_cons, declared?_xmlns]
    simp only [Option.isNone_some, Bool.false_eq_true, if_false, List.filter_append]
    rw [← othersOf, ← othersOf, hlinks, othersOf_handedOn, List.nil_append]
  · dsimp only
    split
    · rw [othersOf_supply hxlink, othersOf_supply hxmlns]
    · rw [othersOf_supply hxmlns]

theorem othersOf_attributesAsRead (attributes : List (List Char × List Char)) :
    othersOf (attributesAsRead attributes) = attributesAsRead (othersOf attributes) := by
  rw [othersOf, attributesAsRead, List.filter_map]
  rfl

/-- What a symbol hands on is in no namespace, and each is something else. -/
theorem names_handedOn (scope : Scope) :
    ((namesOf scope (attributesAsRead (handedOn attributes))).map Prod.fst).Nodup := by
  have hnames : (namesOf scope (attributesAsRead (handedOn attributes))).map Prod.fst =
      ((handedOn attributes).map Prod.fst).map fun key => ⟨none, key⟩ := by
    rw [namesOf, othersOf_attributesAsRead, othersOf_handedOn, attributesAsRead, List.map_map,
      List.map_map, List.map_map]
    refine List.map_congr_left fun a ha => ?_
    simp [Scope.attributeName, (plain_of_mem_handedOn ha).2.1]
  have hkeys : (symbolAttributes.map String.toList).Nodup := by decide
  rw [hnames]
  refine (hkeys.sublist (handedOn_names attributes)).map ?_
  intro key key' heq
  exact (ExpandedName.mk.inj heq).2

/-- **The names of an icon have a meaning on their own**, if in the file they have one, the icon is
supplied with its prefixes and that of links stands there for these. -/
theorem isNamespaced_fragment {scope : Scope} (hnodup : (attributes.map Prod.fst).Nodup)
    (hsupplied : IsSupplied name attributes children)
    (hplace : ∀ space ∈ needed name attributes children,
      (around name attributes scope).lookup? space = linkScope.lookup? space)
    (hnames : (Node.element name attributes children).asRead.isNamespaced scope = true) :
    (fragment name attributes children).asRead.isNamespaced [] = true := by
  rw [Node.asRead, Node.isNamespaced, isTagNamespaced, Bool.and_eq_true, Bool.and_eq_true,
    List.all_eq_true, decide_eq_true_eq] at hnames
  obtain ⟨⟨hcounts, hdistinct⟩, hchildren⟩ := hnames
  have hlookup := fun space => @lookup?_rootAttributes _ _ _ scope hnodup hcounts hsupplied
      hplace space
  rw [fragment, Node.asRead, Node.isNamespaced, isTagNamespaced, Bool.and_eq_true, Bool.and_eq_true,
    List.all_eq_true, decide_eq_true_eq]
  refine ⟨⟨counts_rootAttributes hcounts, ?_⟩, ?_⟩
  · have hothers : ∀ kept, othersOf (rootAttributes name attributes children) = othersOf kept →
        ∀ scope, namesOf scope (attributesAsRead (rootAttributes name attributes children)) =
          namesOf scope (attributesAsRead kept) := by
      intro kept hkept scope
      rw [namesOf, namesOf, othersOf_attributesAsRead, othersOf_attributesAsRead, hkept]
    have hkept := @othersOf_rootAttributes name attributes children
    by_cases hname : name = symbolName
    · rw [if_pos hname, ← othersOf_handedOn] at hkept
      rw [hothers _ hkept]
      exact names_handedOn _
    · rw [if_neg hname] at hkept
      rw [hothers _ hkept, namesOf_congr]
      · exact hdistinct
      · intro space hspace
        rw [usedBy_attributesAsRead] at hspace
        exact hlookup space (.inr ⟨hname, hspace⟩)
  · rw [areNamespaced_congr]
    · exact hchildren
    · intro space hspace
      rw [freeOf_allAsRead] at hspace
      exact hlookup space (.inl hspace)

end TokenCatalog.Icon
