import TokenCatalog.Icon.Parse
import TokenCatalog.Proofs.Json.Table
import TokenCatalog.Proofs.Xml.Prefixes
import TokenCatalog.Proofs.Xml.Grammar

/-!
# Icons on their own

The element that an icon is to be is taken out of its file. What it keeps of the elements around it
are two namespaces at most, so it declares all prefixes that it uses unless one of them is declared
only there. Main statements:

* `attribute?_rootAttributes`: what becomes of the attributes of a symbol;
* `free_fragment_iff`: which icons declare all prefixes that they use.
-/

namespace TokenCatalog.Icon

open TokenCatalog.Xml

variable {name : Name} {attributes : List (List Char × List Char)} {children : List Node}

/-! ## The element that an icon is to be -/

def symbolName : Name := ⟨none, "symbol".toList⟩

def MentionsLinks (children : List Node) : Prop :=
  linkMark <:+: writeNodes children

instance (children : List Node) : Decidable (MentionsLinks children) :=
  decidable_of_iff _ Text.occursIn_iff

def rootName (name : Name) : Name :=
  if name = symbolName then ⟨none, "svg".toList⟩ else name

def handedOn (attributes : List (List Char × List Char)) : List (List Char × List Char) :=
  symbolAttributes.filterMap fun name => (attribute? name attributes).map fun value =>
    (name.toList, value)

def rootAttributes (name : Name) (attributes : List (List Char × List Char))
    (children : List Node) :
    List (List Char × List Char) :=
  if name = symbolName then
    ("xmlns".toList, svgNamespace) ::
      ((if MentionsLinks children then [("xmlns:xlink".toList, linkNamespace)] else []) ++
        handedOn attributes)
  else
    let attributes := supply "xmlns".toList svgNamespace attributes
    if MentionsLinks children then supply "xmlns:xlink".toList linkNamespace attributes
      else attributes

/-- The element that an icon is to be on its own: the same content with a root of its own. -/
def fragment (name : Name) (attributes : List (List Char × List Char)) (children : List Node) :
    Node :=
  .element (rootName name) (rootAttributes name attributes children) children

/-! ## Its attributes -/

section

variable {key value : List Char}

theorem lookup_insertKeyed (k : List Char) :
    (insertKeyed (· == ·) key value attributes).lookup k =
      if k = key then some value else attributes.lookup k := by
  induction attributes with
  | nil =>
      by_cases hk : k = key
      · simp [insertKeyed, hk]
      · simp [insertKeyed, List.lookup_cons, hk, beq_false_of_ne hk]
  | cons a attributes ih =>
      obtain ⟨n, v⟩ := a
      rw [insertKeyed]
      by_cases hn : n = key
      · by_cases hk : k = key
        · simp [hn, hk]
        · simp [List.lookup_cons, hn, hk, beq_false_of_ne hk]
      · by_cases hk : k = n
        · simp [hn, hk]
        · simp [List.lookup_cons, hn, beq_false_of_ne hk, ih]

theorem mem_of_mem_insertKeyed {a : List Char × List Char}
    (h : a ∈ insertKeyed (· == ·) key value attributes) : a = (key, value) ∨ a ∈ attributes := by
  induction attributes with
  | nil => simpa [insertKeyed] using h
  | cons b attributes ih =>
      obtain ⟨n, v⟩ := b
      rw [insertKeyed] at h
      by_cases hn : n = key
      · rw [if_pos (by simpa using hn), List.mem_cons] at h
        rcases h with rfl | h
        · exact .inl (by rw [hn])
        · exact .inr (List.mem_cons_of_mem _ h)
      · rw [if_neg (by simpa using hn), List.mem_cons] at h
        rcases h with rfl | h
        · exact .inr List.mem_cons_self
        · exact (ih h).imp_right (List.mem_cons_of_mem _)

theorem mem_insertKeyed_self : (key, value) ∈ insertKeyed (· == ·) key value attributes := by
  induction attributes with
  | nil => exact List.mem_cons_self
  | cons b attributes ih =>
      obtain ⟨n, v⟩ := b
      rw [insertKeyed]
      by_cases hn : n = key
      · simp [hn]
      · simp [hn, ih]

theorem mem_insertKeyed_of_ne {a : List Char × List Char} (ha : a ∈ attributes) (hne : a.1 ≠ key) :
    a ∈ insertKeyed (· == ·) key value attributes := by
  induction attributes with
  | nil => cases ha
  | cons b attributes ih =>
      obtain ⟨n, v⟩ := b
      rw [insertKeyed]
      by_cases hn : n = key
      · rw [if_pos (by simpa using hn)]
        rcases List.mem_cons.mp ha with rfl | ha
        · exact absurd hn hne
        · exact List.mem_cons_of_mem _ ha
      · rw [if_neg (by simpa using hn)]
        rcases List.mem_cons.mp ha with rfl | ha
        · exact List.mem_cons_self
        · exact List.mem_cons_of_mem _ (ih ha)

/-- Supplying an attribute leaves the values of others. -/
theorem lookup_supply {k : List Char} (hk : k ≠ key) :
    (supply key value attributes).lookup k = attributes.lookup k := by
  unfold supply
  split
  · rfl
  · rw [lookup_insertKeyed, if_neg hk]

theorem mem_of_mem_supply {a : List Char × List Char} (h : a ∈ supply key value attributes) :
    a = (key, value) ∨ a ∈ attributes := by
  unfold supply at h
  split at h
  · exact .inr h
  · exact mem_of_mem_insertKeyed h

/-- Supplying an attribute keeps the names different. -/
theorem supply_nodup (h : (attributes.map Prod.fst).Nodup) :
    ((supply key value attributes).map Prod.fst).Nodup := by
  unfold supply
  split
  · exact h
  · have hsame : ∀ a b : List Char, (a == b) = decide (id a = id b) := beq_eq_decide
    have hnames := insertKeyed_names hsame key value attributes
    simp only [id] at hnames
    rw [hnames]
    split
    · exact h
    · next hnew =>
      refine List.nodup_append.mpr ⟨h, List.nodup_singleton _, ?_⟩
      intro a ha b hb heq
      rw [List.mem_singleton.mp hb] at heq
      exact hnew (heq ▸ ha)

theorem lookup_eq_of_mem (hnodup : (attributes.map Prod.fst).Nodup) {a : List Char × List Char}
    (ha : a ∈ attributes) : attributes.lookup a.1 = some a.2 := by
  induction attributes with
  | nil => cases ha
  | cons b attributes ih =>
      rw [List.map_cons, List.nodup_cons] at hnodup
      rcases List.mem_cons.mp ha with rfl | ha
      · exact List.lookup_cons_self
      · have hne : a.1 ≠ b.1 := fun heq => hnodup.1 (heq ▸ List.mem_map_of_mem ha)
        rw [List.lookup_cons, beq_false_of_ne hne]
        exact ih hnodup.2 ha

/-- An attribute with a value stays when another is supplied. -/
theorem mem_supply_of_mem (hnodup : (attributes.map Prod.fst).Nodup) {a : List Char × List Char}
    (ha : a ∈ attributes) (hvalue : a.2 ≠ []) : a ∈ supply key value attributes := by
  unfold supply
  split
  · exact ha
  · next hmissing =>
    apply mem_insertKeyed_of_ne ha
    rintro rfl
    apply hmissing
    simp [lookup_eq_of_mem hnodup ha, nonEmpty?, hvalue]

theorem exists_of_lookup {attributes : List (List Char × List Char)}
    (h : ((attributes.lookup key).bind nonEmpty?).isSome = true) :
    ∃ a ∈ attributes, a.1 = key ∧ a.2 ≠ [] := by
  cases hlookup : attributes.lookup key with
  | none => simp [hlookup] at h
  | some v =>
      obtain ⟨before, after, rfl, -⟩ := List.lookup_eq_some_iff.mp hlookup
      refine ⟨(key, v), by simp, rfl, ?_⟩
      rintro rfl
      simp [hlookup, nonEmpty?] at h

theorem mem_usedBy_supply (hdeclares : (declared? key).isSome = true) {space : List Char} :
    space ∈ usedBy (supply key value attributes) ↔ space ∈ usedBy attributes := by
  have hne : ∀ a : List Char × List Char, declared? a.1 = none → a.1 ≠ key := by
    rintro a ha rfl
    rw [ha] at hdeclares
    cases hdeclares
  unfold supply
  split
  · rfl
  · rw [mem_usedBy, mem_usedBy]
    constructor
    · rintro ⟨a, ha, hnone, hspace⟩
      rcases mem_of_mem_insertKeyed ha with rfl | ha
      · exact absurd rfl (hne _ hnone)
      · exact ⟨a, ha, hnone, hspace⟩
    · rintro ⟨a, ha, hnone, hspace⟩
      exact ⟨a, mem_insertKeyed_of_ne ha (hne a hnone), hnone, hspace⟩

theorem mem_declaredBy_supply {declared : List Char} (hdeclares : declared? key = some declared)
    (hvalue : value ≠ []) {space : List Char} :
    space ∈ declaredBy (supply key value attributes) ↔
      space ∈ declaredBy attributes ∨ space = declared ∧ space ≠ [] := by
  unfold supply
  split
  · next hsupplied =>
    refine ⟨.inl, ?_⟩
    rintro (h | ⟨rfl, hne⟩)
    · exact h
    · obtain ⟨a, ha, rfl, hnonEmpty⟩ := exists_of_lookup hsupplied
      exact mem_declaredBy.mpr ⟨hne, a, ha, hnonEmpty, hdeclares⟩
  · rw [mem_declaredBy, mem_declaredBy]
    constructor
    · rintro ⟨hne, a, ha, hnonEmpty, hspace⟩
      rcases mem_of_mem_insertKeyed ha with rfl | ha
      · exact .inr ⟨Option.some_inj.mp (hspace.symm.trans hdeclares), hne⟩
      · exact .inl ⟨hne, a, ha, hnonEmpty, hspace⟩
    · rintro (⟨hne, a, ha, hnonEmpty, hspace⟩ | ⟨rfl, hne⟩)
      · by_cases hname : a.1 = key
        · rw [hname, hdeclares] at hspace
          cases hspace
          exact ⟨hne, _, mem_insertKeyed_self, hvalue, hdeclares⟩
        · exact ⟨hne, a, mem_insertKeyed_of_ne ha hname, hnonEmpty, hspace⟩
      · exact ⟨hne, _, mem_insertKeyed_self, hvalue, hdeclares⟩

end

theorem exists_of_mem_handedOn {a : List Char × List Char} (h : a ∈ handedOn attributes) :
    ∃ name ∈ symbolAttributes, a.1 = name.toList ∧ attribute? name attributes = some a.2 := by
  obtain ⟨name, hname, ha⟩ := List.mem_filterMap.mp h
  obtain ⟨value, hvalue, rfl⟩ := Option.map_eq_some_iff.mp ha
  exact ⟨name, hname, rfl, hvalue⟩

/-- What a symbol hands on declares nothing and has no prefixes. -/
theorem plain_of_mem_handedOn {a : List Char × List Char} (h : a ∈ handedOn attributes) :
    declared? a.1 = none ∧ Name.read a.1 = ⟨none, a.1⟩ ∧ isSimpleName a.1 = true := by
  have hplain : ∀ name ∈ symbolAttributes, declared? name.toList = none ∧
      Name.read name.toList = ⟨none, name.toList⟩ ∧ isSimpleName name.toList = true := by decide
  obtain ⟨name, hname, ha, -⟩ := exists_of_mem_handedOn h
  rw [ha]
  exact hplain name hname

theorem handedOn_names (attributes : List (List Char × List Char)) :
    ((handedOn attributes).map Prod.fst).Sublist (symbolAttributes.map String.toList) := by
  unfold handedOn
  induction symbolAttributes with
  | nil => exact .slnil
  | cons key keys ih =>
      cases hattribute : attribute? key attributes with
      | none => simpa [hattribute] using ih.cons key.toList
      | some value => simpa [hattribute] using ih.cons_cons key.toList

theorem declared?_xmlns : declared? "xmlns".toList = some [] := by decide

theorem declared?_xlink : declared? "xmlns:xlink".toList = some "xlink".toList := by decide

/-- The root of an icon has the prefixes of the element that it is made of, unless this is a
symbol. -/
theorem mem_usedBy_rootAttributes {space : List Char} :
    space ∈ usedBy (rootAttributes name attributes children) ↔
      name ≠ symbolName ∧ space ∈ usedBy attributes := by
  unfold rootAttributes
  split
  · next hname =>
    refine iff_of_false ?_ (fun h => h.1 hname)
    intro h
    obtain ⟨a, ha, hnone, hspace⟩ := mem_usedBy.mp h
    rcases List.mem_cons.mp ha with rfl | ha
    · rw [declared?_xmlns] at hnone
      cases hnone
    · rcases List.mem_append.mp ha with ha | ha
      · split at ha
        · rw [List.mem_singleton.mp ha, declared?_xlink] at hnone
          cases hnone
        · cases ha
      · rw [(plain_of_mem_handedOn ha).2.1] at hspace
        cases hspace
  · next hname =>
    dsimp only
    split
    · rw [mem_usedBy_supply (by rw [declared?_xlink]; rfl),
        mem_usedBy_supply (by rw [declared?_xmlns]; rfl)]
      exact (and_iff_right hname).symm
    · rw [mem_usedBy_supply (by rw [declared?_xmlns]; rfl)]
      exact (and_iff_right hname).symm

/-- The root of an icon declares what the element declares that it is made of, unless this is a
symbol, and the prefix of links if they are mentioned. -/
theorem mem_declaredBy_rootAttributes {space : List Char} :
    space ∈ declaredBy (rootAttributes name attributes children) ↔
      name ≠ symbolName ∧ space ∈ declaredBy attributes ∨
        MentionsLinks children ∧ space = "xlink".toList := by
  have hlink : linkNamespace ≠ [] := by decide
  unfold rootAttributes
  split
  · next hname =>
    rw [mem_declaredBy]
    constructor
    · rintro ⟨hne, a, ha, -, hspace⟩
      rcases List.mem_cons.mp ha with rfl | ha
      · rw [declared?_xmlns] at hspace
        cases hspace
        exact absurd rfl hne
      · rcases List.mem_append.mp ha with ha | ha
        · split at ha
          · next hlinks =>
            rw [List.mem_singleton.mp ha, declared?_xlink] at hspace
            cases hspace
            exact .inr ⟨hlinks, rfl⟩
          · cases ha
        · rw [(plain_of_mem_handedOn ha).1] at hspace
          cases hspace
    · rintro (⟨hne, -⟩ | ⟨hlinks, rfl⟩)
      · exact absurd hname hne
      · refine ⟨by decide, ("xmlns:xlink".toList, linkNamespace), ?_, hlink, declared?_xlink⟩
        simp [hlinks]
  · next hname =>
    -- what is no symbol only gains declarations, and the default one binds no prefix
    have hsupplied : space ∈ declaredBy (supply "xmlns".toList svgNamespace attributes) ↔
        space ∈ declaredBy attributes := by
      rw [mem_declaredBy_supply declared?_xmlns (by decide)]
      exact or_iff_left fun h => h.2 h.1
    dsimp only
    split
    · next hlinks =>
      rw [mem_declaredBy_supply declared?_xlink hlink, hsupplied, and_iff_right hname,
        and_iff_right hlinks]
      refine or_congr_right (and_iff_left_of_imp ?_)
      rintro rfl
      decide
    · next hlinks =>
      rw [hsupplied, and_iff_right hname, or_iff_left fun h => hlinks h.1]

/-- What the attributes of an icon's root are among. -/
theorem mem_rootAttributes {a : List Char × List Char}
    (h : a ∈ rootAttributes name attributes children) :
    a = ("xmlns".toList, svgNamespace) ∨ a = ("xmlns:xlink".toList, linkNamespace) ∨
      (name = symbolName ∧ a ∈ handedOn attributes) ∨ (name ≠ symbolName ∧ a ∈ attributes) := by
  unfold rootAttributes at h
  split at h
  · next hname =>
    rcases List.mem_cons.mp h with rfl | h
    · exact .inl rfl
    · rcases List.mem_append.mp h with h | h
      · split at h
        · exact .inr (.inl (List.mem_singleton.mp h))
        · cases h
      · exact .inr (.inr (.inl ⟨hname, h⟩))
  · next hname =>
    have hsupplied : ∀ a ∈ supply "xmlns".toList svgNamespace attributes,
        a = ("xmlns".toList, svgNamespace) ∨ a ∈ attributes := fun a => mem_of_mem_supply
    dsimp only at h
    split at h
    · rcases mem_of_mem_supply h with rfl | h
      · exact .inr (.inl rfl)
      · exact (hsupplied a h).imp_right fun h => .inr (.inr ⟨hname, h⟩)
    · exact (hsupplied a h).imp_right fun h => .inr (.inr ⟨hname, h⟩)

theorem rootAttributes_nodup (h : (attributes.map Prod.fst).Nodup) :
    ((rootAttributes name attributes children).map Prod.fst).Nodup := by
  have hkeys : ("xmlns".toList :: "xmlns:xlink".toList ::
      symbolAttributes.map String.toList).Nodup := by
    decide
  unfold rootAttributes
  split
  · refine hkeys.sublist ?_
    rw [List.map_cons, List.map_append]
    refine List.Sublist.cons_cons _ ?_
    split
    · exact (handedOn_names attributes).cons_cons _
    · exact (handedOn_names attributes).cons _
  · dsimp only
    split
    · exact supply_nodup (supply_nodup h)
    · exact supply_nodup h

theorem lookup_filterMap (value? : String → Option (List Char)) (keys : List String)
    (key : String) :
    (keys.filterMap fun k => (value? k).map fun v => (k.toList, v)).lookup key.toList =
      if key ∈ keys then value? key else none := by
  induction keys with
  | nil => rfl
  | cons k keys ih =>
      by_cases hk : key = k
      · subst hk
        cases hvalue : value? key with
        | none => simp [hvalue, ih]
        | some v => simp [hvalue]
      · have hlist : (key.toList == k.toList) = false :=
          beq_false_of_ne fun h => hk (String.toList_inj.mp h)
        cases hvalue : value? k with
        | none => simp [hvalue, ih, hk]
        | some v => simp [hvalue, List.lookup_cons, hlist, ih, hk]

theorem attribute?_handedOn {key : String} (h : key ∈ symbolAttributes) :
    attribute? key (handedOn attributes) = attribute? key attributes := by
  have hlookup : (handedOn attributes).lookup key.toList = attribute? key attributes :=
    (lookup_filterMap _ symbolAttributes key).trans (if_pos h)
  rw [attribute?, hlookup, attribute?, Option.bind_assoc]
  refine Option.bind_congr fun value _ => ?_
  by_cases hvalue : value.isEmpty
  · simp [nonEmpty?, hvalue]
  · simp [nonEmpty?, hvalue]

/-- **The attributes that a symbol hands on have the values in an icon** that they have in the
element, where these are not empty. -/
theorem attribute?_rootAttributes {key : String} (h : key ∈ symbolAttributes) :
    attribute? key (rootAttributes name attributes children) = attribute? key attributes := by
  have hne : key.toList ≠ "xmlns".toList ∧ key.toList ≠ "xmlns:xlink".toList := by
    revert key
    decide
  unfold rootAttributes
  split
  · refine Eq.trans ?_ (attribute?_handedOn h)
    rw [attribute?, attribute?, List.lookup_cons, beq_false_of_ne hne.1]
    dsimp only
    split
    · rw [List.singleton_append, List.lookup_cons, beq_false_of_ne hne.2]
    · rw [List.nil_append]
  · dsimp only
    split
    · rw [attribute?, attribute?, lookup_supply hne.2, lookup_supply hne.1]
    · rw [attribute?, attribute?, lookup_supply hne.1]

/-! ## Its prefixes -/

/-- The prefixes that an icon needs from the elements around it, or from around its content if it is
a symbol. -/
def needed (name : Name) (attributes : List (List Char × List Char)) (children : List Node) :
    List (List Char) :=
  if name = symbolName then freeOf children else (Node.element name attributes children).free

theorem mem_free_fragment {space : List Char} :
    space ∈ (fragment name attributes children).free ↔
      space ∈ needed name attributes children ∧
        ¬ (MentionsLinks children ∧ space = "xlink".toList) := by
  rw [fragment, mem_free, mem_usedBy_rootAttributes, mem_declaredBy_rootAttributes,
    needed, rootName]
  by_cases hname : name = symbolName
  · simp [hname]
  · rw [if_neg hname, if_neg hname, mem_free]
    tauto

/-- Content that uses the prefix of links without a declaration mentions links. -/
theorem mentionsLinks_of_free (h : "xlink".toList ∈ freeOf children) : MentionsLinks children :=
  infix_writeNodes_of_free h

/-- Whether the prefixes that an icon needs are among those that it gets: the one that needs no
declaration, and that of links, which a symbol gets where it needs it and another element where its
content mentions it. -/
def IsSupplied (name : Name) (attributes : List (List Char × List Char)) (children : List Node) :
    Prop :=
  ∀ space ∈ needed name attributes children, space = implicitDeclaration.space ∨
    space = "xlink".toList ∧ (name = symbolName ∨ MentionsLinks children)

instance : Decidable (IsSupplied name attributes children) :=
  List.decidableBAll _ _

/-- **An icon declares all prefixes that it uses** if and only if it is supplied with those that it
needs from around it. -/
theorem free_fragment_iff :
    (∀ space ∈ (fragment name attributes children).free, space = implicitDeclaration.space) ↔
      IsSupplied name attributes children := by
  constructor
  · intro h space hspace
    by_cases hlinks : MentionsLinks children ∧ space = "xlink".toList
    · exact .inr ⟨hlinks.2, .inr hlinks.1⟩
    · exact .inl (h space (mem_free_fragment.mpr ⟨hspace, hlinks⟩))
  · intro h space hspace
    obtain ⟨hneeded, hlinks⟩ := mem_free_fragment.mp hspace
    rcases h space hneeded with himplicit | ⟨rfl, hsymbol | hmentions⟩
    · exact himplicit
    · rw [needed, if_pos hsymbol] at hneeded
      exact absurd ⟨mentionsLinks_of_free hneeded, rfl⟩ hlinks
    · exact absurd ⟨hmentions, rfl⟩ hlinks

/-- A prefix that only an element around a symbol declares is lost. -/
example :
    (fragment symbolName [] [.element ⟨none, "g".toList⟩ [("i:k".toList, "v".toList)] []]).free =
      ["i".toList] := by
  decide +kernel

end TokenCatalog.Icon
