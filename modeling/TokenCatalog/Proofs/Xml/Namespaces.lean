import TokenCatalog.Proofs.Xml.Grammar
import Mathlib.Data.List.Nodup

/-!
# Markup with namespaces

What a tree must meet, besides being markup, so that its names have a meaning by its own
declarations. The order of attributes plays no part in it. Main statements:

* `Document`: markup that is well formed and whose names are, with the tree that it says;
* `Node.isNamespaced_congr`: only the namespaces count that its free prefixes stand for.
-/

namespace TokenCatalog.Xml

/-! ## Declarations among attributes -/

def declarationsOf (attributes : List (List Char × List Char)) : List Declaration :=
  attributes.filterMap fun a => (declared? a.1).map fun space => ⟨space, a.2⟩

def othersOf (attributes : List (List Char × List Char)) : List (List Char × List Char) :=
  attributes.filter fun a => (declared? a.1).isNone

/-- The attributes that are no declarations, with their names in their namespaces. -/
def namesOf (scope : Scope) (attributes : List (List Char × List Char)) :
    List (ExpandedName × List Char) :=
  (othersOf attributes).map fun a => (scope.attributeName (Name.read a.1), a.2)

theorem declarationsOf_perm {attributes attributes' : List (List Char × List Char)}
    (h : attributes.Perm attributes') :
    (declarationsOf attributes).Perm (declarationsOf attributes') :=
  h.filterMap _

/-- An attribute that declares a prefix is the only one that can. -/
theorem eq_of_declared? {cs cs' space : List Char} (h : declared? cs = some space)
    (h' : declared? cs' = some space) : cs = cs' := by
  have hplain : ∀ {cs : List Char}, isPlainName cs = true → cs ≠ [] := by
    rintro cs hcs rfl
    cases hcs
  rcases declared?_eq_some_iff.mp h with ⟨rfl, rfl⟩ | ⟨rfl, hspace⟩
  · rcases declared?_eq_some_iff.mp h' with ⟨rfl, -⟩ | ⟨-, hempty⟩
    · rfl
    · exact absurd rfl (hplain hempty)
  · rcases declared?_eq_some_iff.mp h' with ⟨-, rfl⟩ | ⟨rfl, -⟩
    · exact absurd rfl (hplain hspace)
    · rfl

theorem spaces_nodup {attributes : List (List Char × List Char)}
    (h : (attributes.map Prod.fst).Nodup) : ((declarationsOf attributes).map (·.space)).Nodup := by
  have hspaces : (declarationsOf attributes).map (·.space) =
      (attributes.map Prod.fst).filterMap declared? := by
    rw [declarationsOf, List.map_filterMap, List.filterMap_map]
    refine List.filterMap_congr fun a _ => ?_
    cases hdeclared : declared? a.1 <;> simp [hdeclared]
  rw [hspaces]
  exact h.filterMap fun _ _ _ h h' => eq_of_declared? h h'

/-! ## What prefixes stand for -/

theorem Scope.lookup?_cons (declarations : List Declaration) (scope : Scope) (space : List Char) :
    Scope.lookup? (declarations :: scope) space =
      match declarations.find? (·.space = space) with
      | some d => nonEmpty? d.namespaceName
      | none => scope.lookup? space := by
  rw [lookup?, List.cons_append, List.findSome?_cons]
  cases declarations.find? (·.space = space) <;> rfl

/-- Among declarations with one for each prefix, each of them counts for its own. -/
theorem find?_of_mem {ds : List Declaration} (hnodup : (ds.map (·.space)).Nodup) {d : Declaration}
    (hd : d ∈ ds) : ds.find? (·.space = d.space) = some d := by
  cases hfind : ds.find? (·.space = d.space) with
  | none => exact absurd (decide_eq_true rfl) (List.find?_eq_none.mp hfind d hd)
  | some d' =>
      have hspace := List.find?_some hfind
      rw [decide_eq_true_eq] at hspace
      rw [List.inj_on_of_nodup_map hnodup (List.mem_of_find?_eq_some hfind) hd hspace]

/-- Declarations in another order, one for each prefix. -/
theorem find?_eq_of_perm {ds ds' : List Declaration} (hperm : ds.Perm ds')
    (hnodup : (ds.map (·.space)).Nodup) (space : List Char) :
    ds.find? (·.space = space) = ds'.find? (·.space = space) := by
  cases hfind : ds.find? (·.space = space) with
  | none =>
      symm
      rw [List.find?_eq_none] at hfind ⊢
      exact fun d hd => hfind d (hperm.mem_iff.mpr hd)
  | some d =>
      have hd : d ∈ ds' := hperm.mem_iff.mp (List.mem_of_find?_eq_some hfind)
      have hspace := List.find?_some hfind
      rw [decide_eq_true_eq] at hspace
      rw [← hspace]
      exact (find?_of_mem ((hperm.map _).nodup_iff.mp hnodup) hd).symm

def Scope.Same (scope scope' : Scope) : Prop :=
  ∀ space, scope.lookup? space = scope'.lookup? space

theorem Scope.Same.cons {scope scope' : Scope} (h : scope.Same scope')
    {attributes attributes' : List (List Char × List Char)} (hperm : attributes.Perm attributes')
    (hnodup : (attributes.map Prod.fst).Nodup) :
    Scope.Same (declarationsOf attributes :: scope) (declarationsOf attributes' :: scope') := by
  intro space
  have hfind := find?_eq_of_perm (declarationsOf_perm hperm) (spaces_nodup hnodup) space
  rw [lookup?_cons, lookup?_cons, hfind, h space]

/-- Only the prefixes in use count for the names of attributes. -/
theorem namesOf_congr {scope scope' : Scope} {attributes : List (List Char × List Char)}
    (h : ∀ space ∈ usedBy attributes, scope.lookup? space = scope'.lookup? space) :
    namesOf scope attributes = namesOf scope' attributes := by
  refine List.map_congr_left fun a ha => ?_
  obtain ⟨hmem, hnone⟩ := List.mem_filter.mp ha
  cases hspace : (Name.read a.1).space with
  | none => simp [Scope.attributeName, hspace]
  | some space =>
      have hlookup := h space (mem_usedBy.mpr ⟨a, hmem, Option.isNone_iff_eq_none.mp hnone, hspace⟩)
      simp [Scope.attributeName, hspace, hlookup]

/-! ## Trees whose names have a meaning -/

/-- Whether the declarations of an element count, and its attributes have different names in their
namespaces. -/
def isTagNamespaced (scope : Scope) (attributes : List (List Char × List Char)) : Bool :=
  (declarationsOf attributes).all (fun d => counts d.space (d.namespaceName.map Char.toNat)) &&
    decide ((namesOf (declarationsOf attributes :: scope) attributes).map Prod.fst).Nodup

mutual

/-- Whether the names in a tree keep to what namespaces ask of them. -/
def Node.isNamespaced (scope : Scope) : Node → Bool
  | .element _ attributes children =>
    isTagNamespaced scope attributes && areNamespaced (declarationsOf attributes :: scope) children
  | _ => true

def areNamespaced (scope : Scope) : List Node → Bool
  | [] => true
  | node :: nodes => Node.isNamespaced scope node && areNamespaced scope nodes

end

theorem isTagNamespaced_congr {scope scope' : Scope} (h : scope.Same scope')
    {attributes attributes' : List (List Char × List Char)} (hperm : attributes.Perm attributes')
    (hnodup : (attributes.map Prod.fst).Nodup) :
    isTagNamespaced scope attributes = isTagNamespaced scope' attributes' := by
  have hnames : ((namesOf (declarationsOf attributes :: scope) attributes).map Prod.fst).Perm
      ((namesOf (declarationsOf attributes' :: scope') attributes').map Prod.fst) := by
    rw [namesOf_congr fun space _ => h.cons hperm hnodup space]
    exact ((hperm.filter _).map _).map _
  rw [isTagNamespaced, isTagNamespaced, decide_eq_decide.mpr hnames.nodup_iff]
  congr 1
  rw [Bool.eq_iff_iff, List.all_eq_true, List.all_eq_true]
  exact forall_congr' fun d => imp_congr_left (declarationsOf_perm hperm).mem_iff

/-- A prefix without a declaration among those of an element stands for what it stands for around
it, if those declarations count. -/
theorem lookup?_of_not_declared {attributes : List (List Char × List Char)} (scope : Scope)
    (hcounts : ∀ d ∈ declarationsOf attributes,
      counts d.space (d.namespaceName.map Char.toNat) = true)
    {space : List Char} (hne : space ≠ []) (h : space ∉ declaredBy attributes) :
    Scope.lookup? (declarationsOf attributes :: scope) space = scope.lookup? space := by
  have hnone : (declarationsOf attributes).find? (·.space = space) = none := by
    rw [List.find?_eq_none]
    intro d hd hspace
    obtain ⟨a, ha, hdeclares⟩ := List.mem_filterMap.mp hd
    obtain ⟨space', hdeclared, rfl⟩ := Option.map_eq_some_iff.mp hdeclares
    obtain rfl : space' = space := of_decide_eq_true hspace
    refine h (mem_declaredBy.mpr ⟨hne, a, ha, ?_, hdeclared⟩)
    intro hvalue
    have hcount := hcounts _ hd
    simp [counts, hvalue, hne] at hcount
  rw [Scope.lookup?_cons, hnone]

theorem implicit_notMem_declaredBy {attributes : List (List Char × List Char)}
    (hcounts : ∀ d ∈ declarationsOf attributes,
      counts d.space (d.namespaceName.map Char.toNat) = true) :
    implicitDeclaration.space ∉ declaredBy attributes := by
  intro h
  obtain ⟨-, a, ha, -, hdeclared⟩ := mem_declaredBy.mp h
  have hmem : (⟨implicitDeclaration.space, a.2⟩ : Declaration) ∈ declarationsOf attributes :=
    List.mem_filterMap.mpr ⟨a, ha, by rw [hdeclared]; rfl⟩
  have hcount := hcounts _ hmem
  simp [counts] at hcount

/-- The declaration that a scope begins with for a prefix comes before all others. -/
theorem lookup?_congr {attributes : List (List Char × List Char)} {scope scope' : Scope}
    {space : List Char}
    (h : space ∉ declaredBy attributes → scope.lookup? space = scope'.lookup? space) :
    Scope.lookup? (declarationsOf attributes :: scope) space =
      Scope.lookup? (declarationsOf attributes :: scope') space := by
  rw [Scope.lookup?_cons, Scope.lookup?_cons]
  split
  · rfl
  · next hnone =>
    apply h
    intro hdeclared
    obtain ⟨-, a, ha, -, hspace⟩ := mem_declaredBy.mp hdeclared
    have hmem : (⟨space, a.2⟩ : Declaration) ∈ declarationsOf attributes :=
      List.mem_filterMap.mpr ⟨a, ha, by rw [hspace]; rfl⟩
    exact List.find?_eq_none.mp hnone _ hmem (decide_eq_true rfl)

mutual

/-- **Only the free prefixes of a tree count** for whether its names have a meaning in a scope. -/
theorem Node.isNamespaced_congr :
    ∀ {node : Node} {scope scope' : Scope},
      (∀ space ∈ node.free, scope.lookup? space = scope'.lookup? space) →
      node.isNamespaced scope = node.isNamespaced scope'
  | .element name attributes children, scope, scope', h => by
      have hwithin : ∀ space, space ∈ usedBy attributes ∨ space ∈ freeOf children →
          Scope.lookup? (declarationsOf attributes :: scope) space =
            Scope.lookup? (declarationsOf attributes :: scope') space := by
        intro space hspace
        exact lookup?_congr fun hdeclared => h space (mem_free.mpr ⟨.inr hspace, hdeclared⟩)
      have hnames := namesOf_congr fun space hspace => hwithin space (.inl hspace)
      have hchildren := areNamespaced_congr fun space hspace => hwithin space (.inr hspace)
      rw [Node.isNamespaced, Node.isNamespaced, isTagNamespaced, isTagNamespaced, hnames, hchildren]
  | .text _, _, _, _ => rfl
  | .comment _, _, _, _ => rfl
  | .instruction _, _, _, _ => rfl

theorem areNamespaced_congr :
    ∀ {nodes : List Node} {scope scope' : Scope},
      (∀ space ∈ freeOf nodes, scope.lookup? space = scope'.lookup? space) →
      areNamespaced scope nodes = areNamespaced scope' nodes
  | [], _, _, _ => rfl
  | node :: nodes, scope, scope', h => by
      have hnode := Node.isNamespaced_congr fun space hspace =>
        h space (List.mem_append_left _ hspace)
      have hnodes := areNamespaced_congr fun space hspace =>
        h space (List.mem_append_right _ hspace)
      rw [areNamespaced, areNamespaced, hnode, hnodes]

end

/-- Markup of one element that is well formed, also in its names, and the tree that it says. Every
prefix in a name is declared within the element, but for the one that needs no declaration. -/
structure Document (root : Node) (cs : List Char) : Prop where
  contents : Contents [root] cs
  isElement : ∃ name attributes children, root = .element name attributes children
  declared : ∀ space ∈ root.free, space = implicitDeclaration.space
  namespaced : root.isNamespaced [] = true

end TokenCatalog.Xml
