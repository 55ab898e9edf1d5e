import TokenCatalog.Xml.Write
import Mathlib.Data.List.Infix

/-!
# Prefixes in use

A prefix in a name needs a declaration by the element itself or by one around it. Those that trees
use and leave to the elements around them are free. Main statements:

* `Name.text_read`: taking a name apart loses nothing of it;
* `declared?_eq_some_iff`: the attributes that are declarations;
* `infix_writeNodes_of_free`: a free prefix stands before its colon in what is written.
-/

namespace TokenCatalog.Xml

/-! ## Names taken apart -/

/-- A name is taken apart into two plain ones, or it is taken whole. -/
theorem Name.read_cases (cs : List Char) :
    (∃ space base, isPlainName space = true ∧ isPlainName base = true ∧ cs = space ++ ':' :: base ∧
      Name.read cs = ⟨some space, base⟩) ∨ Name.read cs = ⟨none, cs⟩ := by
  unfold Name.read
  dsimp only
  split
  · next base hbase =>
    split
    · next hplain =>
      have hsplit := List.prefix_iff_eq_append.mp (List.takeWhile_prefix (l := cs) (· != ':'))
      rw [hbase] at hsplit
      rw [Bool.and_eq_true] at hplain
      exact .inl ⟨_, base, hplain.1, hplain.2, hsplit.symm, rfl⟩
    · exact .inr rfl
  · exact .inr rfl

theorem Name.text_read (cs : List Char) : (Name.read cs).text = cs := by
  rcases Name.read_cases cs with ⟨space, base, -, -, hcs, hread⟩ | hread
  · rw [hread, hcs]
    rfl
  · rw [hread]
    rfl

theorem Name.read_injective {cs cs' : List Char} (h : Name.read cs = Name.read cs') : cs = cs' := by
  rw [← Name.text_read cs, h, Name.text_read]

theorem takeWhile_of_not_mem {cs : List Char} (h : ':' ∉ cs) (rest : List Char) :
    (cs ++ ':' :: rest).takeWhile (· != ':') = cs := by
  rw [List.takeWhile_append_of_pos]
  · simp
  · intro c hc
    have hne : c ≠ ':' := fun heq => h (heq ▸ hc)
    simpa using hne

theorem colon_not_mem_of_isPlainName {cs : List Char} (h : isPlainName cs = true) : ':' ∉ cs := by
  simp only [isPlainName, Bool.and_eq_true, Bool.not_eq_true', List.contains_eq_mem,
    decide_eq_false_iff_not] at h
  exact h.2

theorem Name.read_prefixed {space base : List Char} (hspace : isPlainName space = true)
    (hbase : isPlainName base = true) : Name.read (space ++ ':' :: base) = ⟨some space, base⟩ := by
  unfold Name.read
  dsimp only
  rw [takeWhile_of_not_mem (colon_not_mem_of_isPlainName hspace), List.drop_left]
  simp [hspace, hbase]

theorem Name.read_plain {cs : List Char} (h : ':' ∉ cs) : Name.read cs = ⟨none, cs⟩ := by
  rcases Name.read_cases cs with ⟨space, base, -, -, hcs, -⟩ | hread
  · exact absurd (by simp [hcs]) h
  · exact hread

theorem Name.eq_of_space_read {cs space : List Char} (h : (Name.read cs).space = some space) :
    ∃ base, isPlainName space = true ∧ isPlainName base = true ∧ cs = space ++ ':' :: base := by
  rcases Name.read_cases cs with ⟨space', base, hspace, hbase, hcs, hread⟩ | hread
  · rw [hread] at h
    cases h
    exact ⟨base, hspace, hbase, hcs⟩
  · rw [hread] at h
    cases h

/-! ## Declarations -/

/-- The declarations are `xmlns` and what is prefixed with it. -/
theorem declared?_eq_some_iff {cs space : List Char} :
    declared? cs = some space ↔
      cs = "xmlns".toList ∧ space = [] ∨
        cs = "xmlns".toList ++ ':' :: space ∧ isPlainName space = true := by
  have hdefault : Name.read "xmlns".toList = ⟨none, "xmlns".toList⟩ := Name.read_plain (by decide)
  unfold declared?
  dsimp only
  constructor
  · intro h
    split at h
    · next heq =>
      cases h
      exact .inl ⟨Name.read_injective (heq.trans hdefault.symm), rfl⟩
    · split at h
      · next hspace =>
        obtain ⟨base, hxmlns, hbase, hcs⟩ := Name.eq_of_space_read hspace
        rw [hcs, Name.read_prefixed hxmlns hbase] at h
        cases h
        exact .inr ⟨hcs, hbase⟩
      · cases h
  · rintro (⟨rfl, rfl⟩ | ⟨rfl, hspace⟩)
    · exact if_pos hdefault
    · rw [Name.read_prefixed (by decide) hspace]
      rfl

def declaredBy (attributes : List (List Char × List Char)) : List (List Char) :=
  attributes.filterMap fun a => if a.2.isEmpty then none else (declared? a.1).bind nonEmpty?

theorem mem_declaredBy {attributes : List (List Char × List Char)} {space : List Char} :
    space ∈ declaredBy attributes ↔
      space ≠ [] ∧ ∃ a ∈ attributes, a.2 ≠ [] ∧ declared? a.1 = some space := by
  have hnonEmpty : ∀ cs : List Char, nonEmpty? cs = some space ↔ space ≠ [] ∧ cs = space := by
    intro cs
    cases cs with
    | nil => simp [nonEmpty?, eq_comm]
    | cons c cs =>
        simp only [nonEmpty?, List.isEmpty_cons, Bool.false_eq_true, if_false, Option.some_inj]
        exact ⟨fun h => ⟨h ▸ List.cons_ne_nil _ _, h⟩, And.right⟩
  simp only [declaredBy, List.mem_filterMap, Option.ite_none_left_eq_some, Option.bind_eq_some_iff,
    hnonEmpty, List.isEmpty_iff]
  constructor
  · rintro ⟨a, ha, hvalue, _, hdeclared, hne, rfl⟩
    exact ⟨hne, a, ha, hvalue, hdeclared⟩
  · rintro ⟨hne, a, ha, hvalue, hdeclared⟩
    exact ⟨a, ha, hvalue, space, hdeclared, hne, rfl⟩

/-! ## Uses -/

/-- The prefixes in the names of attributes that are no declarations. -/
def usedBy (attributes : List (List Char × List Char)) : List (List Char) :=
  attributes.filterMap fun a => if (declared? a.1).isSome then none else (Name.read a.1).space

theorem mem_usedBy {attributes : List (List Char × List Char)} {space : List Char} :
    space ∈ usedBy attributes ↔
      ∃ a ∈ attributes, declared? a.1 = none ∧ (Name.read a.1).space = some space := by
  simp [usedBy, List.mem_filterMap]

mutual

/-- The prefixes that the names in a tree use and that it declares nowhere around them. -/
def Node.free : Node → List (List Char)
  | .element name attributes children =>
    (name.space.toList ++ usedBy attributes ++ freeOf children).filter
      fun space => !(declaredBy attributes).contains space
  | _ => []

def freeOf : List Node → List (List Char)
  | [] => []
  | node :: nodes => Node.free node ++ freeOf nodes

end

theorem mem_free {name : Name} {attributes : List (List Char × List Char)} {children : List Node}
    {space : List Char} :
    space ∈ (Node.element name attributes children).free ↔
      (name.space = some space ∨ space ∈ usedBy attributes ∨ space ∈ freeOf children) ∧
        space ∉ declaredBy attributes := by
  simp [Node.free, or_and_right]

/-! ## Uses in what is written -/

theorem Name.infix_text {name : Name} {space : List Char} (h : name.space = some space) :
    space ++ [':'] <:+: name.text := by
  rw [Name.text, h]
  exact ⟨[], name.base, by simp⟩

theorem infix_writeAttributes {attributes : List (List Char × List Char)}
    {a : List Char × List Char} (ha : a ∈ attributes) : a.1 <:+: writeAttributes attributes := by
  rw [writeAttributes, List.flatMap_def]
  refine List.IsInfix.trans ⟨[' '], '=' :: quoteValue a.2, ?_⟩
    (List.infix_of_mem_flatten (List.mem_map_of_mem (List.mem_mergeSort.mpr ha)))
  rfl

theorem infix_writeAttributes_of_used {attributes : List (List Char × List Char)}
    {space : List Char} (h : space ∈ usedBy attributes) :
    space ++ [':'] <:+: writeAttributes attributes := by
  obtain ⟨a, ha, -, hspace⟩ := mem_usedBy.mp h
  have hname := Name.infix_text hspace
  rw [Name.text_read] at hname
  exact hname.trans (infix_writeAttributes ha)

mutual

/-- **A free prefix stands before its colon in what is written.** -/
theorem infix_write_of_free {space : List Char} :
    ∀ {node : Node}, space ∈ node.free → space ++ [':'] <:+: node.write
  | .element name attributes children, h => by
      obtain ⟨huse, -⟩ := mem_free.mp h
      have hparts : name.text <:+: (Node.element name attributes children).write ∧
          writeAttributes attributes <:+: (Node.element name attributes children).write ∧
          writeNodes children <:+: (Node.element name attributes children).write := by
        cases children with
        | nil =>
            refine ⟨⟨['<'], writeAttributes attributes ++ ['/', '>'], ?_⟩,
              ⟨'<' :: name.text, ['/', '>'], ?_⟩, List.nil_infix⟩
            all_goals simp [Node.write]
        | cons child rest =>
            refine ⟨⟨['<'], writeAttributes attributes ++ '>' :: writeNodes (child :: rest) ++
                '<' :: '/' :: name.text ++ ['>'], ?_⟩,
              ⟨'<' :: name.text, '>' :: writeNodes (child :: rest) ++
                '<' :: '/' :: name.text ++ ['>'], ?_⟩,
              ⟨'<' :: name.text ++ writeAttributes attributes ++ ['>'],
                '<' :: '/' :: name.text ++ ['>'], ?_⟩⟩
            all_goals simp [Node.write]
      rcases huse with hname | hused | hchildren
      · exact (Name.infix_text hname).trans hparts.1
      · exact (infix_writeAttributes_of_used hused).trans hparts.2.1
      · exact (infix_writeNodes_of_free hchildren).trans hparts.2.2

theorem infix_writeNodes_of_free {space : List Char} :
    ∀ {nodes : List Node}, space ∈ freeOf nodes → space ++ [':'] <:+: writeNodes nodes
  | node :: nodes, h => by
      rw [freeOf, List.mem_append] at h
      rw [writeNodes]
      rcases h with hnode | hnodes
      · exact (infix_write_of_free hnode).trans (List.infix_append' [] _ _)
      · exact (infix_writeNodes_of_free hnodes).trans (List.suffix_append _ _).isInfix

end

end TokenCatalog.Xml
