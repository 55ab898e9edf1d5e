import TokenCatalog.Stylesheet.Statement

/-!
# Statements of a block at any depth

A statement stands in a block as one of its own, or in the block of one of its rules, however deep.
-/

namespace TokenCatalog.Stylesheet

open TokenCatalog.Css (Node)

/-- A statement stands in a block, at any depth. -/
inductive Holds (s : Statement) : List Statement → Prop
  | here {block : List Statement} (h : s ∈ block) : Holds s block
  | inside {block inner : List Statement} {head body : List Node}
      (hmem : .rule head body inner ∈ block) (h : Holds s inner) : Holds s block

theorem Holds.mono {s : Statement} {block more : List Statement} (h : Holds s block)
    (hsub : block ⊆ more) : Holds s more := by
  cases h with
  | here h => exact .here (hsub h)
  | inside hmem h => exact .inside (hsub hmem) h

theorem holds_append {s : Statement} {xs ys : List Statement} :
    Holds s (xs ++ ys) ↔ Holds s xs ∨ Holds s ys := by
  constructor
  · intro h
    cases h with
    | here h => exact (List.mem_append.mp h).imp .here .here
    | inside hmem h => exact (List.mem_append.mp hmem).imp (.inside · h) (.inside · h)
  · rintro (h | h)
    · exact h.mono (List.subset_append_left xs ys)
    · exact h.mono (List.subset_append_right xs ys)

theorem holds_cons {s first : Statement} {block : List Statement} :
    Holds s (first :: block) ↔ Holds s [first] ∨ Holds s block := by
  rw [← List.singleton_append, holds_append]

theorem holds_comment {s : Statement} {text : List Char} {line : Nat} :
    Holds s [.comment text line] ↔ s = .comment text line := by
  constructor
  · intro h
    cases h with
    | here h => exact List.mem_singleton.mp h
    | inside hmem _ => cases List.mem_singleton.mp hmem
  · rintro rfl
    exact .here List.mem_cons_self

theorem holds_rule {s : Statement} {head body : List Node} {inner : List Statement} :
    Holds s [.rule head body inner] ↔ s = .rule head body inner ∨ Holds s inner := by
  constructor
  · intro h
    cases h with
    | here h => exact .inl (List.mem_singleton.mp h)
    | inside hmem h =>
        cases List.mem_singleton.mp hmem
        exact .inr h
  · rintro (rfl | h)
    · exact .here List.mem_cons_self
    · exact .inside List.mem_cons_self h

theorem holds_declaration {s : Statement} {declared : Option Declaration} :
    Holds s (declared.map Statement.declaration).toList ↔
      ∃ d, declared = some d ∧ s = .declaration d := by
  cases declared with
  | none =>
      refine iff_of_false (fun h => ?_) nofun
      cases h with
      | here h => cases h
      | inside hmem _ => cases hmem
  | some d =>
      constructor
      · intro h
        cases h with
        | here h => exact ⟨d, rfl, List.mem_singleton.mp h⟩
        | inside hmem _ => cases List.mem_singleton.mp hmem
      · rintro ⟨d, hd, rfl⟩
        cases hd
        exact .here List.mem_cons_self

end TokenCatalog.Stylesheet
