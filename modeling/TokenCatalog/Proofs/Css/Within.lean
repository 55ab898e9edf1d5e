import Mathlib.Logic.Basic
import TokenCatalog.Css.Component

/-!
# Nodes inside nodes

Where a node may stand in a tree, and the check for faults in those terms. Main statement:

* `firstFault?_eq_none_iff`: the check passes exactly if no fault stands anywhere, however deep.
-/

namespace TokenCatalog.Css

/-- A node stands in a row of nodes: as one of them, or at any depth inside one of them. -/
inductive Within (node : Node) : List Node → Prop
  | here {nodes : List Node} (h : node ∈ nodes) : Within node nodes
  | argument {nodes arguments : List Node} {position : Position} {name : List Char}
      (hmem : .function position name arguments ∈ nodes) (h : Within node arguments) :
      Within node nodes
  | content {nodes content : List Node} {position : Position} {bracket : Bracket}
      (hmem : .block position bracket content ∈ nodes) (h : Within node content) :
      Within node nodes

theorem not_within_nil (node : Node) : ¬ Within node [] := by
  intro h
  cases h with
  | here h => cases h
  | argument hmem _ => cases hmem
  | content hmem _ => cases hmem

theorem Within.mono {node : Node} {nodes more : List Node} (h : Within node nodes)
    (hsub : nodes ⊆ more) : Within node more := by
  cases h with
  | here h => exact .here (hsub h)
  | argument hmem h => exact .argument (hsub hmem) h
  | content hmem h => exact .content (hsub hmem) h

theorem within_append {node : Node} {xs ys : List Node} :
    Within node (xs ++ ys) ↔ Within node xs ∨ Within node ys := by
  constructor
  · intro h
    cases h with
    | here h => exact (List.mem_append.mp h).imp .here .here
    | argument hmem h => exact (List.mem_append.mp hmem).imp (.argument · h) (.argument · h)
    | content hmem h => exact (List.mem_append.mp hmem).imp (.content · h) (.content · h)
  · rintro (h | h)
    · exact h.mono (List.subset_append_left xs ys)
    · exact h.mono (List.subset_append_right xs ys)

theorem within_cons {node first : Node} {rest : List Node} :
    Within node (first :: rest) ↔ Within node [first] ∨ Within node rest := by
  rw [← List.singleton_append, within_append]

theorem within_leaf {node : Node} {position : Position} {leaf : Leaf} :
    Within node [.leaf position leaf] ↔ node = .leaf position leaf := by
  constructor
  · intro h
    cases h with
    | here h => exact List.mem_singleton.mp h
    | argument hmem _ => cases List.mem_singleton.mp hmem
    | content hmem _ => cases List.mem_singleton.mp hmem
  · rintro rfl
    exact .here List.mem_cons_self

/-- Of nodes other than the function itself, those in a function are those in its arguments. -/
theorem leaf_within_function {position position' : Position} {leaf : Leaf} {name : List Char}
    {arguments : List Node} :
    Within (.leaf position leaf) [.function position' name arguments] ↔
      Within (.leaf position leaf) arguments := by
  constructor
  · intro h
    cases h with
    | here h => cases List.mem_singleton.mp h
    | argument hmem h =>
        cases List.mem_singleton.mp hmem
        exact h
    | content hmem _ => cases List.mem_singleton.mp hmem
  · exact .argument List.mem_cons_self

theorem leaf_within_block {position position' : Position} {leaf : Leaf} {bracket : Bracket}
    {content : List Node} :
    Within (.leaf position leaf) [.block position' bracket content] ↔
      Within (.leaf position leaf) content := by
  constructor
  · intro h
    cases h with
    | here h => cases List.mem_singleton.mp h
    | argument hmem _ => cases List.mem_singleton.mp hmem
    | content hmem h =>
        cases List.mem_singleton.mp hmem
        exact h
  · exact .content List.mem_cons_self

/-! ## Faults -/

/-- The node of a fault. -/
def FaultAt.node (f : FaultAt) : Node :=
  .leaf f.position (.fault f.fault)

mutual

theorem Node.firstFault?_eq_none_iff : ∀ node : Node,
    node.firstFault? = none ↔ ∀ f : FaultAt, ¬ Within f.node [node]
  | .leaf position leaf => by
      constructor
      · intro h f hf
        cases within_leaf.mp hf
        cases h
      · intro h
        cases leaf with
        | fault fault => exact absurd (within_leaf.mpr rfl) (h ⟨fault, position⟩)
        | _ => rfl
  | .function position name arguments => by
      rw [Node.firstFault?, firstFault?_eq_none_iff arguments]
      exact forall_congr' fun f => not_congr leaf_within_function.symm
  | .block position bracket content => by
      rw [Node.firstFault?, firstFault?_eq_none_iff content]
      exact forall_congr' fun f => not_congr leaf_within_block.symm

/-- **The check for faults reaches every node.** -/
theorem firstFault?_eq_none_iff : ∀ nodes : List Node,
    firstFault? nodes = none ↔ ∀ f : FaultAt, ¬ Within f.node nodes
  | [] => by
      refine iff_of_true rfl fun f => not_within_nil f.node
  | node :: nodes => by
      have hnode := Node.firstFault?_eq_none_iff node
      have hnodes := firstFault?_eq_none_iff nodes
      rw [firstFault?]
      constructor
      · intro h f hf
        cases hfirst : node.firstFault? with
        | some fault =>
            rw [hfirst] at h
            cases h
        | none =>
            rw [hfirst] at h
            rcases within_cons.mp hf with hf | hf
            · exact hnode.mp hfirst f hf
            · exact hnodes.mp h f hf
      · intro h
        rw [hnode.mpr fun f hf => h f (within_cons.mpr (.inl hf))]
        exact hnodes.mpr fun f hf => h f (within_cons.mpr (.inr hf))

end

theorem firstFault?_of_forall {nodes : List Node} (h : ∀ node ∈ nodes, node.firstFault? = none) :
    firstFault? nodes = none := by
  induction nodes with
  | nil => rfl
  | cons node nodes ih =>
      rw [List.forall_mem_cons] at h
      rw [firstFault?, h.1]
      exact ih h.2

theorem firstFault?_isSome_iff {nodes : List Node} :
    (firstFault? nodes).isSome ↔ ∃ f : FaultAt, Within f.node nodes := by
  rw [Option.isSome_iff_ne_none, Ne, firstFault?_eq_none_iff, not_forall_not]

end TokenCatalog.Css
