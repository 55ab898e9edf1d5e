import TokenCatalog.Proofs.Except
import TokenCatalog.Proofs.Json.Table
import TokenCatalog.Proofs.Xml.Grammar
import Mathlib.Data.List.Chain

/-!
# The trees of texts are tidy

A tree is built while its text is read. Character data is gathered until another node or an end is
met, so that no two texts are ever next to each other, and attributes are kept in a table by name.
Main statements:

* `Building.step_isTidy`: no event makes an open element untidy;
* `isTidy_of_parse?`: the tree of a text is tidy, and so is every element in it.
-/

namespace TokenCatalog.Xml

/-! ## Rows of nodes -/

def Node.Apart (a b : Node) : Prop :=
  ¬ (a.isText = true ∧ b.isText = true)

theorem Node.apart_comm (a b : Node) : a.Apart b ↔ b.Apart a :=
  not_congr and_comm

/-- A row is tidy if its nodes are and no two texts are next to each other. -/
theorem areTidy_iff {nodes : List Node} :
    areTidy nodes = true ↔ (∀ node ∈ nodes, node.isTidy = true) ∧ nodes.IsChain Node.Apart := by
  induction nodes with
  | nil => simp [areTidy]
  | cons node nodes ih =>
      have hapart : (!(node.isText && nodes.head?.any Node.isText)) = true ↔
          ∀ next ∈ nodes.head?, node.Apart next := by
        cases nodes with
        | nil => simp
        | cons next more => cases hnode : node.isText <;> simp [Node.Apart, hnode]
      rw [areTidy, Bool.and_eq_true, Bool.and_eq_true, hapart, ih, List.forall_mem_cons,
        List.isChain_cons]
      tauto

theorem passage_ne_nil {cs : List Char} : passage cs ≠ [] := by
  unfold passage
  split
  · split
    · exact List.cons_ne_nil _ _
    · exact List.cons_ne_nil _ _
  · next hblank =>
    rintro rfl
    exact hblank rfl

theorem attributesIn_nodup (scope : Scope) (declarations : List Declaration)
    (attributes : List (ExpandedName × List Char)) :
    ((attributesIn scope declarations attributes).map Prod.fst).Nodup := by
  have hsame : ∀ a b : List Char, (a == b) = decide (id a = id b) := beq_eq_decide
  exact tableOf_nodup hsame _

/-! ## Open elements -/

/-- An open element whose attributes are different and whose nodes so far are tidy, the last of them
no text. -/
structure Frame.IsTidy (f : Frame) : Prop where
  distinct : (f.attributes.map Prod.fst).Nodup
  children : ∀ node ∈ f.children, node.isTidy = true
  apart : f.children.IsChain Node.Apart
  noText : f.children.head?.any Node.isText = false

/-- The nodes of an open element are tidy once its character data is one of them. -/
theorem Frame.IsTidy.settle {f : Frame} (h : f.IsTidy) :
    (f.settle.attributes.map Prod.fst).Nodup ∧ (∀ node ∈ f.settle.children, node.isTidy = true) ∧
      f.settle.children.IsChain Node.Apart := by
  obtain ⟨hdistinct, hchildren, hapart, hnoText⟩ := h
  unfold Frame.settle
  split
  · exact ⟨hdistinct, hchildren, hapart⟩
  · refine ⟨hdistinct, List.forall_mem_cons.mpr ⟨?_, hchildren⟩, List.isChain_cons.mpr ⟨?_, hapart⟩⟩
    · simpa [Node.isTidy] using passage_ne_nil
    · intro node hnode htexts
      rw [hnode, Option.any_some, htexts.2] at hnoText
      cases hnoText

theorem Frame.IsTidy.add {f : Frame} (h : f.IsTidy) {node : Node} (hnode : node.isTidy = true)
    (hnoText : node.isText = false) : (f.add node).IsTidy := by
  obtain ⟨hdistinct, hchildren, hapart⟩ := h.settle
  refine ⟨hdistinct, List.forall_mem_cons.mpr ⟨hnode, hchildren⟩,
    List.isChain_cons.mpr ⟨?_, hapart⟩, hnoText⟩
  intro _ _ htexts
  rw [hnoText] at htexts
  cases htexts.1

theorem Frame.IsTidy.node {f : Frame} (h : f.IsTidy) : f.node.isTidy = true := by
  obtain ⟨hdistinct, hchildren, hapart⟩ := h.settle
  have hreverse : f.settle.children.reverse.IsChain Node.Apart := by
    rw [List.isChain_reverse]
    exact hapart.imp fun a b hab => (Node.apart_comm a b).mp hab
  have hrow : areTidy f.settle.children.reverse = true :=
    areTidy_iff.mpr ⟨fun node hnode => hchildren node (List.mem_reverse.mp hnode), hreverse⟩
  simp [Frame.node, Node.isTidy, hdistinct, hrow]

/-! ## Building -/

/-- Open elements that are tidy, and a root that is. -/
structure Building.IsTidy (b : Building) : Prop where
  frames : ∀ f ∈ b.frames, f.IsTidy
  root : ∀ node, b.root = some node → node.isTidy = true

theorem Building.IsTidy.finish {b : Building} (h : b.IsTidy) : b.finish.IsTidy := by
  obtain ⟨hframes, hroot⟩ := h
  unfold Building.finish
  split
  · exact ⟨hframes, hroot⟩
  · next f heq =>
    rw [heq, List.forall_mem_singleton] at hframes
    refine ⟨nofun, ?_⟩
    rintro node ⟨⟩
    exact hframes.node
  · next f g frames heq =>
    rw [heq, List.forall_mem_cons, List.forall_mem_cons] at hframes
    obtain ⟨hf, hg, hmore⟩ := hframes
    exact ⟨List.forall_mem_cons.mpr ⟨hg.add hf.node rfl, hmore⟩, hroot⟩

theorem Building.IsTidy.finishTo {b : Building} (h : b.IsTidy) (name : Name) (fuel : Nat) :
    (b.finishTo name fuel).IsTidy := by
  induction fuel generalizing b with
  | zero => exact h
  | succ fuel ih =>
      rw [Building.finishTo]
      split
      · split
        · exact h.finish
        · exact ih h.finish
      · exact h

theorem Building.IsTidy.update {b : Building} (h : b.IsTidy) {change : Frame → Frame}
    (hchange : ∀ f : Frame, f.IsTidy → (change f).IsTidy) : (b.update change).IsTidy := by
  obtain ⟨hframes, hroot⟩ := h
  unfold Building.update
  split
  · exact ⟨hframes, hroot⟩
  · next f frames heq =>
    rw [heq, List.forall_mem_cons] at hframes
    exact ⟨List.forall_mem_cons.mpr ⟨hchange f hframes.1, hframes.2⟩, hroot⟩

/-- **No event makes an open element untidy.** -/
theorem Building.step_isTidy {b : Building} (h : b.IsTidy) (event : Event) :
    (b.step event).IsTidy := by
  cases event with
  | start name declarations attributes =>
      refine ⟨List.forall_mem_cons.mpr ⟨?_, h.frames⟩, h.root⟩
      exact ⟨attributesIn_nodup _ _ _, nofun, .nil, rfl⟩
  | finish name =>
      have hfinished := h.finishTo (b.scope.written name) b.frames.length
      exact ⟨hfinished.frames, hfinished.root⟩
  | text cs => exact h.update fun f hf => ⟨hf.distinct, hf.children, hf.apart, hf.noText⟩
  | comment cs => exact h.update fun f hf => hf.add rfl rfl
  | instruction cs => exact h.update fun f hf => hf.add rfl rfl

/-! ## Trees -/

mutual

theorem Node.isTidy_of_mem_elements :
    ∀ {node element : Node}, node.isTidy = true → element ∈ node.elements → element.isTidy = true
  | .element name attributes children, element, h, hmem => by
      rw [Node.elements, List.mem_cons] at hmem
      rcases hmem with rfl | hmem
      · exact h
      · rw [Node.isTidy, Bool.and_eq_true] at h
        exact isTidy_of_mem_elementsOf h.2 hmem

theorem isTidy_of_mem_elementsOf :
    ∀ {nodes : List Node} {element : Node}, areTidy nodes = true → element ∈ elementsOf nodes →
      element.isTidy = true
  | node :: nodes, element, h, hmem => by
      rw [areTidy, Bool.and_eq_true, Bool.and_eq_true] at h
      rw [elementsOf, List.mem_append] at hmem
      rcases hmem with hmem | hmem
      · exact Node.isTidy_of_mem_elements h.1.1 hmem
      · exact isTidy_of_mem_elementsOf h.2 hmem

end

/-- **The tree of a text is tidy**, and so is every element in it. -/
theorem isTidy_of_parse? {cs : List Char} {root : Node} (h : parse? cs = .ok (some root))
    {element : Node} (helement : element ∈ root.elements) : element.isTidy = true := by
  have hevents : ∀ (events : List Event) {b : Building}, b.IsTidy →
      (events.foldl Building.step b).IsTidy := by
    intro events
    induction events with
    | nil => exact fun hb => hb
    | cons event events ih => exact fun hb => ih (Building.step_isTidy hb event)
  have hrepeat : ∀ (n : Nat) {b : Building}, b.IsTidy →
      (Nat.repeat Building.finish n b).IsTidy := by
    intro n
    induction n with
    | zero => exact fun hb => hb
    | succ n ih => exact fun hb => (ih hb).finish
  obtain ⟨met, -, hroot⟩ := exists_of_bind_eq_ok h
  have hempty : Building.IsTidy ⟨[], [], none⟩ := ⟨nofun, nofun⟩
  have htidy := (hrepeat _ (hevents met hempty)).root root (Except.ok.inj hroot)
  exact Node.isTidy_of_mem_elements htidy helement

end TokenCatalog.Xml
