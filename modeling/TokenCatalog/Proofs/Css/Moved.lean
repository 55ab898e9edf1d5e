import TokenCatalog.Css.Write
import TokenCatalog.Proofs.Css.Spans

/-!
# Nodes at other places

The same text further down a file is read as the same nodes at other positions. Nothing but a report
of a fault looks at the positions inside a tree. Main statements:

* `Moved`: two rows of nodes that differ in their positions only;
* `Moved.write`, `Moved.filter` and `Moved.isSome_firstFault?`: what does not look at them.
-/

namespace TokenCatalog.Css

/-- Two rows of nodes that differ in their positions only. -/
inductive Moved : List Node → List Node → Prop
  | nil : Moved [] []
  | leaf (p q : Position) (leaf : Leaf) {xs ys : List Node} (h : Moved xs ys) :
      Moved (.leaf p leaf :: xs) (.leaf q leaf :: ys)
  | nested (p q : Position) (opener : Opener) {content content' xs ys : List Node}
      (hin : Moved content content') (h : Moved xs ys) :
      Moved (opener.node p content :: xs) (opener.node q content' :: ys)

/-- A test that looks neither at the place of a node nor into a nested row. -/
structure PlaceBlind (test : Node → Bool) : Prop where
  leaf (p q : Position) (leaf : Leaf) : test (.leaf p leaf) = test (.leaf q leaf)
  nested (p q : Position) (opener : Opener) (content content' : List Node) :
    test (opener.node p content) = test (opener.node q content')

theorem placeBlind_isFiller : PlaceBlind Node.isFiller where
  leaf _ _ leaf := by cases leaf <;> rfl
  nested _ _ opener _ _ := by cases opener <;> rfl

theorem placeBlind_isComment : PlaceBlind Node.isComment where
  leaf _ _ leaf := by cases leaf <;> rfl
  nested _ _ opener _ _ := by cases opener <;> rfl

theorem placeBlind_isLiteral (text : List Char) : PlaceBlind (Node.isLiteral text) where
  leaf _ _ _ := rfl
  nested _ _ opener _ _ := by cases opener <;> rfl

theorem PlaceBlind.not {test : Node → Bool} (h : PlaceBlind test) : PlaceBlind (!test ·) where
  leaf p q leaf := congrArg (!·) (h.leaf p q leaf)
  nested p q opener content content' := congrArg (!·) (h.nested p q opener content content')

theorem beginsLine_leaf (p q : Position) (leaf : Leaf) :
    (Node.leaf p leaf).beginsLine = (Node.leaf q leaf).beginsLine := by
  cases leaf with
  | whitespace text =>
      cases text with
      | nil => rfl
      | cons c cs =>
          by_cases hc : c = '\n'
          · subst hc
            rfl
          · simp [Node.beginsLine, hc]
  | _ => rfl

/-- Writing looks at what a node is written as, and at little else of it. -/
theorem writeFrom_congr {node node' : Node} {nodes nodes' : List Node}
    (hshape : node.shape = node'.shape) (hline : node.beginsLine = node'.beginsLine)
    (hnode : node.write = node'.write)
    (hnodes : ∀ previous, writeFrom previous nodes = writeFrom previous nodes')
    (previous : Option Shape) :
    writeFrom previous (node :: nodes) = writeFrom previous (node' :: nodes') := by
  have hseparator : separator previous node = separator previous node' := by
    unfold separator
    rw [hshape, hline]
  rw [writeFrom, writeFrom, hseparator, hshape, hnode, hnodes]

namespace Moved

variable {xs ys xs' ys' : List Node}

theorem append (h : Moved xs ys) (h' : Moved xs' ys') : Moved (xs ++ xs') (ys ++ ys') := by
  induction h with
  | nil => exact h'
  | leaf p q leaf _ ih => exact .leaf p q leaf ih
  | nested p q opener hin _ _ ih => exact .nested p q opener hin ih

theorem reverse (h : Moved xs ys) : Moved xs.reverse ys.reverse := by
  induction h with
  | nil => exact .nil
  | leaf p q leaf _ ih =>
      rw [List.reverse_cons, List.reverse_cons]
      exact ih.append (.leaf p q leaf .nil)
  | nested p q opener hin _ _ ih =>
      rw [List.reverse_cons, List.reverse_cons]
      exact ih.append (.nested p q opener hin .nil)

theorem exists_of_leaf {p : Position} {leaf : Leaf} (h : Moved (.leaf p leaf :: xs) ys) :
    ∃ q ys', ys = .leaf q leaf :: ys' ∧ Moved xs ys' := by
  generalize hrow : Node.leaf p leaf :: xs = row at h
  cases h with
  | nil => cases hrow
  | leaf p' q leaf' h =>
      cases hrow
      exact ⟨q, _, rfl, h⟩
  | nested p' q opener => cases opener <;> cases hrow

/-- What is written does not show where it was read. -/
theorem writeFrom (h : Moved xs ys) (previous : Option Shape) :
    Css.writeFrom previous xs = Css.writeFrom previous ys := by
  induction h generalizing previous with
  | nil => rfl
  | leaf p q leaf _ ih =>
      refine writeFrom_congr ?_ ?_ ?_ ih previous
      · cases leaf <;> rfl
      · exact beginsLine_leaf p q leaf
      · rw [Node.write, Node.write]
  | nested p q opener _ _ ihin ih =>
      cases opener with
      | function name =>
          refine writeFrom_congr ?_ ?_ ?_ ih previous
          · rfl
          · rfl
          · rw [Opener.node, Opener.node, Node.write, Node.write, ihin]
      | block bracket =>
          refine writeFrom_congr ?_ ?_ ?_ ih previous
          · cases bracket <;> rfl
          · rfl
          · rw [Opener.node, Opener.node, Node.write, Node.write, ihin]

theorem write (h : Moved xs ys) : Css.write xs = Css.write ys :=
  h.writeFrom none

theorem filter {test : Node → Bool} (htest : PlaceBlind test) (h : Moved xs ys) :
    Moved (xs.filter test) (ys.filter test) := by
  induction h with
  | nil => exact .nil
  | leaf p q leaf _ ih =>
      rw [List.filter_cons, List.filter_cons, htest.leaf p q]
      split
      · exact .leaf p q leaf ih
      · exact ih
  | @nested p q opener content content' _ _ hin _ _ ih =>
      rw [List.filter_cons, List.filter_cons, htest.nested p q opener content content']
      split
      · exact .nested p q opener hin ih
      · exact ih

theorem dropWhile {test : Node → Bool} (htest : PlaceBlind test) (h : Moved xs ys) :
    Moved (xs.dropWhile test) (ys.dropWhile test) := by
  induction h with
  | nil => exact .nil
  | leaf p q leaf h ih =>
      rw [List.dropWhile_cons, List.dropWhile_cons, htest.leaf p q]
      split
      · exact ih
      · exact .leaf p q leaf h
  | @nested p q opener content content' _ _ hin h _ ih =>
      rw [List.dropWhile_cons, List.dropWhile_cons, htest.nested p q opener content content']
      split
      · exact ih
      · exact .nested p q opener hin h

theorem any {test : Node → Bool} (htest : PlaceBlind test) (h : Moved xs ys) :
    xs.any test = ys.any test := by
  induction h with
  | nil => rfl
  | leaf p q leaf _ ih => rw [List.any_cons, List.any_cons, htest.leaf p q, ih]
  | @nested p q opener content content' _ _ _ _ _ ih =>
      rw [List.any_cons, List.any_cons, htest.nested p q opener content content', ih]

theorem any_getLast? {test : Node → Bool} (htest : PlaceBlind test) (h : Moved xs ys) :
    xs.getLast?.any test = ys.getLast?.any test := by
  have hreverse := h.reverse
  rw [← List.head?_reverse, ← List.head?_reverse]
  generalize xs.reverse = xs, ys.reverse = ys at hreverse
  cases hreverse with
  | nil => rfl
  | leaf p q leaf _ => exact htest.leaf p q leaf
  | nested p q opener _ _ => exact htest.nested p q opener _ _

theorem isSome_firstFault? (h : Moved xs ys) :
    (firstFault? xs).isSome = (firstFault? ys).isSome := by
  induction h with
  | nil => rfl
  | leaf p q leaf _ ih =>
      rw [firstFault?, firstFault?]
      cases leaf with
      | fault fault => rfl
      | _ => exact ih
  | nested p q opener _ _ ihin ih =>
      have hnode : ∀ r content, (opener.node r content).firstFault? = firstFault? content := by
        cases opener <;> exact fun _ _ => rfl
      rw [firstFault?, firstFault?, hnode, hnode]
      revert ihin
      cases firstFault? _ <;> cases firstFault? _ <;> intro ihin
      · exact ih
      · cases ihin
      · cases ihin
      · rfl

end Moved

end TokenCatalog.Css
