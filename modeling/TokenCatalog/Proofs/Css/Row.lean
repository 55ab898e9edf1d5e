import TokenCatalog.Css.Write
import TokenCatalog.Proofs.Css.Word
import TokenCatalog.Text.Blank

/-!
# Rows of tokens

A text put together from tokens is read as these tokens, if each of them is scanned as a whole in
front of what follows. Pieces that do not touch each other can be put together with separators. Main
statements:

* `Reads`: the tokens of a row are scanned one after the other;
* `Reads.parse_eq`: the tree of the text is the row;
* `Separate.joined`: separate pieces with separators between them are a separate piece.
-/

namespace TokenCatalog.Css

/-! ## Tokens -/

/-- A text and the leaf that it is to be read as. -/
structure Token where
  text : List Char
  leaf : Leaf

def Token.blank : Token := ⟨[' '], .whitespace [' ']⟩

def Token.comma : Token := ⟨[','], .literal [',']⟩

def rowText (row : List Token) : List Char :=
  row.flatMap Token.text

theorem rowText_cons (token : Token) (row : List Token) :
    rowText (token :: row) = token.text ++ rowText row :=
  List.flatMap_cons

theorem rowText_append (xs ys : List Token) : rowText (xs ++ ys) = rowText xs ++ rowText ys :=
  List.flatMap_append

def placed (p : Position) : List Token → List Node
  | [] => []
  | token :: row => .leaf p token.leaf :: placed (p.after token.text) row

/-- Nodes that are single tokens, with given leaves. -/
inductive AreLeaves : List Node → List Leaf → Prop
  | nil : AreLeaves [] []
  | cons (p : Position) (leaf : Leaf) {nodes : List Node} {leaves : List Leaf}
      (h : AreLeaves nodes leaves) : AreLeaves (.leaf p leaf :: nodes) (leaf :: leaves)

theorem areLeaves_placed (p : Position) (row : List Token) :
    AreLeaves (placed p row) (row.map Token.leaf) := by
  induction row generalizing p with
  | nil => exact .nil
  | cons token row ih => exact .cons p token.leaf (ih _)

theorem AreLeaves.length_eq {nodes : List Node} {leaves : List Leaf} (h : AreLeaves nodes leaves) :
    nodes.length = leaves.length := by
  induction h with
  | nil => rfl
  | cons p leaf h ih => rw [List.length_cons, List.length_cons, ih]

theorem AreLeaves.map_eq {α : Type} {f : Node → α} {g : Leaf → α}
    (hfg : ∀ p leaf, f (.leaf p leaf) = g leaf)
    {nodes : List Node} {leaves : List Leaf} (h : AreLeaves nodes leaves) :
    nodes.map f = leaves.map g := by
  induction h with
  | nil => rfl
  | cons p leaf h ih => rw [List.map_cons, List.map_cons, hfg, ih]

theorem AreLeaves.exists_mem {nodes : List Node} {leaves : List Leaf} (h : AreLeaves nodes leaves)
    {node : Node} (hnode : node ∈ nodes) : ∃ p, ∃ leaf ∈ leaves, node = .leaf p leaf := by
  induction h with
  | nil => cases hnode
  | cons p leaf h ih =>
      rcases List.mem_cons.mp hnode with rfl | hnode
      · exact ⟨p, leaf, List.mem_cons_self, rfl⟩
      · obtain ⟨q, other, hother, heq⟩ := ih hnode
        exact ⟨q, other, List.mem_cons_of_mem leaf hother, heq⟩

/-- Nodes that are all single tokens have leaves. -/
theorem exists_areLeaves {P : Leaf → Prop} {nodes : List Node}
    (h : ∀ node ∈ nodes, ∃ p leaf, node = .leaf p leaf ∧ P leaf) :
    ∃ leaves, AreLeaves nodes leaves ∧ ∀ leaf ∈ leaves, P leaf := by
  induction nodes with
  | nil => exact ⟨[], .nil, nofun⟩
  | cons node nodes ih =>
      rw [List.forall_mem_cons] at h
      obtain ⟨⟨p, leaf, rfl, hleaf⟩, hnodes⟩ := h
      obtain ⟨leaves, hleaves, hall⟩ := ih hnodes
      exact ⟨leaf :: leaves, .cons p leaf hleaves, List.forall_mem_cons.mpr ⟨hleaf, hall⟩⟩

theorem AreLeaves.exists_of_append {nodes : List Node} {xs ys : List Leaf}
    (h : AreLeaves nodes (xs ++ ys)) :
    ∃ before after, nodes = before ++ after ∧ AreLeaves before xs ∧ AreLeaves after ys := by
  induction xs generalizing nodes with
  | nil => exact ⟨[], nodes, rfl, .nil, h⟩
  | cons x xs ih =>
      cases h with
      | cons p leaf h =>
          obtain ⟨before, after, rfl, hbefore, hafter⟩ := ih h
          exact ⟨_, after, rfl, .cons p x hbefore, hafter⟩

/-- The leaves that are neither blanks nor comments. -/
theorem AreLeaves.significant {nodes : List Node} {leaves : List Leaf}
    (h : AreLeaves nodes leaves) :
    AreLeaves (significant nodes)
      (leaves.filter fun leaf => !(Node.leaf .start leaf).isFiller) := by
  induction h with
  | nil => exact .nil
  | @cons p leaf nodes leaves h ih =>
      have hsame : (Node.leaf .start leaf).isFiller = (Node.leaf p leaf).isFiller := by
        cases leaf <;> rfl
      rw [Css.significant, List.filter_cons, List.filter_cons, hsame]
      split
      · exact .cons p leaf ih
      · exact ih

/-! ## Reading a row -/

def Token.ScansBefore (token : Token) (rest : List Char) : Prop :=
  ∃ c cs, token.text = c :: cs ∧ scan c (cs ++ rest) = .one token.leaf cs.length

/-- Each token of a row is scanned as a whole in front of what follows. -/
inductive Reads (rest : List Char) : List Token → Prop
  | nil : Reads rest []
  | cons {token : Token} {row : List Token} (h : token.ScansBefore (rowText row ++ rest))
      (hrow : Reads rest row) : Reads rest (token :: row)

theorem Reads.append {xs ys : List Token} {rest : List Char} (hx : Reads (rowText ys ++ rest) xs)
    (hy : Reads rest ys) : Reads rest (xs ++ ys) := by
  induction hx with
  | nil => exact hy
  | cons h _ ih =>
      refine .cons ?_ ih
      show Token.ScansBefore _ (rowText (_ ++ ys) ++ rest)
      rwa [rowText_append, List.append_assoc]

theorem Reads.spans {row : List Token} (h : Reads [] row) (p : Position) :
    Spans ⟨p, rowText row⟩ (placed p row) ⟨p.after (rowText row), []⟩ := by
  induction h generalizing p with
  | nil => exact .nil _
  | @cons token row h _ ih =>
      obtain ⟨text, leaf⟩ := token
      obtain ⟨c, cs, rfl, hscan⟩ := h
      rw [List.append_nil] at hscan
      have hbehind : Point.skip (cs.length + 1) ⟨p, c :: (cs ++ rowText row)⟩ =
          ⟨p.after (c :: cs), rowText row⟩ := by
        simp [Point.skip]
      have hrest := ih (p.after (c :: cs))
      rw [← hbehind] at hrest
      rw [rowText_cons, Position.after_append]
      refine Spans.leaf hscan ?_
      exact hrest

/-- **A text is read as the tokens that it was put together from.** -/
theorem Reads.parse_eq {row : List Token} (h : Reads [] row)
    (huniform : uniform (rowText row) = rowText row) : parse (rowText row) = placed .start row := by
  rw [parse, lexemes, huniform]
  exact nest_of_spans (h.spans .start) rfl

/-! ## Separate pieces -/

def Delimits (rest : List Char) : Prop :=
  ∀ c ∈ rest.head?, c = ' ' ∨ c = ','

theorem endsName_of_delimits {rest : List Char} (h : Delimits rest) : EndsName rest := by
  intro c hc
  rcases h c hc with rfl | rfl <;> decide

/-- A row that is read in front of every space and comma, and does not begin with a blank. -/
structure Separate (row : List Token) : Prop where
  reads : ∀ rest, Delimits rest → Reads rest row
  firm : ∃ c cs, rowText row = c :: cs ∧ isSpace c = false

theorem separate_token {c : Char} {cs : List Char} {leaf : Leaf} (hfirm : isSpace c = false)
    (h : ∀ rest, Delimits rest → scan c (cs ++ rest) = .one leaf cs.length) :
    Separate [⟨c :: cs, leaf⟩] where
  reads rest hrest := .cons ⟨c, cs, rfl, h rest hrest⟩ .nil
  firm := ⟨c, cs, by simp [rowText], hfirm⟩

structure Separates (row : List Token) : Prop where
  reads : ∀ c cs, isSpace c = false → Reads (c :: cs) row
  delimits : ∀ rest, Delimits (rowText row ++ rest)

def joined (separator : List Token) (rows : List (List Token)) : List Token :=
  (rows.intersperse separator).flatten

theorem joined_cons (separator row : List Token) {rows : List (List Token)} (h : rows ≠ []) :
    joined separator (row :: rows) = row ++ (separator ++ joined separator rows) := by
  cases rows with
  | nil => exact absurd rfl h
  | cons row' rows => rfl

theorem rowText_joined (separator : List Token) (rows : List (List Token)) :
    rowText (joined separator rows) = Text.joinWith (rowText separator) (rows.map rowText) := by
  induction rows with
  | nil => rfl
  | cons row rows ih =>
      cases rows with
      | nil => simp [joined, Text.joinWith]
      | cons row' rows =>
          rw [joined_cons _ _ (List.cons_ne_nil _ _), rowText_append, rowText_append, ih]
          rfl

/-- **Separate pieces stay separate when they are put together.** -/
theorem Separate.joined {separator : List Token} (hsep : Separates separator)
    {rows : List (List Token)} (hne : rows ≠ []) (h : ∀ row ∈ rows, Separate row) :
    Separate (joined separator rows) := by
  induction rows with
  | nil => exact absurd rfl hne
  | cons row rows ih =>
      rw [List.forall_mem_cons] at h
      cases rows with
      | nil =>
          have hone : Css.joined separator [row] = row := by simp [Css.joined]
          rw [hone]
          exact h.1
      | cons row' rows =>
          have hrest := ih (List.cons_ne_nil _ _) h.2
          rw [joined_cons _ _ (List.cons_ne_nil _ _)]
          obtain ⟨c, cs, htext, hfirm⟩ := h.1.firm
          constructor
          · intro rest hdelimits
            obtain ⟨d, ds, htext', hfirm'⟩ := hrest.firm
            refine Reads.append ?_ (Reads.append ?_ (hrest.reads rest hdelimits))
            · rw [rowText_append, List.append_assoc]
              exact h.1.reads _ (hsep.delimits _)
            · rw [htext']
              exact hsep.reads d _ hfirm'
          · rw [rowText_append, htext]
            exact ⟨c, _, rfl, hfirm⟩

theorem blank_scansBefore {c : Char} (cs : List Char) (h : isSpace c = false) :
    Token.blank.ScansBefore (c :: cs) := by
  refine ⟨' ', [], rfl, ?_⟩
  rw [List.nil_append, scan, if_pos (by decide), List.takeWhile_cons_of_neg (by rw [h]; decide)]
  rfl

theorem separates_blank : Separates [.blank] where
  reads _ cs h := .cons (blank_scansBefore cs h) .nil
  delimits _ := by rintro c ⟨⟩; exact .inl rfl

theorem separates_comma : Separates [.comma, .blank] where
  reads _ cs h :=
    .cons ⟨',', [], rfl, scan_comma _⟩ (.cons (blank_scansBefore cs h) .nil)
  delimits _ := by rintro c ⟨⟩; exact .inr rfl

/-! ## Leaves with spaces -/

def spaced (leaves : List Leaf) : List Token :=
  joined [.blank] (leaves.map fun leaf => [⟨leaf.write, leaf⟩])

theorem rowText_spaced (leaves : List Leaf) :
    rowText (spaced leaves) = Text.joinWith [' '] (leaves.map Leaf.write) := by
  rw [spaced, rowText_joined, List.map_map]
  congr 1
  refine List.map_congr_left fun leaf _ => ?_
  simp [rowText]

theorem leaves_spaced (leaves : List Leaf) :
    (spaced leaves).map Token.leaf = leaves.intersperse (.whitespace [' ']) := by
  induction leaves with
  | nil => rfl
  | cons leaf leaves ih =>
      cases leaves with
      | nil => rfl
      | cons leaf' leaves =>
          rw [spaced, List.map_cons, joined_cons _ _ (by simp), ← spaced, List.map_append,
            List.map_append, ih]
          rfl

/-- Leaves that are separate as they are written stay so with spaces between them. -/
theorem separate_spaced {leaves : List Leaf} (hne : leaves ≠ [])
    (h : ∀ leaf ∈ leaves, Separate [⟨leaf.write, leaf⟩]) : Separate (spaced leaves) := by
  refine Separate.joined separates_blank (by simpa using hne) ?_
  rw [List.forall_mem_map]
  exact h

theorem mem_intersperse {α : Type} {separator x : α} {xs : List α}
    (h : x ∈ xs.intersperse separator) : x = separator ∨ x ∈ xs := by
  induction xs with
  | nil => cases h
  | cons y ys ih =>
      cases ys with
      | nil => exact .inr h
      | cons z zs =>
          rw [List.intersperse_cons_cons] at h
          rcases List.mem_cons.mp h with rfl | h
          · exact .inr List.mem_cons_self
          · rcases List.mem_cons.mp h with rfl | h
            · exact .inl rfl
            · exact (ih h).imp_right (List.mem_cons_of_mem y)

theorem filter_intersperse {α : Type} {p : α → Bool} {separator : α} (hsep : p separator = false)
    {xs : List α} (h : ∀ x ∈ xs, p x = true) : (xs.intersperse separator).filter p = xs := by
  induction xs with
  | nil => rfl
  | cons x xs ih =>
      rw [List.forall_mem_cons] at h
      cases xs with
      | nil => exact List.filter_cons_of_pos h.1
      | cons y ys =>
          rw [List.intersperse_cons_cons, List.filter_cons_of_pos h.1,
            List.filter_cons_of_neg (by rw [hsep]; decide), ih h.2]

/-! ## Fillers and commas -/

theorem isLiteral_of_isFiller {node : Node} (h : node.isFiller = true) (text : List Char) :
    node.isLiteral text = false := by
  unfold Node.isFiller at h
  split at h
  · exact decide_eq_false nofun
  · exact decide_eq_false nofun
  · cases h

theorem significant_append {lead : List Node} (h : ∀ node ∈ lead, node.isFiller = true)
    (nodes : List Node) : significant (lead ++ nodes) = significant nodes := by
  rw [significant, List.filter_append, List.filter_eq_nil_iff.mpr, List.nil_append, significant]
  intro node hnode
  rw [h node hnode]
  decide

theorem significant_eq_of_parseOne? {cs : List Char} {node : Node} (h : parseOne? cs = some node) :
    significant (parse cs) = [node] := by
  unfold parseOne? at h
  split at h
  · next heq =>
      cases h
      exact heq
  · cases h

theorem splitCommas_of_no_comma {nodes : List Node}
    (h : ∀ node ∈ nodes, node.isLiteral [','] = false) : splitCommas nodes = [nodes] := by
  induction nodes with
  | nil => rfl
  | cons node nodes ih =>
      rw [List.forall_mem_cons] at h
      rw [splitCommas, h.1, ih h.2]
      rfl

/-- The first part ends at the first comma. -/
theorem splitCommas_append {before : List Node} (h : ∀ node ∈ before, node.isLiteral [','] = false)
    {comma : Node} (hcomma : comma.isLiteral [','] = true) (after : List Node) :
    splitCommas (before ++ comma :: after) = before :: splitCommas after := by
  induction before with
  | nil => rw [List.nil_append, splitCommas, if_pos hcomma]
  | cons node before ih =>
      rw [List.forall_mem_cons] at h
      rw [List.cons_append, splitCommas, h.1, ih h.2]
      rfl

end TokenCatalog.Css
