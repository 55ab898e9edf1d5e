import TokenCatalog.Proofs.Css.Spans
import TokenCatalog.Proofs.Text.Search

/-!
# Comments of a text

The comments of a tree are pieces of the text that it was read from, whatever stands around them.
Main statements:

* `comment_isInfix`: so it is at every depth of the tree of a text without faults;
* `uniform_retouched`: that the text is made uniform first brings no word about.
-/

namespace TokenCatalog.Css

theorem takeComment_isPrefix (cs : List Char) : (takeComment cs).1 <+: cs := by
  induction cs using takeComment.induct with
  | case1 => exact List.nil_prefix
  | case2 cs => exact List.nil_prefix
  | case3 c cs hopen text closed hrest ih =>
      rw [takeComment]
      · exact List.cons_prefix_cons.mpr ⟨rfl, ih⟩
      · exact hopen

/-- A comment is read from a slash and a star on. -/
theorem exists_of_scan_comment {c : Char} {cs text : List Char} {more : Nat}
    (h : scan c cs = .one (.comment text) more) :
    ∃ rest, c :: cs = '/' :: '*' :: rest ∧ text = (takeComment rest).1 := by
  have hkind := scan_kind c cs
  generalize hscan : scan c cs = scanned at h hkind
  cases hkind with
  | leaf c cs leaf more hleaf =>
      cases h
      exact absurd rfl (hleaf text)
  | comment cs more =>
      cases h
      exact ⟨cs, rfl, rfl⟩
  | ended => cases h
  | opening c cs opener => cases opener <;> cases h
  | closing => cases h

theorem comment_of_scan {c : Char} {cs text : List Char} {more : Nat}
    (h : scan c cs = .one (.comment text) more) : text <:+: c :: cs := by
  obtain ⟨rest, hrest, rfl⟩ := exists_of_scan_comment h
  rw [hrest]
  exact (takeComment_isPrefix rest).isInfix.trans ⟨['/', '*'], [], by simp⟩

theorem leaf_within_opener {p q : Position} {leaf : Leaf} {opener : Opener} {content : List Node} :
    Within (.leaf p leaf) [opener.node q content] ↔ Within (.leaf p leaf) content := by
  cases opener with
  | function name => exact leaf_within_function
  | block bracket => exact leaf_within_block

theorem Point.skip_isSuffix (n : Nat) (x : Point) : (x.skip n).text <:+ x.text :=
  List.drop_suffix n x.text

theorem Spans.comment_isInfix {x y : Point} {nodes : List Node} (h : Spans x nodes y)
    {p : Position} {text : List Char} (hin : Within (.leaf p (.comment text)) nodes) :
    text <:+: x.text := by
  have hskip : ∀ {n : Nat} {x : Point}, text <:+: (x.skip n).text → text <:+: x.text :=
    fun hlater => hlater.trans (Point.skip_isSuffix _ _).isInfix
  induction h with
  | nil x => exact absurd hin (not_within_nil _)
  | leaf hscan h ih =>
      rcases within_cons.mp hin with hhere | hlater
      · cases within_leaf.mp hhere
        exact comment_of_scan hscan
      · exact hskip (ih hlater)
  | closed hscan hcontent h ihcontent ih =>
      rcases within_cons.mp hin with hhere | hlater
      · exact hskip (ihcontent (leaf_within_opener.mp hhere))
      · exact hskip ((hskip (ih hlater)).trans hcontent.isSuffix.isInfix)
  | ended hscan hcontent ihcontent => exact hskip (ihcontent (leaf_within_opener.mp hin))

/-- **A comment of a tree is a piece of the text.** -/
theorem comment_isInfix {cs : List Char} (hsound : firstFault? (parse cs) = none) {p : Position}
    {text : List Char} (h : Within (.leaf p (.comment text)) (parse cs)) :
    text <:+: uniform cs := by
  obtain ⟨q, hspans⟩ := parse_spans hsound
  exact hspans.comment_isInfix h

/-- Making a text uniform writes only line feeds and replacement characters. -/
theorem uniform_retouched {letter : Char → Bool} (hline : letter '\n' = false)
    (hreplaced : letter '\ufffd' = false) (cs : List Char) :
    Text.Retouched letter (uniform cs) cs := by
  induction cs using uniform.induct with
  | case1 => exact .nil
  | case2 cs ih => exact ih.mark hline ['\r', '\n']
  | case3 c cs hreturn ih =>
      rw [uniform]
      · split
        · exact ih.mark hline [c]
        · split
          · exact ih.mark hreplaced [c]
          · exact ih.same c
      · exact hreturn

end TokenCatalog.Css
