import Mathlib.Data.List.TakeWhile
import TokenCatalog.Proofs.Css.Spans
import TokenCatalog.Proofs.Css.Stop

/-!
# Pieces of a text and their trees

A row of nodes that ends in front of a stop is the tree of the piece of text that it spans, whatever
follows. Main statements:

* `SpansClosed`: reading from one point of a text to another, with no bracket left open;
* `SpansClosed.cut`: reading up to a stop reads the same where the text ends instead;
* `Spans.parseAt_eq`: so the nodes are the tree of the piece, read on its own.
-/

namespace TokenCatalog.Css

/-- The tree of uniform text that begins at a position. -/
def parseAt (position : Position) (cs : List Char) : List Node :=
  nest (lexemesFrom position cs)

/-! ## Rows that are closed -/

/-- Reading a text from one point to another gives a row of nodes, and every bracket in it is closed
by its partner. -/
inductive SpansClosed : Point → List Node → Point → Prop
  | nil (x : Point) : SpansClosed x [] x
  | leaf {p : Position} {c : Char} {cs : List Char} {leaf : Leaf} {more : Nat}
      {nodes : List Node} {y : Point} (hscan : scan c cs = .one leaf more)
      (h : SpansClosed (Point.skip (more + 1) ⟨p, c :: cs⟩) nodes y) :
      SpansClosed ⟨p, c :: cs⟩ (.leaf p leaf :: nodes) y
  | closed {p q : Position} {c : Char} {cs rest : List Char} {opener : Opener} {more : Nat}
      {content nodes : List Node} {y : Point} (hscan : scan c cs = ⟨[opener.lexeme], more⟩)
      (hin : SpansClosed (Point.skip (more + 1) ⟨p, c :: cs⟩) content
        ⟨q, opener.bracket.closing :: rest⟩)
      (h : SpansClosed (Point.skip 1 ⟨q, opener.bracket.closing :: rest⟩) nodes y) :
      SpansClosed ⟨p, c :: cs⟩ (opener.node p content :: nodes) y

theorem SpansClosed.spans {x y : Point} {nodes : List Node} (h : SpansClosed x nodes y) :
    Spans x nodes y := by
  induction h with
  | nil x => exact .nil x
  | leaf hscan _ ih => exact .leaf hscan ih
  | closed hscan _ _ ihin ih => exact .closed hscan ihin ih

/-- Only at the end of the text can a bracket be left open. -/
theorem Spans.spansClosed {x y : Point} {nodes : List Node} (h : Spans x nodes y)
    (hne : y.text ≠ []) : SpansClosed x nodes y := by
  induction h with
  | nil x => exact .nil x
  | leaf hscan _ ih => exact .leaf hscan (ih hne)
  | closed hscan _ _ ihin ih => exact .closed hscan (ihin (List.cons_ne_nil _ _)) (ih hne)
  | ended => exact absurd rfl hne

/-! ## Cutting the text -/

/-- A scan that leaves a stop behind lies in front of it. -/
theorem exists_of_skip {c : Char} {cs s t rest : List Char} {more : Nat} (h : c :: cs = s ++ rest)
    (hsuffix : t ++ rest <:+ (c :: cs).drop (more + 1)) (hrest : rest ≠ []) :
    ∃ s', s = c :: s' ∧ cs = s' ++ rest ∧ more ≤ s'.length := by
  have hle := hsuffix.length_le
  rw [List.length_append, List.length_drop] at hle
  have hlength := congrArg List.length h
  rw [List.length_append] at hlength
  have hpositive := List.length_pos_iff.mpr hrest
  cases s with
  | nil =>
      rw [List.length_nil] at hlength
      omega
  | cons d s' =>
      obtain ⟨rfl, hcs⟩ := List.cons.inj h
      refine ⟨s', rfl, hcs, ?_⟩
      rw [List.length_cons, List.length_cons] at hlength
      rw [List.length_cons] at hle
      omega

/-- **Reading up to a stop reads the same where the text ends instead.** -/
theorem SpansClosed.cut {x y : Point} {nodes : List Node} (h : SpansClosed x nodes y)
    {rest : List Char} (hrest : Stops rest) (hne : rest ≠ []) : ∀ s t, x.text = s ++ rest →
      y.text = t ++ rest → SpansClosed ⟨x.position, s⟩ nodes ⟨y.position, t⟩ := by
  induction h with
  | nil x =>
      intro s t hx hy
      rw [List.append_cancel_right (hx.symm.trans hy)]
      exact .nil _
  | @leaf p c cs leaf more nodes y hscan h ih =>
      intro s t hx hy
      obtain ⟨s', rfl, rfl, hmore⟩ := exists_of_skip hx (hy ▸ h.spans.isSuffix) hne
      have hin := Nat.succ_le_succ hmore
      have hscan' : scan c s' = .one leaf more := by
        rw [← hscan, scan_stop hrest c s' (by rw [hscan]; exact hmore)]
      rw [← List.cons_append, Point.skip_append hin] at ih
      refine .leaf hscan' ?_
      exact ih _ t rfl hy
  | @closed p q c cs tail opener more content nodes y hscan hcontent h ihcontent ih =>
      intro s t hx hy
      -- the closing bracket is in front of the stop, since the row goes on behind it
      obtain ⟨u, hu⟩ : ∃ u, tail = u ++ rest := by
        obtain ⟨before, hbefore⟩ := hy ▸ h.spans.isSuffix
        exact ⟨before ++ t, by rw [List.append_assoc]; exact hbefore.symm⟩
      subst hu
      obtain ⟨s', rfl, rfl, hmore⟩ :=
        exists_of_skip (t := opener.bracket.closing :: u) hx hcontent.spans.isSuffix hne
      have hin : more + 1 ≤ (c :: s').length := Nat.succ_le_succ hmore
      have hscan' : scan c s' = ⟨[opener.lexeme], more⟩ := by
        rw [← hscan, scan_stop hrest c s' (by rw [hscan]; exact hmore)]
      rw [← List.cons_append, Point.skip_append hin] at ihcontent
      rw [← List.cons_append, Point.skip_append (by simp)] at ih
      exact .closed hscan' (ihcontent _ (opener.bracket.closing :: u) rfl rfl) (ih _ t rfl hy)

/-- The piece of text that a row spans, read on its own, is closed if a stop follows it. -/
theorem Spans.closed_piece {x y : Point} {nodes : List Node} (h : Spans x nodes y) {cs : List Char}
    (hcs : x.Leads cs y) (hstop : Stops y.text) (hne : y.text ≠ []) :
    SpansClosed ⟨x.position, cs⟩ nodes ⟨y.position, []⟩ :=
  (h.spansClosed hne).cut hstop hne cs [] hcs.text rfl

/-- The nodes of a row that ends at a stop are the tree of the piece of text that it spans. -/
theorem Spans.parseAt_eq {x y : Point} {nodes : List Node} (h : Spans x nodes y) {cs : List Char}
    (hcs : x.Leads cs y) (hstop : Stops y.text) : parseAt x.position cs = nodes := by
  by_cases hend : y.text = []
  · have hall := hcs.text
    rw [hend, List.append_nil] at hall
    rw [← hall]
    exact nest_of_spans h hend
  · exact nest_of_spans (h.closed_piece hcs hstop hend).spans rfl

/-! ## Beginnings of rows -/

theorem literal_of_scan {c : Char} {cs text : List Char} {more : Nat}
    (h : scan c cs = .one (.literal text) more) : text = c :: cs.take more := by
  have hreads := scan_reads c cs
  rw [h] at hreads
  generalize hscan : Scan.one (.literal text) more = scanned at hreads
  cases hreads <;> cases hscan
  assumption

theorem whitespace_of_scan {c : Char} {cs text : List Char} {more : Nat}
    (h : scan c cs = .one (.whitespace text) more) : ∀ d ∈ text, isSpace d = true := by
  have hreads := scan_reads c cs
  rw [h] at hreads
  generalize hscan : Scan.one (.whitespace text) more = scanned at hreads
  cases hreads with
  | whitespace hc =>
      cases hscan
      exact List.forall_mem_cons.mpr ⟨hc, fun d hd => List.mem_takeWhile_imp hd⟩
  | _ => cases hscan

theorem openBlock_of_scan {c : Char} {cs : List Char} {bracket : Bracket} {more : Nat}
    (h : scan c cs = ⟨[.openBlock bracket], more⟩) : c = bracket.opening ∧ more = 0 := by
  have hreads := scan_reads c cs
  rw [h] at hreads
  generalize hscan : Scan.mk [.openBlock bracket] more = scanned at hreads
  cases hreads <;> cases hscan
  exact ⟨by assumption, rfl⟩

/-- A row begins with a leaf where the text begins with a token of that kind. -/
theorem spans_leaf {x y : Point} {p : Position} {leaf : Leaf} {nodes : List Node}
    (h : Spans x (.leaf p leaf :: nodes) y) :
    ∃ c cs more, x = ⟨p, c :: cs⟩ ∧ scan c cs = .one leaf more ∧
      Spans (x.skip (more + 1)) nodes y := by
  generalize hrow : Node.leaf p leaf :: nodes = row at h
  cases h with
  | nil => cases hrow
  | leaf hscan h =>
      cases hrow
      exact ⟨_, _, _, rfl, hscan, h⟩
  | @closed _ _ _ _ _ opener => cases opener <;> cases hrow
  | @ended _ _ _ _ opener => cases opener <;> cases hrow

/-- Every token among the nodes of a row has been scanned somewhere in the text. -/
theorem Spans.exists_scan {x y : Point} {nodes : List Node} (h : Spans x nodes y) {p : Position}
    {leaf : Leaf} (hmem : .leaf p leaf ∈ nodes) :
    ∃ c cs more, scan c cs = .one leaf more ∧ c :: cs <:+ x.text := by
  induction h with
  | nil => cases hmem
  | leaf hscan _ ih =>
      rcases List.mem_cons.mp hmem with heq | hmem
      · cases heq
        exact ⟨_, _, _, hscan, List.suffix_refl _⟩
      · obtain ⟨c, cs, more, hscan, hsuffix⟩ := ih hmem
        exact ⟨c, cs, more, hscan, hsuffix.trans (List.drop_suffix _ _)⟩
  | @closed _ _ _ _ _ opener _ _ _ _ _ hin _ _ ih =>
      rcases List.mem_cons.mp hmem with heq | hmem
      · cases opener <;> cases heq
      · obtain ⟨c, cs, more, hscan, hsuffix⟩ := ih hmem
        have hbehind := (List.drop_suffix 1 _).trans hin.isSuffix
        exact ⟨c, cs, more, hscan, hsuffix.trans (hbehind.trans (List.drop_suffix _ _))⟩
  | @ended _ _ _ _ opener =>
      rcases List.mem_singleton.mp hmem with heq
      cases opener <;> cases heq

/-- A row begins with a literal where its text stands. -/
theorem spans_literal {x y : Point} {p : Position} {text : List Char} {nodes : List Node}
    (h : Spans x (.leaf p (.literal text) :: nodes) y) :
    ∃ z, x.Leads text z ∧ Spans z nodes y := by
  obtain ⟨c, cs, more, rfl, hscan, h⟩ := spans_leaf h
  have hleads := Point.skip_leads (more + 1) ⟨p, c :: cs⟩
  rw [literal_of_scan hscan]
  exact ⟨_, hleads, h⟩

/-- A row begins with a block where its bracket stands; the block ends at the closing bracket, or
the text ends in it. -/
theorem spans_block {x y : Point} {p : Position} {bracket : Bracket} {content nodes : List Node}
    (h : Spans x (.block p bracket content :: nodes) y) :
    ∃ z w, x.Leads [bracket.opening] z ∧ Spans z content w ∧
      ((∃ v, w.Leads [bracket.closing] v ∧ Spans v nodes y) ∨
        w.text = [] ∧ nodes = [] ∧ y = w) := by
  generalize hrow : Node.block p bracket content :: nodes = row at h
  cases h with
  | nil => cases hrow
  | leaf => cases hrow
  | @closed _ _ c cs _ opener more _ _ _ hscan hin h =>
      cases opener with
      | function name => cases hrow
      | block bracket =>
          cases hrow
          obtain ⟨rfl, rfl⟩ := openBlock_of_scan hscan
          exact ⟨_, _, Point.skip_leads 1 _, hin, .inl ⟨_, Point.skip_leads 1 _, h⟩⟩
  | @ended _ _ c cs opener more _ hscan hin =>
      cases opener with
      | function name => cases hrow
      | block bracket =>
          cases hrow
          obtain ⟨rfl, rfl⟩ := openBlock_of_scan hscan
          exact ⟨_, _, Point.skip_leads 1 _, hin, .inr ⟨rfl, rfl, rfl⟩⟩

end TokenCatalog.Css
