import TokenCatalog.Css.Tree
import TokenCatalog.Proofs.Css.Scan
import TokenCatalog.Proofs.Css.Within

/-!
# What a tree was read from

The tree of a text without faults, seen as a derivation: every node begins where the one before it
ends, and a closing bracket ends the innermost row. Main statements:

* `Spans`: reading from one point of a text to another gives a row of nodes;
* `Spans.leads`: what is read is the text between the two points;
* `spans_append`: the row can be cut anywhere, and the text with it;
* `parse_spans` and `nest_of_spans`: the tree of a text without faults is the row that spans it.
-/

namespace TokenCatalog.Css

/-! ## Single scans -/

def Opener.lexeme : Opener → Lexeme
  | .function name => .openFunction name
  | .block bracket => .openBlock bracket

/-- The node of a row with its opener. -/
def Opener.node (opener : Opener) (position : Position) (content : List Node) : Node :=
  match opener with
  | .function name => .function position name content
  | .block bracket => .block position bracket content

theorem Frame.close_eq (frame : Frame) (content : List Node) :
    frame.close content = frame.opener.node frame.position content := by
  obtain ⟨position, opener, before⟩ := frame
  cases opener <;> rfl

/-- What the first characters of a text can be. -/
inductive Scan.Kind : Char → List Char → Scan → Prop
  | leaf (c : Char) (cs : List Char) (leaf : Leaf) (more : Nat)
      (h : ∀ text, leaf ≠ .comment text) : Kind c cs (.one leaf more)
  | comment (cs : List Char) (more : Nat) :
      Kind '/' ('*' :: cs) (.one (.comment (takeComment cs).1) more)
  | ended (c : Char) (cs : List Char) (leaf : Leaf) (fault : Fault) (more : Nat) :
      Kind c cs ⟨[.leaf leaf, .leaf (.fault fault)], more⟩
  | opening (c : Char) (cs : List Char) (opener : Opener) (more : Nat) :
      Kind c cs ⟨[opener.lexeme], more⟩
  | closing (bracket : Bracket) (cs : List Char) :
      Kind bracket.closing cs ⟨[.close bracket], 0⟩

/-- **What a scan can give.** -/
theorem scan_kind (c : Char) (cs : List Char) : Scan.Kind c cs (scan c cs) := by
  have hreads := scan_reads c cs
  generalize scan c cs = scanned at hreads
  cases hreads with
  | comment hc hrest =>
      subst hc hrest
      exact .comment _ _
  | ended leaf fault more => exact .ended _ _ _ _ _
  | openFunction h hrest => exact .opening _ _ (.function _) _
  | openBlock bracket h => exact .opening _ _ (.block bracket) 0
  | close bracket h =>
      subst h
      exact .closing bracket _
  | _ => exact .leaf _ _ _ _ nofun

theorem scan_of_startsIdent {c : Char} {cs : List Char} (hspace : isSpace c = false)
    (hrange : startsRange (c :: cs) = false) (harrow : (c :: cs).take 3 ≠ "-->".toList)
    (hident : startsIdent (c :: cs) = true) : scan c cs = scanIdent (c :: cs) := by
  rw [scan, hspace, hrange, if_neg harrow, hident]
  rfl

/-- Whether a character can only begin a mark: neither a blank nor a name nor a number. -/
def isMark (c : Char) : Bool :=
  !(isSpace c || isNameStart c || isDigit c || ['-', '+', '.', '\\'].contains c)

theorem scan_of_isMark {c : Char} (h : isMark c = true) (cs : List Char) :
    scan c cs = scanMark c cs := by
  simp only [isMark, Bool.not_or, Bool.and_eq_true, Bool.not_eq_true', List.contains_eq_mem,
    decide_eq_false_iff_not, List.mem_cons, List.not_mem_nil, or_false, not_or] at h
  obtain ⟨⟨⟨hspace, hstart⟩, hdigit⟩, hminus, hplus, hpoint, hslash⟩ := h
  have hrange : startsRange (c :: cs) = false := by
    unfold startsRange
    split
    · next hcs =>
        cases hcs
        have hu : c ≠ 'u' := by
          rintro rfl
          cases hstart
        have hU : c ≠ 'U' := by
          rintro rfl
          cases hstart
        simp [hu, hU]
    · rfl
  have hident : startsIdent (c :: cs) = false := by
    simp [startsIdent, startsEscape, hslash, hstart]
  have harrow : (c :: cs).take 3 ≠ "-->".toList := by
    intro heq
    exact hminus (List.cons.inj heq).1
  have hnumeral : takeNumeral (c :: cs) = [] := by
    simp [takeNumeral, takeFraction, hplus, hminus, hpoint, hdigit]
  rw [scan, hspace, hrange, hident, if_neg harrow]
  simp [hnumeral]

theorem scan_closing (bracket : Bracket) (cs : List Char) :
    scan bracket.closing cs = ⟨[.close bracket], 0⟩ := by
  cases bracket <;> exact scan_of_isMark (by decide) cs

theorem scan_space {c : Char} (hc : isSpace c = true) (cs : List Char) :
    scan c cs =
      .one (.whitespace (c :: cs.takeWhile isSpace)) (cs.takeWhile isSpace).length := by
  unfold scan
  rw [if_pos hc]

theorem scan_comment (rest : List Char) :
    scan '/' ('*' :: rest) = .one (.comment (takeComment rest).1)
      ((takeComment rest).1.length + if (takeComment rest).2 then 3 else 1) :=
  scan_of_isMark (by decide) _

theorem scan_comma (cs : List Char) : scan ',' cs = .one (.literal [',']) 0 := by
  rw [scan_of_isMark (by decide)]
  cases cs with
  | nil => rfl
  | cons d cs =>
      by_cases hd : d = '='
      · subst hd
        rfl
      · simp [scanMark, hd]

/-! ## Rows of nodes -/

/-- A point of a text: its position, and the text from there on. -/
structure Point where
  position : Position
  text : List Char

def Point.skip (n : Nat) (x : Point) : Point :=
  ⟨x.position.after (x.text.take n), x.text.drop n⟩

/-- Some characters lead from one point of a text to another. -/
structure Point.Leads (x : Point) (cs : List Char) (y : Point) : Prop where
  text : x.text = cs ++ y.text
  position : y.position = x.position.after cs

theorem Position.after_append (p : Position) (xs ys : List Char) :
    p.after (xs ++ ys) = (p.after xs).after ys :=
  List.foldl_append

theorem Point.Leads.refl (x : Point) : x.Leads [] x :=
  ⟨rfl, rfl⟩

theorem Point.Leads.trans {x y z : Point} {xs ys : List Char} (h : x.Leads xs y)
    (hmore : y.Leads ys z) : x.Leads (xs ++ ys) z where
  text := by rw [h.text, hmore.text, List.append_assoc]
  position := by rw [hmore.position, h.position, Position.after_append]

theorem Point.skip_leads (n : Nat) (x : Point) : x.Leads (x.text.take n) (x.skip n) where
  text := (List.take_append_drop n x.text).symm
  position := rfl

theorem Point.skip_append {p : Position} {s rest : List Char} {n : Nat} (h : n ≤ s.length) :
    Point.skip n ⟨p, s ++ rest⟩ = ⟨p.after (s.take n), s.drop n ++ rest⟩ := by
  rw [Point.skip, List.take_append_of_le_length h, List.drop_append_of_le_length h]

/-- Reading a text from one point to another gives a row of nodes. Only the end of the text may
stand for a closing bracket. -/
inductive Spans : Point → List Node → Point → Prop
  | nil (x : Point) : Spans x [] x
  | leaf {p : Position} {c : Char} {cs : List Char} {leaf : Leaf} {more : Nat}
      {nodes : List Node} {y : Point} (hscan : scan c cs = .one leaf more)
      (h : Spans (Point.skip (more + 1) ⟨p, c :: cs⟩) nodes y) :
      Spans ⟨p, c :: cs⟩ (.leaf p leaf :: nodes) y
  | closed {p q : Position} {c : Char} {cs rest : List Char} {opener : Opener} {more : Nat}
      {content nodes : List Node} {y : Point} (hscan : scan c cs = ⟨[opener.lexeme], more⟩)
      (hin : Spans (Point.skip (more + 1) ⟨p, c :: cs⟩) content
        ⟨q, opener.bracket.closing :: rest⟩)
      (h : Spans (Point.skip 1 ⟨q, opener.bracket.closing :: rest⟩) nodes y) :
      Spans ⟨p, c :: cs⟩ (opener.node p content :: nodes) y
  | ended {p q : Position} {c : Char} {cs : List Char} {opener : Opener} {more : Nat}
      {content : List Node} (hscan : scan c cs = ⟨[opener.lexeme], more⟩)
      (hin : Spans (Point.skip (more + 1) ⟨p, c :: cs⟩) content ⟨q, []⟩) :
      Spans ⟨p, c :: cs⟩ [opener.node p content] ⟨q, []⟩

/-- What is read is the text between the two points. -/
theorem Spans.leads {x y : Point} {nodes : List Node} (h : Spans x nodes y) :
    ∃ cs, x.Leads cs y := by
  induction h with
  | nil x => exact ⟨[], .refl x⟩
  | leaf hscan h ih =>
      obtain ⟨cs, hcs⟩ := ih
      exact ⟨_, (Point.skip_leads _ _).trans hcs⟩
  | closed hscan hin h ihin ih =>
      obtain ⟨inside, hinside⟩ := ihin
      obtain ⟨cs, hcs⟩ := ih
      exact ⟨_, (Point.skip_leads _ _).trans (hinside.trans ((Point.skip_leads _ _).trans hcs))⟩
  | ended hscan hin ihin =>
      obtain ⟨inside, hinside⟩ := ihin
      exact ⟨_, (Point.skip_leads _ _).trans hinside⟩

theorem Spans.isSuffix {x y : Point} {nodes : List Node} (h : Spans x nodes y) :
    y.text <:+ x.text := by
  obtain ⟨cs, hcs⟩ := h.leads
  exact ⟨cs, hcs.text.symm⟩

theorem Spans.eq_nil {x y : Point} {nodes : List Node} (h : Spans x nodes y) (hx : x.text = []) :
    nodes = [] ∧ y = x := by
  cases h with
  | nil => exact ⟨rfl, rfl⟩
  | leaf => cases hx
  | closed => cases hx
  | ended => cases hx

theorem Spans.append {x y z : Point} {xs ys : List Node} (hx : Spans x xs y) (hy : Spans y ys z) :
    Spans x (xs ++ ys) z := by
  induction hx with
  | nil => exact hy
  | leaf hscan _ ih => exact .leaf hscan (ih hy)
  | closed hscan hin _ _ ih => exact .closed hscan hin (ih hy)
  | ended hscan hin =>
      -- nothing can follow a row that the text ends in
      obtain ⟨rfl, rfl⟩ := hy.eq_nil rfl
      exact .ended hscan hin

/-- **A row of nodes can be cut anywhere.** -/
theorem spans_append {x z : Point} {xs ys : List Node} :
    Spans x (xs ++ ys) z ↔ ∃ y, Spans x xs y ∧ Spans y ys z := by
  constructor
  · intro h
    generalize hnodes : xs ++ ys = nodes at h
    induction h generalizing xs with
    | nil x =>
        obtain ⟨rfl, rfl⟩ := List.append_eq_nil_iff.mp hnodes
        exact ⟨x, .nil x, .nil x⟩
    | @leaf p c cs leaf more nodes y hscan h ih =>
        cases xs with
        | nil =>
            subst hnodes
            exact ⟨_, .nil _, .leaf hscan h⟩
        | cons node xs =>
            cases hnodes
            obtain ⟨z, hxs, hys⟩ := ih rfl
            exact ⟨z, .leaf hscan hxs, hys⟩
    | @closed p q c cs rest opener more content nodes y hscan hin h _ ih =>
        cases xs with
        | nil =>
            subst hnodes
            exact ⟨_, .nil _, .closed hscan hin h⟩
        | cons node xs =>
            cases hnodes
            obtain ⟨z, hxs, hys⟩ := ih rfl
            exact ⟨z, .closed hscan hin hxs, hys⟩
    -- a block that the end of the text closes is the last node, so that nothing is left to append
    | @ended p q c cs opener more content hscan hin _ =>
        cases xs with
        | nil =>
            subst hnodes
            exact ⟨_, .nil _, .ended hscan hin⟩
        | cons node xs =>
            obtain ⟨rfl, hnil⟩ := List.cons.inj hnodes
            obtain ⟨rfl, rfl⟩ := List.append_eq_nil_iff.mp hnil
            exact ⟨⟨q, []⟩, .ended hscan hin, .nil _⟩
  · rintro ⟨y, hxs, hys⟩
    exact hxs.append hys

theorem spans_cons {x z : Point} {node : Node} {nodes : List Node} :
    Spans x (node :: nodes) z ↔ ∃ y, Spans x [node] y ∧ Spans y nodes z := by
  rw [← List.singleton_append, spans_append]

/-! ## From the text to the row -/

/-- The nodes of the outermost row if every open row were closed now. -/
def Nesting.nodes (n : Nesting) : List Node :=
  closeAll n.frames n.current

/-- The tree of the lexemes from a point on, after what has been nested before. -/
def Nesting.finish (n : Nesting) (x : Point) : List Node :=
  ((lexemesFrom x.position x.text).foldl Nesting.add n).nodes

theorem Nesting.finish_nil (n : Nesting) (p : Position) : n.finish ⟨p, []⟩ = n.nodes := by
  rw [finish, lexemesFrom]
  rfl

theorem Nesting.finish_cons (n : Nesting) (p : Position) (c : Char) (cs : List Char) :
    n.finish ⟨p, c :: cs⟩ =
      (((scan c cs).lexemes.map (⟨p, ·⟩)).foldl Nesting.add n).finish
        (Point.skip ((scan c cs).more + 1) ⟨p, c :: cs⟩) := by
  rw [finish, lexemesFrom, List.foldl_append]
  rfl

theorem leaf_within_close {position : Position} {leaf : Leaf} {frame : Frame}
    {content : List Node} :
    Within (.leaf position leaf) [frame.close content] ↔ Within (.leaf position leaf) content := by
  obtain ⟨position', opener, before⟩ := frame
  cases opener with
  | function name => exact leaf_within_function
  | block bracket => exact leaf_within_block

theorem within_reverse {node : Node} {nodes : List Node} :
    Within node nodes.reverse ↔ Within node nodes :=
  ⟨(·.mono (List.reverse_subset.mpr (List.Subset.refl _))),
    (·.mono (List.subset_reverse.mpr (List.Subset.refl _)))⟩

/-- A leaf of an open row is a leaf of the tree. -/
theorem leaf_within_closeAll {position : Position} {leaf : Leaf} {frames : List Frame}
    {current : List Node} :
    Within (.leaf position leaf) (closeAll frames current) ↔
      Within (.leaf position leaf) (current ++ frames.flatMap Frame.before) := by
  induction frames generalizing current with
  | nil => rw [closeAll, within_reverse, List.flatMap_nil, List.append_nil]
  | cons frame frames ih =>
      rw [closeAll, ih, List.cons_append, within_cons, leaf_within_close, within_reverse,
        List.flatMap_cons, ← within_append]

/-- A leaf once read stays in the tree. -/
theorem Nesting.leaf_within_add {position : Position} {leaf : Leaf} {n : Nesting}
    (h : Within (.leaf position leaf) n.nodes) (l : Located) :
    Within (.leaf position leaf) (n.add l).nodes := by
  rw [nodes, leaf_within_closeAll] at h
  have hmore : ∀ node, Within (.leaf position leaf) (closeAll n.frames (node :: n.current)) :=
    fun node => leaf_within_closeAll.mpr (h.mono (List.subset_cons_self _ _))
  unfold add
  split
  · exact hmore _
  · exact leaf_within_closeAll.mpr h
  · exact leaf_within_closeAll.mpr h
  · split
    · next frame frames hframes =>
        split
        -- the leaves of the row that is closed stay inside its node
        · refine leaf_within_closeAll.mpr ?_
          rw [hframes, List.flatMap_cons] at h
          rwa [List.cons_append, within_cons, leaf_within_close, within_reverse, ← within_append]
        · exact hmore _
    · next hframes =>
        have h := hmore
        rw [hframes] at h
        exact h _

theorem Nesting.leaf_within_finish {position : Position} {leaf : Leaf} {n : Nesting}
    (h : Within (.leaf position leaf) n.nodes) (x : Point) :
    Within (.leaf position leaf) (n.finish x) := by
  rw [finish]
  generalize lexemesFrom x.position x.text = lexemes
  induction lexemes generalizing n with
  | nil => exact h
  | cons l lexemes ih => exact ih (leaf_within_add h l)

/-- What the open rows were read from: each row begins behind the bracket that opened it. -/
inductive Pending (start : Point) : List Frame → List Node → Point → Prop
  | outer {current : List Node} {x : Point} (h : Spans start current.reverse x) :
      Pending start [] current x
  | inner {p : Position} {c : Char} {cs : List Char} {opener : Opener} {more : Nat}
      {before current : List Node} {frames : List Frame} {x : Point}
      (houter : Pending start frames before ⟨p, c :: cs⟩)
      (hscan : scan c cs = ⟨[opener.lexeme], more⟩)
      (h : Spans (Point.skip (more + 1) ⟨p, c :: cs⟩) current.reverse x) :
      Pending start (⟨p, opener, before⟩ :: frames) current x

/-- One more node in the innermost open row. -/
theorem Pending.add {start x y : Point} {frames : List Frame} {current : List Node} {node : Node}
    (h : Pending start frames current x) (hnode : Spans x [node] y) :
    Pending start frames (node :: current) y := by
  cases h with
  | outer h => exact .outer (List.reverse_cons ▸ h.append hnode)
  | inner houter hscan h => exact .inner houter hscan (List.reverse_cons ▸ h.append hnode)

/-- At the end of the text every open row is closed. -/
theorem Pending.closeAll {start x : Point} {frames : List Frame} {current : List Node}
    (h : Pending start frames current x) (hx : x.text = []) :
    Spans start (closeAll frames current) x := by
  obtain ⟨q, text⟩ := x
  cases hx
  induction frames generalizing current with
  | nil =>
      cases h with
      | outer h => exact h
  | cons frame frames ih =>
      cases h with
      | inner houter hscan h =>
          rw [Css.closeAll, Frame.close_eq]
          exact ih (houter.add (.ended hscan h))

theorem Nesting.add_opener (n : Nesting) (p : Position) (opener : Opener) :
    n.add ⟨p, opener.lexeme⟩ = ⟨⟨p, opener, n.current⟩ :: n.frames, []⟩ := by
  cases opener <;> rfl

/-- A fault that has been read stays in the tree. -/
theorem Nesting.fault_within_finish (frames : List Frame) (current : List Node) (f : FaultAt)
    (x : Point) : Within f.node (Nesting.finish ⟨frames, f.node :: current⟩ x) :=
  leaf_within_finish (leaf_within_closeAll.mpr (.here List.mem_cons_self)) x

/-- **Reading on to the end closes what is open**, if no fault gets into the tree. -/
theorem Pending.finish {start : Point} {n : Nesting} {p : Position} {text : List Char}
    (h : Pending start n.frames n.current ⟨p, text⟩)
    (hsound : ∀ f : FaultAt, ¬ Within f.node (n.finish ⟨p, text⟩)) :
    ∃ q, Spans start (n.finish ⟨p, text⟩) ⟨q, []⟩ := by
  induction p, text using lexemesFrom.induct generalizing n with
  | case1 p =>
      rw [n.finish_nil]
      exact ⟨p, h.closeAll rfl⟩
  | case2 p c cs s =>
      rename_i hmore
      have ih : ∀ {n : Nesting}, Pending start n.frames n.current
          (Point.skip ((scan c cs).more + 1) ⟨p, c :: cs⟩) →
          (∀ f : FaultAt, ¬ Within f.node
            (n.finish (Point.skip ((scan c cs).more + 1) ⟨p, c :: cs⟩))) →
          ∃ q, Spans start (n.finish (Point.skip ((scan c cs).more + 1) ⟨p, c :: cs⟩)) ⟨q, []⟩ :=
        hmore
      clear hmore s
      rw [n.finish_cons] at hsound ⊢
      -- a token is a leaf, opens something, or closes what is open; a fault would stay in the tree
      have hkind := scan_kind c cs
      generalize hscan : scan c cs = scanned at hkind ih hsound ⊢
      cases hkind with
      | leaf c cs leaf more => exact ih (h.add (.leaf hscan (.nil _))) hsound
      | comment cs more => exact ih (h.add (.leaf hscan (.nil _))) hsound
      | ended c cs leaf fault more =>
          exact absurd (Nesting.fault_within_finish _ _ ⟨fault, p⟩ _) (hsound ⟨fault, p⟩)
      | opening c cs opener more =>
          simp only [List.map_cons, List.map_nil, List.foldl_cons, List.foldl_nil,
            n.add_opener] at hsound ⊢
          exact ih (.inner h hscan (.nil _)) hsound
      | closing bracket cs =>
          simp only [List.map_cons, List.map_nil, List.foldl_cons, List.foldl_nil,
            Nesting.add] at hsound ⊢
          have hstray : ∀ frames current, (∀ f : FaultAt, ¬ Within f.node
              (Nesting.finish ⟨frames, .leaf p (.fault (.unmatched bracket)) :: current⟩
                (Point.skip 1 ⟨p, bracket.closing :: cs⟩))) → False :=
            fun frames current hsound => hsound ⟨.unmatched bracket, p⟩
              (Nesting.fault_within_finish frames current ⟨.unmatched bracket, p⟩ _)
          obtain ⟨frames, current⟩ := n
          cases h with
          | outer h => exact (hstray _ _ hsound).elim
          | @inner p' c' cs' opener more' before _ frames _ houter hopen hin =>
              dsimp only at hsound ⊢
              by_cases hbracket : opener.bracket = bracket
              · subst hbracket
                rw [if_pos rfl] at hsound ⊢
                rw [Frame.close_eq] at hsound ⊢
                exact ih (houter.add (.closed hopen hin (.nil _))) hsound
              · rw [if_neg hbracket] at hsound
                exact (hstray _ _ hsound).elim

/-- **The tree of a text without faults is the row that spans it.** -/
theorem parse_spans {cs : List Char} (hsound : firstFault? (parse cs) = none) :
    ∃ q, Spans ⟨.start, uniform cs⟩ (parse cs) ⟨q, []⟩ :=
  Pending.finish (n := ⟨[], []⟩) (.outer (.nil _)) ((firstFault?_eq_none_iff _).mp hsound)

/-! ## From the row to the text -/

theorem Nesting.finish_spans {x y : Point} {nodes : List Node} (h : Spans x nodes y)
    (frames : List Frame) (current : List Node) :
    Nesting.finish ⟨frames, current⟩ x = Nesting.finish ⟨frames, nodes.reverse ++ current⟩ y := by
  induction h generalizing frames current with
  | nil x => rfl
  | leaf hscan h ih =>
      rw [finish_cons, hscan]
      refine (ih frames _).trans ?_
      rw [List.reverse_cons, List.append_assoc]
      rfl
  | @closed p q c cs rest opener more content nodes y hscan hin h ihin ih =>
      rw [finish_cons, hscan]
      simp only [List.map_cons, List.map_nil, List.foldl_cons, List.foldl_nil, add_opener]
      rw [ihin, finish_cons, scan_closing]
      simp only [List.map_cons, List.map_nil, List.foldl_cons, List.foldl_nil, add,
        if_pos, List.append_nil, List.reverse_reverse, Frame.close_eq]
      rw [ih, List.reverse_cons, List.append_assoc]
      rfl
  | @ended p q c cs opener more content hscan hin ihin =>
      rw [finish_cons, hscan]
      simp only [List.map_cons, List.map_nil, List.foldl_cons, List.foldl_nil, add_opener]
      rw [ihin, finish_nil, finish_nil, Nesting.nodes, Nesting.nodes, closeAll, Frame.close_eq,
        List.append_nil, List.reverse_reverse]
      rfl

theorem nest_of_spans {x y : Point} {nodes : List Node} (h : Spans x nodes y) (hy : y.text = []) :
    nest (lexemesFrom x.position x.text) = nodes := by
  obtain ⟨q, text⟩ := y
  cases hy
  refine (Nesting.finish_spans h [] []).trans ?_
  rw [Nesting.finish_nil, Nesting.nodes, closeAll, List.append_nil, List.reverse_reverse]

end TokenCatalog.Css
