import TokenCatalog.Proofs.Stylesheet.Displaced

/-!
# Comments in the place of comments

Comments between two statements are statements of their own. Where other comments are put in their
place, what comes before them is split as it was, and so is what follows, only at other places. So
all that such comments can change is the scopes of what follows. Main statements:

* `Refilled`: two trees that differ in the comments at one place between statements;
* `Refilling.finish`: the trees of texts that differ so far in such comments, and go on alike;
* `Reannotated` and `exists_reannotated`: their statements;
* `tokensOf_findings`: if the comments open the same scope, the same tokens are found.
-/

namespace TokenCatalog.Stylesheet

open TokenCatalog.Css (Node Position Moved Opener Frame Nesting Lexeme)

variable {dialect : Dialect}

/-! ## Between statements -/

/-- A row of blanks and comments, with the texts of the comments. -/
inductive Fills : List (List Char) → List Node → Prop
  | nil : Fills [] []
  | blank (p : Position) {text : List Char} (htext : ∀ c ∈ text, Text.isBlank c = true)
      {texts : List (List Char)} {row : List Node} (h : Fills texts row) :
      Fills texts (.leaf p (.whitespace text) :: row)
  | comment (p : Position) (text : List Char) {texts : List (List Char)} {row : List Node}
      (h : Fills texts row) : Fills (text :: texts) (.leaf p (.comment text) :: row)

theorem Fills.append {texts texts' : List (List Char)} {row row' : List Node} (h : Fills texts row)
    (h' : Fills texts' row') : Fills (texts ++ texts') (row ++ row') := by
  induction h with
  | nil => exact h'
  | blank p htext _ ih => exact .blank p htext ih
  | comment p text _ ih => exact .comment p text ih

/-- The nodes of the statement that has begun, after one more node. -/
def begunAfter (dialect : Dialect) (current : List Node) : Node → List Node
  | .leaf p (.comment text) =>
    if hasContent current then current ++ [.leaf p (.comment text)] else current
  | .leaf _ (.literal [';']) => []
  | .leaf p leaf => current ++ [.leaf p leaf]
  | .function p name arguments => current ++ [.function p name arguments]
  | .block p bracket content =>
    if bracket = .curly && !endsInInterpolation dialect current then []
    else current ++ [.block p bracket content]

/-- The nodes of the statement that has begun at the end of a row. -/
def begun (dialect : Dialect) (nodes : List Node) : List Node :=
  nodes.foldl (begunAfter dialect) []

theorem exists_statementsFrom_cons (dialect : Dialect) (current : List Node) (node : Node) :
    ∃ done, ∀ rest, statementsFrom dialect current (node :: rest) =
      done ++ statementsFrom dialect (begunAfter dialect current node) rest := by
  cases node with
  | function p name arguments => exact ⟨[], fun rest => by rw [statementsFrom]; rfl⟩
  | block p bracket content =>
      by_cases hrule : (bracket = .curly && !endsInInterpolation dialect current) = true
      · refine ⟨[.rule current content (statementsFrom dialect [] content)], fun rest => ?_⟩
        rw [statementsFrom, if_pos hrule, begunAfter, if_pos hrule]
        rfl
      · refine ⟨[], fun rest => ?_⟩
        rw [statementsFrom, if_neg hrule, begunAfter, if_neg hrule]
        rfl
  | leaf p leaf =>
      by_cases hcomment : ∃ text, leaf = .comment text
      · obtain ⟨text, rfl⟩ := hcomment
        by_cases hcontent : hasContent current = true
        · refine ⟨[], fun rest => ?_⟩
          rw [statementsFrom, if_pos hcontent, begunAfter, if_pos hcontent]
          rfl
        · refine ⟨[.comment text p.line], fun rest => ?_⟩
          rw [statementsFrom, if_neg hcontent, begunAfter, if_neg hcontent]
          rfl
      · by_cases hsemicolon : leaf = .literal [';']
        · subst hsemicolon
          exact ⟨_, fun rest => by rw [statementsFrom, begunAfter]⟩
        · refine ⟨[], fun rest => ?_⟩
          rw [statementsFrom_leaf hcomment hsemicolon, begunAfter]
          · rfl
          · exact fun text htext => hcomment ⟨text, htext⟩
          · exact hsemicolon

/-- **Of what comes before, only the statement that has begun counts.** -/
theorem exists_statementsFrom_append (dialect : Dialect) (nodes current : List Node) :
    ∃ done, ∀ rest, statementsFrom dialect current (nodes ++ rest) =
      done ++ statementsFrom dialect (nodes.foldl (begunAfter dialect) current) rest := by
  induction nodes generalizing current with
  | nil => exact ⟨[], fun rest => rfl⟩
  | cons node nodes ih =>
      obtain ⟨first, hfirst⟩ := exists_statementsFrom_cons dialect current node
      obtain ⟨done, hdone⟩ := ih (begunAfter dialect current node)
      refine ⟨first ++ done, fun rest => ?_⟩
      rw [List.cons_append, hfirst, hdone, List.foldl_cons, List.append_assoc]

def AreComments (texts : List (List Char)) (marks : List Statement) : Prop :=
  List.Forall₂ (fun text s => ∃ line, s = .comment text line) texts marks

/-- Between statements comments are statements, and blanks are left to the next one. -/
theorem Fills.statementsFrom {texts : List (List Char)} {row current : List Node}
    (h : Fills texts row) (hcurrent : ∀ node ∈ current, IsBlank node) :
    ∃ marks blanks, AreComments texts marks ∧ (∀ node ∈ blanks, IsBlank node) ∧
      ∀ rest, Stylesheet.statementsFrom dialect current (row ++ rest) =
        marks ++ Stylesheet.statementsFrom dialect blanks rest := by
  induction h generalizing current with
  | nil => exact ⟨[], current, .nil, hcurrent, fun rest => rfl⟩
  | blank p htext _ ih =>
      have hblank : IsBlank (.leaf p (.whitespace _)) := ⟨p, _, rfl, htext⟩
      obtain ⟨marks, blanks, hmarks, hblanks, hrest⟩ :=
        ih (List.forall_mem_append.mpr ⟨hcurrent, List.forall_mem_singleton.mpr hblank⟩)
      refine ⟨marks, blanks, hmarks, hblanks, fun rest => ?_⟩
      rw [List.cons_append, statementsFrom_leaf (by rintro ⟨_, ⟨⟩⟩) (by simp), hrest]
  | comment p text _ ih =>
      obtain ⟨marks, blanks, hmarks, hblanks, hrest⟩ := ih hcurrent
      refine ⟨.comment text p.line :: marks, blanks, .cons ⟨_, rfl⟩ hmarks, hblanks, fun rest => ?_⟩
      rw [List.cons_append, Stylesheet.statementsFrom, hasContent_of_blanks hcurrent,
        if_neg (by decide), hrest]
      rfl

/-! ## Trees -/

/-- Two rows that differ only in the comments at one place, which is between statements of the row
itself or of a block in it, and in the places of what follows. -/
inductive Refilled (dialect : Dialect) (texts texts' : List (List Char)) :
    List Node → List Node → Prop
  | here {before fill fill' after after' : List Node}
      (hbefore : ∀ node ∈ begun dialect before, IsBlank node) (hfill : Fills texts fill)
      (hfill' : Fills texts' fill') (hafter : Moved after after') :
      Refilled dialect texts texts' (before ++ (fill ++ after)) (before ++ (fill' ++ after'))
  | inside {before content content' after after' : List Node} (p : Position)
      (hopens : endsInInterpolation dialect (begun dialect before) = false)
      (hin : Refilled dialect texts texts' content content') (hafter : Moved after after') :
      Refilled dialect texts texts' (before ++ .block p .curly content :: after)
        (before ++ .block p .curly content' :: after')

section

variable {texts texts' : List (List Char)}

theorem Refilled.append {xs ys more more' : List Node} (h : Refilled dialect texts texts' xs ys)
    (hmore : Moved more more') : Refilled dialect texts texts' (xs ++ more) (ys ++ more') := by
  cases h with
  | here hbefore hfill hfill' hafter =>
      simp only [List.append_assoc]
      exact .here hbefore hfill hfill' (hafter.append hmore)
  | inside p hopens hin hafter =>
      simp only [List.append_assoc, List.cons_append]
      exact .inside p hopens hin (hafter.append hmore)

theorem Fills.firstFault? {texts : List (List Char)} {row : List Node} (h : Fills texts row)
    (rest : List Node) : Css.firstFault? (row ++ rest) = Css.firstFault? rest := by
  induction h with
  | nil => rfl
  | blank p _ _ ih => exact ih
  | comment p text _ ih => exact ih

/-- Comments are no faults, and bring none about. -/
theorem Refilled.isSome_firstFault? {xs ys : List Node} (h : Refilled dialect texts texts' xs ys) :
    (Css.firstFault? xs).isSome = (Css.firstFault? ys).isSome := by
  have hfront : ∀ (before : List Node) {rest rest' : List Node},
      (Css.firstFault? rest).isSome = (Css.firstFault? rest').isSome →
      (Css.firstFault? (before ++ rest)).isSome = (Css.firstFault? (before ++ rest')).isSome := by
    intro before rest rest' hrest
    induction before with
    | nil => exact hrest
    | cons node before ih =>
        rw [List.cons_append, List.cons_append, Css.firstFault?, Css.firstFault?]
        cases node.firstFault? with
        | some fault => rfl
        | none => exact ih
  induction h with
  | here hbefore hfill hfill' hafter =>
      refine hfront _ ?_
      rw [hfill.firstFault?, hfill'.firstFault?, hafter.isSome_firstFault?]
  | @inside before content content' after after' p hopens hin hafter ih =>
      refine hfront _ ?_
      have hafter := hafter.isSome_firstFault?
      have hblock : ∀ content : List Node,
          (Node.block p .curly content).firstFault? = Css.firstFault? content := fun _ => rfl
      rw [Css.firstFault?, Css.firstFault?, hblock, hblock]
      revert ih
      cases Css.firstFault? content <;> cases Css.firstFault? content' <;> intro ih
      · exact hafter
      · cases ih
      · cases ih
      · rfl

end

/-! ## Reading on -/

structure OpensRule (dialect : Dialect) (frame : Frame) : Prop where
  opener : frame.opener = .block .curly
  before : endsInInterpolation dialect (begun dialect frame.before.reverse) = false

def isCurly : Opener → Bool
  | .block .curly => true
  | _ => false

theorem isCurly_iff {opener : Opener} : isCurly opener = true ↔ opener = .block .curly := by
  cases opener with
  | function => exact iff_of_false nofun nofun
  | block bracket => cases bracket <;> simp [isCurly]

instance (frame : Frame) : Decidable (OpensRule dialect frame) :=
  decidable_of_iff
    (isCurly frame.opener = true ∧
      endsInInterpolation dialect (begun dialect frame.before.reverse) = false)
    ⟨fun ⟨hopener, hbefore⟩ => ⟨isCurly_iff.mp hopener, hbefore⟩,
      fun h => ⟨isCurly_iff.mpr h.opener, h.before⟩⟩

/-- Two nestings that have read other comments at one place between statements, and the same
since. -/
inductive Refilling (dialect : Dialect) (texts texts' : List (List Char)) : Nesting → Nesting → Prop
  | here {frames : List Frame} {current current' : List Node}
      (hframes : ∀ frame ∈ frames, OpensRule dialect frame)
      (h : Refilled dialect texts texts' current.reverse current'.reverse) :
      Refilling dialect texts texts' ⟨frames, current⟩ ⟨frames, current'⟩
  | deeper {frames frames' : List Frame} {before before' current current' : List Node}
      (h : Refilling dialect texts texts' ⟨frames, before⟩ ⟨frames', before'⟩) (p q : Position)
      (opener : Opener) (hcurrent : Moved current current') :
      Refilling dialect texts texts' ⟨⟨p, opener, before⟩ :: frames, current⟩
        ⟨⟨q, opener, before'⟩ :: frames', current'⟩

namespace Refilling

variable {texts texts' : List (List Char)}

theorem push {n n' : Nesting} (h : Refilling dialect texts texts' n n') {node node' : Node}
    (hnode : Moved [node] [node']) :
    Refilling dialect texts texts' ⟨n.frames, node :: n.current⟩
      ⟨n'.frames, node' :: n'.current⟩ := by
  cases h with
  | here hframes h =>
      refine .here hframes ?_
      rw [List.reverse_cons, List.reverse_cons]
      exact h.append hnode
  | deeper h p q opener hcurrent => exact .deeper h p q opener (hnode.append hcurrent)

theorem close {frames frames' : List Frame} {frame frame' : Frame} {current current' : List Node}
    (h : Refilling dialect texts texts' ⟨frame :: frames, current⟩ ⟨frame' :: frames', current'⟩) :
    frame.opener = frame'.opener ∧
      Refilling dialect texts texts' ⟨frames, frame.close current.reverse :: frame.before⟩
        ⟨frames', frame'.close current'.reverse :: frame'.before⟩ := by
  cases h with
  | here hframes h =>
      obtain ⟨hframe, hframes⟩ := List.forall_mem_cons.mp hframes
      refine ⟨rfl, .here hframes ?_⟩
      rw [Css.Frame.close_eq, Css.Frame.close_eq, hframe.opener, List.reverse_cons,
        List.reverse_cons]
      exact .inside _ hframe.before h .nil
  | deeper h p q opener hcurrent =>
      refine ⟨rfl, ?_⟩
      rw [Css.Frame.close_eq, Css.Frame.close_eq]
      exact h.push (.nested p q opener hcurrent.reverse .nil)

/-- The same lexeme added to both, at any places. -/
theorem add {n n' : Nesting} (h : Refilling dialect texts texts' n n') (p q : Position)
    (lexeme : Lexeme) :
    Refilling dialect texts texts' (n.add ⟨p, lexeme⟩) (n'.add ⟨q, lexeme⟩) := by
  cases lexeme with
  | leaf leaf => exact h.push (.leaf p q leaf .nil)
  | openFunction name => exact .deeper h p q _ .nil
  | openBlock bracket => exact .deeper h p q _ .nil
  | close bracket =>
      obtain ⟨frames, current⟩ := n
      obtain ⟨frames', current'⟩ := n'
      have hfault := h.push (.leaf p q (.fault (.unmatched bracket)) .nil)
      cases frames with
      | nil =>
          cases frames' with
          | nil => exact hfault
          | cons => cases h
      | cons frame frames =>
          cases frames' with
          | nil => cases h
          | cons frame' frames' =>
              obtain ⟨hopener, hclosed⟩ := h.close
              simp only [Nesting.add, ← hopener]
              split
              · exact hclosed
              · exact hfault

theorem foldl {n n' : Nesting} (h : Refilling dialect texts texts' n n') (p q : Position)
    (lexemes : List Lexeme) :
    Refilling dialect texts texts' ((lexemes.map (⟨p, ·⟩)).foldl Nesting.add n)
      ((lexemes.map (⟨q, ·⟩)).foldl Nesting.add n') := by
  induction lexemes generalizing n n' with
  | nil => exact h
  | cons lexeme lexemes ih => exact ih (h.add p q lexeme)

theorem nodes {n n' : Nesting} (h : Refilling dialect texts texts' n n') :
    Refilled dialect texts texts' n.nodes n'.nodes := by
  obtain ⟨frames, current⟩ := n
  obtain ⟨frames', current'⟩ := n'
  induction frames generalizing current frames' current' with
  | nil =>
      cases h with
      | here _ h => exact h
  | cons frame frames ih =>
      cases frames' with
      | nil => cases h
      | cons frame' frames' =>
          have hclosed := ih _ _ _ h.close.2
          exact hclosed

/-- **Texts that go on alike are read alike.** -/
theorem finish {n n' : Nesting} (h : Refilling dialect texts texts' n n') (p q : Position)
    (cs : List Char) :
    Refilled dialect texts texts' (n.finish ⟨p, cs⟩) (n'.finish ⟨q, cs⟩) := by
  induction p, cs using Css.lexemesFrom.induct generalizing n n' q with
  | case1 p =>
      rw [n.finish_nil, n'.finish_nil]
      exact h.nodes
  | case2 p c cs s =>
      rename_i ih
      rw [n.finish_cons, n'.finish_cons]
      exact ih (h.foldl p q (Css.scan c cs).lexemes) _

end Refilling

/-! ## Statements -/

/-- Two blocks that differ only in comments at one place, in the block itself or in that of a rule
in it, and in the places of what follows. -/
inductive Reannotated (marks marks' : List Statement) : List Statement → List Statement → Prop
  | here (before : List Statement) {after after' : List Statement} (h : Displaced after after') :
      Reannotated marks marks' (before ++ (marks ++ after)) (before ++ (marks' ++ after'))
  | inside (before : List Statement) (head body body' : List Node)
      {inner inner' after after' : List Statement} (hin : Reannotated marks marks' inner inner')
      (h : Displaced after after') :
      Reannotated marks marks' (before ++ .rule head body inner :: after)
        (before ++ .rule head body' inner' :: after')

/-- **Comments in the place of comments are statements in the place of statements.** -/
theorem exists_reannotated {texts texts' : List (List Char)} {nodes nodes' : List Node}
    (h : Refilled dialect texts texts' nodes nodes') :
    ∃ marks marks', AreComments texts marks ∧ AreComments texts' marks' ∧
      Reannotated marks marks' (statements dialect nodes) (statements dialect nodes') := by
  induction h with
  | @here before fill fill' after after' hbefore hfill hfill' hafter =>
      obtain ⟨done, hdone⟩ := exists_statementsFrom_append dialect before []
      obtain ⟨marks, blanks, hmarks, hblanks, hrest⟩ := hfill.statementsFrom hbefore
      obtain ⟨marks', blanks', hmarks', hblanks', hrest'⟩ := hfill'.statementsFrom hbefore
      refine ⟨marks, marks', hmarks, hmarks', ?_⟩
      have hakin : Akin blanks blanks' := by
        rw [← List.append_nil blanks, ← List.append_nil blanks']
        exact .intro hblanks hblanks' .nil
      rw [statements, statements, hdone, hdone]
      exact (hrest after).symm ▸ (hrest' after').symm ▸
        .here done (displaced_of_moved hafter dialect hakin)
  | @inside before content content' after after' p hopens hin hafter ih =>
      obtain ⟨done, hdone⟩ := exists_statementsFrom_append dialect before []
      obtain ⟨marks, marks', hmarks, hmarks', hinner⟩ := ih
      refine ⟨marks, marks', hmarks, hmarks', ?_⟩
      have hrule : ∀ (content rest : List Node), statementsFrom dialect (begun dialect before)
          (.block p .curly content :: rest) =
          .rule (begun dialect before) content (statements dialect content) ::
            statementsFrom dialect [] rest := by
        intro content rest
        rw [statementsFrom, hopens, if_pos (by decide)]
        rfl
      rw [statements, statements, hdone, hdone]
      exact (hrule content after).symm ▸ (hrule content' after').symm ▸
        .inside done _ _ _ hinner (displaced_of_moved hafter dialect akin_nil)

/-! ## Scopes -/

def Walk.over (w : Walk) : List Statement → Walk
  | .comment text line :: marks => (w.comment text line).over marks
  | _ => w

/-- Comments with these texts open a scope, whatever was known before them. -/
def OpensScope (scope : Scope) (texts : List (List Char)) : Prop :=
  ∀ marks, AreComments texts marks → ∀ w : Walk,
    (w.over marks).active = some scope ∧ (w.over marks).pending = some scope

section

variable {texts texts' : List (List Char)} {marks marks' : List Statement}

theorem AreComments.walk_append (h : AreComments texts marks) (place : Place) (outer : Option Scope)
    (w : Walk) (rest : List Statement) :
    walk place outer w (marks ++ rest) = walk place outer (w.over marks) rest := by
  induction h generalizing w with
  | nil => rfl
  | cons hmark _ ih =>
      obtain ⟨line, rfl⟩ := hmark
      rw [List.cons_append, walk, ih]
      rfl

theorem AreComments.settled_over (h : AreComments texts marks) (w : Walk) :
    (w.over marks).settled.map undescribed = w.settled.map undescribed := by
  induction h generalizing w with
  | nil => rfl
  | cons hmark _ ih =>
      obtain ⟨line, rfl⟩ := hmark
      rw [Walk.over, ih, Walk.settled_comment]

theorem AreComments.knows (h : AreComments texts marks) {w : Walk} {entry : Option Scope}
    {before : List Statement} (hw : w.Knows entry before) :
    (w.over marks).Knows entry (before ++ marks) := by
  induction h generalizing w before with
  | nil =>
      rw [List.append_nil]
      exact hw
  | cons hmark _ ih =>
      obtain ⟨line, rfl⟩ := hmark
      rw [List.append_cons]
      exact ih (hw.comment _ line)

/-- **What opens a scope is the scope of the place behind it, and of a rule there**, whatever stands
before it. -/
theorem OpensScope.scopeAt {scope : Scope} (h : OpensScope scope texts)
    (hmarks : AreComments texts marks) (entry : Option Scope) (before : List Statement) :
    Stylesheet.scopeAt entry (before ++ marks) = some scope ∧
      ruleScope entry (before ++ marks) = some scope := by
  have hbefore :
      Walk.Knows ⟨Stylesheet.scopeAt entry before, pendingAt before, none⟩ entry before :=
    ⟨rfl, rfl⟩
  have hknows := hmarks.knows hbefore
  obtain ⟨hactive, hpending⟩ := h marks hmarks _
  refine ⟨hknows.active.symm.trans hactive, hknows.childScope.symm.trans ?_⟩
  rw [Walk.childScope, hpending]
  rfl

/-- What two blocks begin with alike may be left out. -/
theorem tokensOf_walk_append {place : Place} {outer : Option Scope} {rest rest' : List Statement}
    (h : ∀ w, tokensOf (walk place outer w rest) = tokensOf (walk place outer w rest'))
    (before : List Statement) (w : Walk) :
    tokensOf (walk place outer w (before ++ rest)) =
      tokensOf (walk place outer w (before ++ rest')) := by
  induction before generalizing w with
  | nil => exact h w
  | cons s before ih =>
      rw [List.cons_append, List.cons_append]
      cases s with
      | comment text line =>
          rw [walk, walk]
          exact ih (w.comment text line)
      | declaration d => simp only [tokensOf_declaration, ih]
      | rule head body inner => simp only [tokensOf_rule, ih]

/-- **Comments that open the same scope may stand for each other.** -/
theorem Reannotated.tokensOf {scope : Scope} {block block' : List Statement}
    (h : Reannotated marks marks' block block') (hmarks : AreComments texts marks)
    (hmarks' : AreComments texts' marks') (hscope : OpensScope scope texts)
    (hscope' : OpensScope scope texts') (place : Place) (outer : Option Scope) (w : Walk) :
    Stylesheet.tokensOf (walk place outer w block) =
      Stylesheet.tokensOf (walk place outer w block') := by
  induction h generalizing place outer w with
  | here before hafter =>
      refine tokensOf_walk_append (fun w => ?_) before w
      rw [hmarks.walk_append, hmarks'.walk_append]
      obtain ⟨hactive, hpending⟩ := hscope marks hmarks w
      obtain ⟨hactive', hpending'⟩ := hscope' marks' hmarks' w
      refine tokensOf_walk hafter ⟨hactive.trans hactive'.symm, hpending.trans hpending'.symm, ?_⟩
        place outer
      rw [hmarks.settled_over, hmarks'.settled_over]
  | inside before head body body' hin hafter ih =>
      refine tokensOf_walk_append (fun w => ?_) before w
      rw [tokensOf_rule, tokensOf_rule, ih { place with selector := selectorOf head }
        (w.childScope outer)
        (.enter (w.childScope outer)), tokensOf_walk hafter (.refl _) place outer]

/-- The tokens of a stylesheet are those of the walk over it, if there is no fault in its tree. -/
theorem tokensOf_findings_eq (dialect : Dialect) (filename : String) (text : List Char) :
    tokensOf (findings dialect filename text) =
      if (Css.firstFault? (nodesOf dialect text)).isSome then none
      else tokensOf (walk ⟨dialect, filename, []⟩ none (.enter none)
        (statements dialect (nodesOf dialect text))) := by
  cases hfault : Css.firstFault? (nodesOf dialect text) with
  | none =>
      rw [findings_eq_walk filename hfault]
      cases walk ⟨dialect, filename, []⟩ none (.enter none)
        (statements dialect (nodesOf dialect text)) <;> rfl
  | some fault =>
      cases hfound : findings dialect filename text with
      | error fault => rfl
      | ok found => cases (sound_of_findings hfound).symm.trans hfault

/-- **With comments that open the same scope a stylesheet yields the same tokens**, or is
refused. -/
theorem Reannotated.tokensOf_findings {scope : Scope} {text text' : List Char}
    (h : Reannotated marks marks' (statements dialect (nodesOf dialect text))
      (statements dialect (nodesOf dialect text')))
    (hfault : (Css.firstFault? (nodesOf dialect text)).isSome =
      (Css.firstFault? (nodesOf dialect text')).isSome)
    (hmarks : AreComments texts marks) (hmarks' : AreComments texts' marks')
    (hscope : OpensScope scope texts) (hscope' : OpensScope scope texts') (filename : String) :
    Stylesheet.tokensOf (findings dialect filename text) =
      Stylesheet.tokensOf (findings dialect filename text') := by
  rw [tokensOf_findings_eq, tokensOf_findings_eq, hfault,
    h.tokensOf hmarks hmarks' hscope hscope' ⟨dialect, filename, []⟩ none (.enter none)]

end

end TokenCatalog.Stylesheet
