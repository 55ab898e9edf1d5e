import Mathlib.Data.List.DropRight
import TokenCatalog.Proofs.Except
import TokenCatalog.Stylesheet.Parse

/-!
# Lexical token scopes

The walk over a stylesheet carries the active scope, the scope pending for the next rule and the
token that a comment may still describe. None of the three is needed to say what is found: the scope
of a declaration is read off the statements before it in its own block and the scope that the block
was entered with, and the block's scope is read off the statements before its rule. Main statements:

* `scopeAt` and `ruleScope`: the scope of a place in a block and of a rule's block, by the last
  marker before them;
* `sites`: the declarations of a block in document order, at any depth, with their scopes;
* `findings_exclusive`: what a stylesheet yields is one token for each site in a scope, one literal
  for each other site that is worth reporting, and nothing else.
-/

namespace TokenCatalog.Stylesheet

open TokenCatalog.Css (ColorFault)

/-! ## Markers before a place -/

/-- Whether a statement is a comment. -/
def Statement.isComment : Statement → Bool
  | .comment _ _ => true
  | _ => false

/-- What a statement marks; declarations and rules mark nothing. -/
def Statement.marker? : Statement → Option Marker
  | .comment text _ => readMarker text
  | _ => none

def Statement.presenter? : Statement → Option (List Char)
  | .comment text _ => Stylesheet.presenter? text
  | _ => none

/-- The last marker among statements, with the statements after it. -/
def lastMarker? : List Statement → Option (Marker × List Statement)
  | [] => none
  | s :: rest => lastMarker? rest <|> s.marker?.map (·, rest)

/-- The scope of a marker, given the statements after it: comments that follow the marker directly
may name another presenter, the last of them counting. -/
def Scope.continued (scope : Scope) (after : List Statement) : Scope :=
  match ((after.takeWhile Statement.isComment).filterMap Statement.presenter?).getLast? with
  | some name => { scope with presenter := some (String.ofList name) }
  | none => scope

/-- The scope that a marker leaves, given the statements after it. -/
def Marker.scope? (after : List Statement) : Marker → Option Scope
  | .opens scope => some (scope.continued after)
  | .closes => none

/-- The scope of a place in a block: that of the last marker before it in the block, or else the one
that the block was entered with. -/
def scopeAt (entry : Option Scope) (before : List Statement) : Option Scope :=
  match lastMarker? before with
  | some (marker, after) => marker.scope? after
  | none => entry

def recentComments (before : List Statement) : List Statement :=
  before.rtakeWhile Statement.isComment

/-- The scope of the last marker since the last declaration or rule. -/
def pendingAt (before : List Statement) : Option Scope :=
  (lastMarker? (recentComments before)).bind fun p => p.1.scope? p.2

/-- The scope that a rule's block is entered with: that of the last marker since the declaration or
rule before it. Without such a marker it is the scope of the place, provided that the block around
the rule was itself entered in a scope. -/
def ruleScope (entry : Option Scope) (before : List Statement) : Option Scope :=
  match lastMarker? (recentComments before) with
  | some (marker, after) => marker.scope? after
  | none => if entry.isSome then scopeAt entry before else none

theorem lastMarker?_concat (before : List Statement) (s : Statement) :
    lastMarker? (before ++ [s]) =
      match s.marker? with
      | some marker => some (marker, [])
      | none => (lastMarker? before).map fun p => (p.1, p.2 ++ [s]) := by
  induction before with
  | nil => cases h : s.marker? <;> simp [lastMarker?, h]
  | cons first rest ih =>
      rw [List.cons_append, lastMarker?, ih, lastMarker?]
      cases s.marker? with
      | some marker => rfl
      | none =>
          cases lastMarker? rest with
          | some p => rfl
          | none => cases first.marker? <;> rfl

theorem recentComments_concat (before : List Statement) (s : Statement) :
    recentComments (before ++ [s]) =
      if s.isComment then recentComments before ++ [s] else [] :=
  List.rtakeWhile_concat _ _ _

theorem marker?_eq_none {s : Statement} (h : s.isComment = false) : s.marker? = none := by
  cases s with
  | comment text line => cases h
  | declaration d => rfl
  | rule head body inner => rfl

/-- A marker is recent exactly when only comments follow it. -/
theorem lastMarker?_recentComments (before : List Statement) :
    lastMarker? (recentComments before) =
      (lastMarker? before).filter fun p => p.2.all Statement.isComment := by
  induction before using List.reverseRecOn with
  | nil => rfl
  | append_singleton before s ih =>
      rw [recentComments_concat, lastMarker?_concat]
      cases hs : s.isComment with
      -- what is no comment ends the recent ones, and stands after every marker before it
      | false =>
          rw [marker?_eq_none hs]
          cases lastMarker? before with
          | none => rfl
          | some p => simp [lastMarker?, hs, Option.filter]
      | true =>
          rw [if_pos rfl, lastMarker?_concat, ih]
          cases s.marker? with
          | some marker => rfl
          | none =>
              cases lastMarker? before with
              | none => rfl
              | some p =>
                  cases hall : p.2.all Statement.isComment <;>
                    simp [Option.filter, hs, hall]

theorem pendingAt_of_none {before : List Statement} (h : lastMarker? before = none) :
    pendingAt before = none := by
  rw [pendingAt, lastMarker?_recentComments, h]
  rfl

theorem pendingAt_of_some {before after : List Statement} {marker : Marker}
    (h : lastMarker? before = some (marker, after)) :
    pendingAt before =
      if after.all Statement.isComment then marker.scope? after else none := by
  rw [pendingAt, lastMarker?_recentComments, h]
  cases hall : after.all Statement.isComment <;> simp [Option.filter, hall]

/-- Of comments that follow a marker, one more is reached only past comments. -/
theorem takeWhile_isComment_concat (after : List Statement) {s : Statement}
    (hs : s.isComment = true) :
    (after ++ [s]).takeWhile Statement.isComment =
      after.takeWhile Statement.isComment ++
        if after.all Statement.isComment then [s] else [] := by
  induction after with
  | nil => simp [hs]
  | cons first rest ih =>
      rw [List.cons_append]
      cases hfirst : first.isComment with
      | true => simp [hfirst, ih]
      | false => simp [hfirst]

/-- A comment after comments alone continues a scope; after anything else it has no part in it. -/
theorem Scope.continued_concat (scope : Scope) (after : List Statement) (text : List Char)
    (line : Nat) :
    scope.continued (after ++ [.comment text line]) =
      match after.all Statement.isComment, Stylesheet.presenter? text with
      | true, some name => { scope.continued after with presenter := some (String.ofList name) }
      | _, _ => scope.continued after := by
  rw [continued, takeWhile_isComment_concat after (s := .comment text line) rfl,
    List.filterMap_append, List.getLast?_append, continued]
  cases after.all Statement.isComment with
  | false => rfl
  | true =>
      have hone : ([.comment text line] : List Statement).filterMap Statement.presenter? =
          (Stylesheet.presenter? text).toList := by
        cases h : Stylesheet.presenter? text <;> simp [Statement.presenter?, h]
      rw [if_pos rfl, hone]
      cases Stylesheet.presenter? text with
      | none => rfl
      | some name =>
          cases ((after.takeWhile Statement.isComment).filterMap
            Statement.presenter?).getLast? <;> rfl

example : scopeAt none [.comment "@tokens Brand".toList 1, .comment "@presenter Swatch".toList 2] =
    some ⟨some "Brand", some "Swatch"⟩ := by
  decide +kernel

/-- A declaration or a rule has no part in a scope's annotations, and ends them. -/
theorem Scope.continued_statement (scope : Scope) (after : List Statement) {s : Statement}
    (hs : s.isComment = false) : scope.continued (after ++ [s]) = scope.continued after := by
  have htake : (after ++ [s]).takeWhile Statement.isComment =
      after.takeWhile Statement.isComment := by
    induction after with
    | nil => simp [hs]
    | cons first rest ih =>
        rw [List.cons_append, List.takeWhile_cons, List.takeWhile_cons, ih]
  rw [continued, htake, continued]

/-! ## What the walk knows -/

/-- The walk after some statements of a block knows their active scope and the scope of a marker
that is still pending. This is the invariant of the walk; it says nothing about the token before,
which decides descriptions only. -/
structure Walk.Knows (w : Walk) (entry : Option Scope) (before : List Statement) : Prop where
  active : w.active = scopeAt entry before
  pending : w.pending = pendingAt before

theorem Walk.enter_knows (entry : Option Scope) : (Walk.enter entry).Knows entry [] :=
  ⟨rfl, rfl⟩

/-- A name after a pending marker changes its presenter. -/
theorem Walk.remark_presenter {w : Walk} {scope : Scope} {text name : List Char}
    (hpending : w.pending = some scope) (hname : Stylesheet.presenter? text = some name)
    (line : Nat) :
    w.remark text line =
      { w with
        active := some { scope with presenter := some (String.ofList name) }
        pending := some { scope with presenter := some (String.ofList name) } } := by
  rw [remark, hpending, hname]

/-- Any other remark leaves the scopes as they are. -/
theorem Walk.remark_scopes (w : Walk) (text : List Char) (line : Nat)
    (h : w.pending = none ∨ Stylesheet.presenter? text = none) :
    (w.remark text line).active = w.active ∧ (w.remark text line).pending = w.pending := by
  unfold remark
  split
  · next hpending hname =>
      rcases h with h | h
      · rw [h] at hpending
        cases hpending
      · rw [h] at hname
        cases hname
  · split
    · split <;> exact ⟨rfl, rfl⟩
    · exact ⟨rfl, rfl⟩

/-- A remark continues the scope of the last marker, whatever stands after that marker. -/
theorem Walk.remark_continues {w : Walk} {marker : Marker} {after : List Statement}
    (hactive : w.active = marker.scope? after)
    (hpending : w.pending =
      if after.all Statement.isComment then marker.scope? after else none)
    (text : List Char) (line : Nat) :
    (w.remark text line).active = marker.scope? (after ++ [.comment text line]) ∧
      (w.remark text line).pending =
        if after.all Statement.isComment then marker.scope? (after ++ [.comment text line])
        else none := by
  cases marker with
  -- after an end mark nothing is pending, so no name can change anything
  | closes =>
      have hnone : w.pending = none := by simpa [Marker.scope?] using hpending
      obtain ⟨h1, h2⟩ := w.remark_scopes text line (Or.inl hnone)
      refine ⟨h1.trans hactive, ?_⟩
      rw [h2, hnone]
      exact (ite_self none).symm
  | opens scope =>
      rw [Marker.scope?] at hactive hpending
      rw [Marker.scope?, Scope.continued_concat]
      cases hall : after.all Statement.isComment with
      | false =>
          rw [hall] at hpending
          obtain ⟨h1, h2⟩ := w.remark_scopes text line (Or.inl hpending)
          exact ⟨h1.trans hactive, h2.trans hpending⟩
      | true =>
          rw [hall, if_pos rfl] at hpending
          cases hname : Stylesheet.presenter? text with
          | none =>
              obtain ⟨h1, h2⟩ := w.remark_scopes text line (Or.inr hname)
              exact ⟨h1.trans hactive, h2.trans hpending⟩
          | some name =>
              rw [remark_presenter hpending hname]
              exact ⟨rfl, rfl⟩

/-- After a comment that marks nothing. The pending scope, where there is one, is the active one,
and only comments stand between its marker and here, so both are continued alike. -/
theorem Walk.Knows.remark {w : Walk} {entry : Option Scope} {before : List Statement}
    (h : w.Knows entry before) {text : List Char} (hmark : readMarker text = none) (line : Nat) :
    (w.remark text line).Knows entry (before ++ [.comment text line]) := by
  have hmarker : (Statement.comment text line).marker? = none := hmark
  have hlast := lastMarker?_concat before (.comment text line)
  have hactive := h.active
  have hpending := h.pending
  rw [hmarker] at hlast
  rcases hbefore : lastMarker? before with - | ⟨marker, after⟩ <;> rw [hbefore] at hlast
  -- without a marker before it, the comment leaves the scope of entry as it is
  · rw [scopeAt, hbefore] at hactive
    rw [pendingAt_of_none hbefore] at hpending
    obtain ⟨h1, h2⟩ := w.remark_scopes text line (Or.inl hpending)
    constructor
    · rw [h1, hactive, scopeAt, hlast]
      rfl
    · rw [h2, hpending, pendingAt_of_none hlast]
  · rw [scopeAt, hbefore] at hactive
    rw [pendingAt_of_some hbefore] at hpending
    obtain ⟨h1, h2⟩ := remark_continues hactive hpending text line
    constructor
    · rw [h1, scopeAt, hlast]
      rfl
    · rw [h2, pendingAt_of_some hlast]
      simp [Statement.isComment]

theorem Walk.Knows.comment {w : Walk} {entry : Option Scope} {before : List Statement}
    (h : w.Knows entry before) (text : List Char) (line : Nat) :
    (w.comment text line).Knows entry (before ++ [.comment text line]) := by
  have hlast := lastMarker?_concat before (.comment text line)
  rw [show (Statement.comment text line).marker? = readMarker text from rfl] at hlast
  unfold Walk.comment
  cases hmark : readMarker text with
  | none => exact h.remark hmark line
  | some marker =>
      rw [hmark] at hlast
      cases marker with
      | closes =>
          constructor
          · rw [scopeAt, hlast]
            rfl
          · rw [pendingAt_of_some hlast]
            rfl
      | opens scope =>
          constructor
          · rw [scopeAt, hlast]
            rfl
          · rw [pendingAt_of_some hlast]
            rfl

/-- After a declaration or a rule nothing is pending, and the active scope stays. -/
theorem Walk.Knows.pass {w : Walk} {entry : Option Scope} {before : List Statement}
    (h : w.Knows entry before) {s : Statement} (hs : s.isComment = false)
    (previous : Option (Token × Nat)) :
    (Walk.mk w.active none previous).Knows entry (before ++ [s]) := by
  have hlast := lastMarker?_concat before s
  rw [marker?_eq_none hs] at hlast
  constructor
  · show w.active = _
    rw [h.active, scopeAt, scopeAt, hlast]
    rcases lastMarker? before with - | ⟨marker, after⟩
    · rfl
    · cases marker with
      | closes => rfl
      | opens scope => exact congrArg some (scope.continued_statement after hs).symm
  · show none = _
    rw [pendingAt, recentComments_concat, hs]
    rfl

/-- The scope handed to a rule's block is the one that its place gives. -/
theorem Walk.Knows.childScope {w : Walk} {entry : Option Scope} {before : List Statement}
    (h : w.Knows entry before) : w.childScope entry = ruleScope entry before := by
  rw [Walk.childScope, ruleScope, h.active, h.pending, pendingAt]
  rcases hrecent : lastMarker? (recentComments before) with - | ⟨marker, after⟩
  · rfl
  · rw [lastMarker?_recentComments] at hrecent
    obtain ⟨hlast, -⟩ := Option.filter_eq_some_iff.mp hrecent
    cases marker with
    | opens scope => rfl
    | closes =>
        rw [scopeAt, hlast]
        cases entry <;> rfl

/-! ## Declarations and their scopes -/

/-- A declaration with the selector of its block and its scope. -/
structure Site where
  selector : List Char
  scope : Option Scope
  declaration : Declaration

/-- The declarations in the rest of a block at any depth, in document order; `before` is the part of
the block that comes before. A keyframes rule holds none. -/
def sitesFrom (selector : List Char) (entry : Option Scope) (before : List Statement) :
    List Statement → List Site
  | [] => []
  | .comment text line :: rest =>
    sitesFrom selector entry (before ++ [.comment text line]) rest
  | .declaration d :: rest =>
    ⟨selector, scopeAt entry before, d⟩ ::
      sitesFrom selector entry (before ++ [.declaration d]) rest
  | .rule head body inner :: rest =>
    (if isKeyframes head then []
      else sitesFrom (selectorOf head) (ruleScope entry before) [] inner) ++
      sitesFrom selector entry (before ++ [.rule head body inner]) rest
termination_by block => sizeOf block

/-- Whether a site's declaration has a value. -/
def Site.hasValue (s : Site) : Bool :=
  !s.declaration.value.isEmpty

/-- The name under which a site's value is classified; a token's has lost its sigil. -/
def Site.name (dialect : Dialect) (s : Site) : List Char :=
  if s.scope.isSome then stripSigil dialect s.declaration.name else s.declaration.name

/-- A site with the kind and the normal form of its value. -/
def Site.judge (dialect : Dialect) (s : Site) : Except ColorFault (Site × Classified) :=
  (Value.classify s.declaration.value (some (s.name dialect))).map (s, ·)

/-- The token that a site in a scope is, without a description. -/
def tokenAt? (dialect : Dialect) (filename : String) : Site × Classified → Option Token
  | (s, c) => s.scope.map fun scope =>
    let target := (aliasTarget? dialect s.declaration.nodes).map String.ofList
    { name := .str (String.ofList (s.name dialect))
      value := .str c.value
      sourceValue := .str (String.ofList s.declaration.value)
      kind := c.kind
      category := optional scope.category
      presenter := optional scope.presenter
      isAlias := .bool target.isSome
      aliasOf := optional target
      sourceFile := .str filename }

/-- The literal that a site outside every scope is, if it is worth reporting. -/
def literalAt? (filename : String) : Site × Classified → Option HardCodedValue
  | (s, c) =>
    if s.scope.isNone && c.isHardCoded then
      some
        { value := .str (String.ofList s.declaration.value)
          kind := c.kind
          location := ⟨.str filename, .int s.declaration.position.line,
            .int s.declaration.position.column⟩
          property := .str (String.ofList s.declaration.name)
          selector := .str (String.ofList s.selector) }
    else none

/-! ## What the walk finds -/

/-- A token without its description. -/
def undescribed (t : Token) : Token :=
  { t with description := .null }

def Findings.declared (found : Findings) : List Token × List HardCodedValue :=
  (found.tokens.map undescribed, found.hardCoded)

theorem Walk.settled_comment (w : Walk) (text : List Char) (line : Nat) :
    (w.comment text line).settled.map undescribed = w.settled.map undescribed := by
  have hremark : (w.remark text line).settled.map undescribed = w.settled.map undescribed := by
    unfold Walk.remark
    repeat' split
    · rfl
    · next hprevious _ => simp [settled, hprevious, undescribed]
    · rfl
    · rfl
  unfold Walk.comment
  split
  · rfl
  · rfl
  · exact hremark

/-- What a declaration with a value is: the token or the literal of its site. -/
theorem Walk.declaration_judge (w : Walk) (place : Place) (d : Declaration)
    (hvalue : d.value.isEmpty = false) :
    w.declaration place d =
      (Site.judge place.dialect ⟨place.selector, w.active, d⟩).map fun judged =>
        ({ hardCoded := (literalAt? place.filename judged).toList },
          ⟨w.active, none,
            (tokenAt? place.dialect place.filename judged).map (·, d.endLine)⟩) := by
  rw [Walk.declaration, hvalue, Site.judge, Site.name]
  cases hactive : w.active with
  | some scope =>
      simp only [Option.isSome_some, if_true, Bool.false_eq_true, if_false, tokenOf]
      cases Value.classify d.value (some (stripSigil place.dialect d.name)) with
      | error fault => rfl
      | ok c => rfl
  | none =>
      simp only [Option.isSome_none, Bool.false_eq_true, if_false, literalOf]
      cases Value.classify d.value (some d.name) with
      | error fault => rfl
      | ok c =>
          cases hreport : c.isHardCoded <;>
            simp [bind, Except.bind, Except.map, literalAt?, tokenAt?, hreport]

@[simp] theorem Findings.tokens_append (a b : Findings) :
    (a ++ b).tokens = a.tokens ++ b.tokens := rfl

@[simp] theorem Findings.hardCoded_append (a b : Findings) :
    (a ++ b).hardCoded = a.hardCoded ++ b.hardCoded := rfl

/-- What one step finds stands between the token before it and what the rest finds. -/
theorem declared_step (settled : List Token) (step after : Except ColorFault Findings) :
    Except.map Findings.declared
        (step >>= fun found => after >>= fun after =>
          .ok ({ tokens := settled } ++ found ++ after)) =
      (step.map Findings.declared >>= fun found => after.map Findings.declared >>= fun after =>
        .ok (settled.map undescribed ++ found.1 ++ after.1, found.2 ++ after.2)) := by
  cases step with
  | error fault => rfl
  | ok found =>
      cases after with
      | error fault => rfl
      | ok after =>
          show Except.ok _ = Except.ok _
          simp [Findings.declared]

/-- The tokens and literals of judged sites, after those that are settled before. -/
def gather (place : Place) (settled : List Token) (judged : List (Site × Classified)) :
    List Token × List HardCodedValue :=
  (settled.map undescribed ++ judged.filterMap (tokenAt? place.dialect place.filename),
    judged.filterMap (literalAt? place.filename))

/-- A token that no comment describes yet has no description to lose. -/
theorem tokenAt?_undescribed (dialect : Dialect) (filename : String)
    (judged : Site × Classified) :
    (tokenAt? dialect filename judged).map undescribed = tokenAt? dialect filename judged := by
  rw [tokenAt?, Option.map_map]
  rfl

/-- A judged site is settled as its token, and its literal is found at once. -/
theorem gather_cons (place : Place) (settled : List Token) (here : Site × Classified)
    (judged : List (Site × Classified)) :
    gather place settled (here :: judged) =
      (settled.map undescribed ++
        (gather place (tokenAt? place.dialect place.filename here).toList judged).1,
        (literalAt? place.filename here).toList ++ (gather place [] judged).2) := by
  have htoken := tokenAt?_undescribed place.dialect place.filename here
  unfold gather
  cases ht : tokenAt? place.dialect place.filename here <;>
    cases hl : literalAt? place.filename here <;> simp_all

/-- Findings of one step before the judged sites of the rest. -/
theorem found_then_gather (place : Place) (settled previous : List Token)
    (found : List Token × List HardCodedValue)
    (rest : Except ColorFault (List (Site × Classified))) :
    (Except.ok found >>= fun found => rest.map (gather place previous) >>= fun after =>
      .ok (settled.map undescribed ++ found.1 ++ after.1, found.2 ++ after.2)) =
      rest.map fun judged =>
        (settled.map undescribed ++ (found.1 ++ (gather place previous judged).1),
          found.2 ++ (gather place previous judged).2) := by
  cases rest with
  | error fault => rfl
  | ok judged =>
      show Except.ok _ = Except.ok _
      rw [List.append_assoc]

/-- The walk from a place in a block on finds the token that a comment may still describe, and then
what the sites from there on are. The induction follows the walk; the walk's knowledge is what makes
the scope that it carries the one read off the statements before. -/
theorem walk_declared (place : Place) (outer : Option Scope) (w : Walk) (block : List Statement) :
    ∀ before, w.Knows outer before →
      (walk place outer w block).map Findings.declared =
        (((sitesFrom place.selector outer before block).filter Site.hasValue).mapM
          (Site.judge place.dialect)).map (gather place w.settled) := by
  induction place, outer, w, block using walk.induct with
  | case1 place outer w =>
      intro before hw
      simp [walk, sitesFrom, Findings.declared, gather, Except.map, pure, Except.pure]
  -- a comment finds nothing; it may describe the token before it, which is not looked at here
  | case2 place outer w text line rest ih =>
      intro before hw
      rw [walk, sitesFrom, ih _ (hw.comment text line)]
      unfold gather
      rw [w.settled_comment]
  | case3 place outer w d rest ih =>
      intro before hw
      have hrest := fun previous =>
        ih _ (before ++ [.declaration d]) (hw.pass (s := .declaration d) rfl previous)
      rw [walk, sitesFrom]
      cases hvalue : d.value.isEmpty with
      | true =>
          -- without a value it is no site, but the token before it is settled all the same
          rw [Walk.declaration, hvalue, if_pos rfl,
            List.filter_cons_of_neg (by simp [Site.hasValue, hvalue])]
          refine (declared_step w.settled (.ok {}) _).trans ?_
          rw [hrest none]
          exact found_then_gather place w.settled [] ([], []) _
      | false =>
          rw [w.declaration_judge place d hvalue, hw.active,
            List.filter_cons_of_pos (by simp [Site.hasValue, hvalue]), List.mapM_cons]
          cases Site.judge place.dialect ⟨place.selector, scopeAt outer before, d⟩ with
          | error fault => rfl
          | ok here =>
              refine (declared_step w.settled (.ok _) _).trans ?_
              rw [← hw.active, hrest]
              refine (found_then_gather place w.settled _
                ([], (literalAt? place.filename here).toList) _).trans ?_
              cases ((sitesFrom place.selector outer (before ++ [.declaration d]) rest).filter
                  Site.hasValue).mapM (Site.judge place.dialect) with
              | error fault => rfl
              | ok judged =>
                  show Except.ok _ = Except.ok (gather place w.settled (here :: judged))
                  rw [gather_cons]
                  cases tokenAt? place.dialect place.filename here <;> rfl
  | case4 place outer w head body inner rest hkey ih =>
      intro before hw
      have hrest := ih (before ++ [.rule head body inner])
        (hw.pass (s := .rule head body inner) rfl none)
      rw [walk, sitesFrom, if_pos hkey, if_pos hkey, declared_step, hrest]
      exact found_then_gather place w.settled [] ([], []) _
  | case5 place outer w head body inner rest scope hkey ih1 ih2 =>
      intro before hw
      have hrest := ih1 (before ++ [.rule head body inner])
        (hw.pass (s := .rule head body inner) rfl none)
      -- the rule's block is walked afresh, with the scope that its place gives
      have hinner := ih2 [] (Walk.enter_knows scope)
      rw [walk, sitesFrom, if_neg hkey, if_neg hkey, declared_step, hrest, hinner, ← hw.childScope,
        List.filter_append, List.mapM_append]
      cases ((sitesFrom (selectorOf head) scope [] inner).filter
          Site.hasValue).mapM (Site.judge place.dialect) with
      | error fault => rfl
      | ok inside =>
          refine (found_then_gather place w.settled [] (gather place [] inside) _).trans ?_
          cases ((sitesFrom place.selector outer (before ++ [.rule head body inner]) rest).filter
              Site.hasValue).mapM (Site.judge place.dialect) with
          | error fault => rfl
          | ok judged =>
              show Except.ok _ = Except.ok _
              simp [gather]

/-! ## The whole stylesheet -/

/-- A declaration stands in a block that was entered with a scope: among the block's own statements,
or in the block of one of its rules that is no keyframes rule. -/
inductive Stands : List Char → Option Scope → List Statement → Site → Prop
  | here (selector : List Char) (entry : Option Scope) (before after : List Statement)
      (d : Declaration) :
      Stands selector entry (before ++ .declaration d :: after)
        ⟨selector, scopeAt entry before, d⟩
  | inside {selector : List Char} {entry : Option Scope} {before after inner : List Statement}
      {head body : List Css.Node} {site : Site} (hkey : isKeyframes head = false)
      (h : Stands (selectorOf head) (ruleScope entry before) inner site) :
      Stands selector entry (before ++ .rule head body inner :: after) site

/-- What is left of a block is left after more of it has come before. -/
theorem sitesFrom_append (selector : List Char) (entry : Option Scope)
    (more rest : List Statement) :
    ∀ before, ∃ sites, sitesFrom selector entry before (more ++ rest) =
      sites ++ sitesFrom selector entry (before ++ more) rest := by
  induction more with
  | nil => exact fun before => ⟨[], by simp⟩
  | cons s more ih =>
      intro before
      obtain ⟨sites, hsites⟩ := ih (before ++ [s])
      rw [List.append_assoc, List.singleton_append] at hsites
      cases s with
      | comment text line => exact ⟨sites, by rw [List.cons_append, sitesFrom, hsites]⟩
      | declaration d => exact ⟨_ :: sites, by rw [List.cons_append, sitesFrom, hsites]; rfl⟩
      | rule head body inner =>
          refine ⟨(if isKeyframes head then []
            else sitesFrom (selectorOf head) (ruleScope entry before) [] inner) ++ sites, ?_⟩
          rw [List.cons_append, sitesFrom, hsites, List.append_assoc]

theorem stands_of_mem (selector : List Char) (entry : Option Scope)
    (before block : List Statement) :
    ∀ site ∈ sitesFrom selector entry before block,
      Stands selector entry (before ++ block) site := by
  induction selector, entry, before, block using sitesFrom.induct with
  | case1 selector entry before =>
      intro site h
      rw [sitesFrom] at h
      exact absurd h List.not_mem_nil
  | case2 selector entry before text line rest ih =>
      intro site h
      rw [sitesFrom] at h
      simpa using ih site h
  | case3 selector entry before d rest ih =>
      intro site h
      rw [sitesFrom] at h
      rcases List.mem_cons.mp h with rfl | h
      · exact .here selector entry before rest d
      · simpa using ih site h
  | case4 selector entry before head body inner rest ih1 ih2 =>
      intro site h
      rw [sitesFrom] at h
      rcases List.mem_append.mp h with h | h
      · cases hkey : isKeyframes head with
        | true =>
            rw [hkey] at h
            exact absurd h List.not_mem_nil
        | false =>
            rw [hkey] at h
            exact .inside hkey (ih1 site h)
      · simpa using ih2 site h

/-- The sites of a block are the declarations that stand in it, each with its scope. -/
theorem mem_sitesFrom_iff {selector : List Char} {entry : Option Scope} {block : List Statement}
    {site : Site} :
    site ∈ sitesFrom selector entry [] block ↔ Stands selector entry block site := by
  constructor
  · exact stands_of_mem selector entry [] block site
  · intro h
    induction h with
    | here selector entry before after d =>
        obtain ⟨sites, hsites⟩ := sitesFrom_append selector entry before (.declaration d ::
          after) []
        rw [hsites, sitesFrom]
        simp
    | @inside selector entry before after inner head body site hkey h ih =>
        obtain ⟨sites, hsites⟩ :=
          sitesFrom_append selector entry before (.rule head body inner :: after) []
        rw [hsites, sitesFrom, hkey]
        simp [ih]

/-- The component values of a stylesheet. -/
def nodesOf (dialect : Dialect) (text : List Char) : List Css.Node :=
  Css.parse (if dialect.hasLineComments then withBlockComments text else text)

/-- The declarations of a stylesheet that have a value, at any depth and in document order. -/
def sites (dialect : Dialect) (text : List Char) : List Site :=
  (sitesFrom [] none [] (statements dialect (nodesOf dialect text))).filter Site.hasValue

theorem sound_of_findings {dialect : Dialect} {filename : String} {text : List Char}
    {found : Findings} (h : findings dialect filename text = .ok found) :
    Css.firstFault? (nodesOf dialect text) = none := by
  cases hfault : Css.firstFault? (nodesOf dialect text) with
  | none => rfl
  | some fault =>
      rw [nodesOf] at hfault
      simp only [findings, hfault] at h
      cases h

/-- Without a fault in its tree, a stylesheet yields what the walk finds. -/
theorem findings_eq_walk {dialect : Dialect} {text : List Char} (filename : String)
    (hsound : Css.firstFault? (nodesOf dialect text) = none) :
    findings dialect filename text =
      (walk ⟨dialect, filename, []⟩ none (.enter none)
        (statements dialect (nodesOf dialect text))).mapError Fault.color := by
  rw [nodesOf] at hsound
  rw [findings, nodesOf]
  simp only [hsound]
  cases walk ⟨dialect, filename, []⟩ none (.enter none) (statements dialect
    (Css.parse (if dialect.hasLineComments then withBlockComments text else text))) <;> rfl

/-- Judging keeps the sites and their order. -/
theorem sites_of_judged {dialect : Dialect} {sites : List Site} {judged : List (Site × Classified)}
    (h : sites.mapM (Site.judge dialect) = .ok judged) : judged.map (·.1) = sites := by
  induction sites generalizing judged with
  | nil =>
      cases h
      rfl
  | cons s sites ih =>
      rw [List.mapM_cons, Site.judge] at h
      cases hc : Value.classify s.declaration.value (some (s.name dialect)) with
      | error fault =>
          rw [hc] at h
          cases h
      | ok c =>
          rw [hc] at h
          cases hrest : sites.mapM (Site.judge dialect) with
          | error fault =>
              rw [hrest] at h
              cases h
          | ok rest =>
              rw [hrest] at h
              cases h
              exact congrArg (s :: ·) (ih hrest)

/-- All sites can be judged exactly when each of them can. -/
theorem exists_judged_iff {dialect : Dialect} {sites : List Site} :
    (∃ judged, sites.mapM (Site.judge dialect) = .ok judged) ↔
      ∀ s ∈ sites, ∃ c, Value.classify s.declaration.value (some (s.name dialect)) = .ok c := by
  induction sites with
  | nil => exact ⟨fun _ s hs => absurd hs List.not_mem_nil, fun _ => ⟨[], rfl⟩⟩
  | cons s sites ih =>
      rw [List.mapM_cons, List.forall_mem_cons, ← ih, Site.judge]
      cases Value.classify s.declaration.value (some (s.name dialect)) with
      | error fault =>
          constructor
          · rintro ⟨judged, h⟩
            cases h
          · rintro ⟨⟨c, hc⟩, -⟩
            cases hc
      | ok c =>
          cases sites.mapM (Site.judge dialect) with
          | error fault =>
              constructor
              · rintro ⟨judged, h⟩
                cases h
              · rintro ⟨-, judged, h⟩
                cases h
          | ok judged => exact ⟨fun _ => ⟨⟨c, rfl⟩, judged, rfl⟩, fun _ => ⟨(s, c) :: judged, rfl⟩⟩

/-- A stylesheet is read exactly if all its declarations can be judged. -/
theorem findings_eq_ok_iff {dialect : Dialect} {filename : String} {text : List Char}
    (hsound : Css.firstFault? (nodesOf dialect text) = none) :
    (∃ found, findings dialect filename text = .ok found) ↔
      ∀ site ∈ sites dialect text, ∃ c,
        Value.classify site.declaration.value (some (site.name dialect)) = .ok c := by
  have hwalk := walk_declared ⟨dialect, filename, []⟩ none (.enter none)
    (statements dialect (nodesOf dialect text)) [] (Walk.enter_knows none)
  change _ = ((sites dialect text).mapM (Site.judge dialect)).map _ at hwalk
  rw [← exists_judged_iff, findings_eq_walk filename hsound]
  constructor
  · rintro ⟨found, hfound⟩
    rw [eq_ok_of_mapError hfound] at hwalk
    obtain ⟨judged, hjudged, -⟩ := exists_of_map_eq_ok hwalk.symm
    exact ⟨judged, hjudged⟩
  · rintro ⟨judged, hjudged⟩
    rw [hjudged] at hwalk
    obtain ⟨found, hfound, -⟩ := exists_of_map_eq_ok hwalk
    exact ⟨found, by rw [hfound]; rfl⟩

/-- What a stylesheet yields is what its judged sites are. -/
theorem exists_judged_of_findings {dialect : Dialect} {filename : String} {text : List Char}
    {found : Findings} (hsound : Css.firstFault? (nodesOf dialect text) = none)
    (hfound : findings dialect filename text = .ok found) :
    ∃ judged : List (Site × Classified), judged.map (·.1) = sites dialect text ∧
      found.tokens.map undescribed = judged.filterMap (tokenAt? dialect filename) ∧
      found.hardCoded = judged.filterMap (literalAt? filename) := by
  have hwalk := walk_declared ⟨dialect, filename, []⟩ none (.enter none)
    (statements dialect (nodesOf dialect text)) [] (Walk.enter_knows none)
  rw [findings_eq_walk filename hsound] at hfound
  rw [eq_ok_of_mapError hfound] at hwalk
  obtain ⟨judged, hjudged, hgather⟩ := exists_of_map_eq_ok hwalk.symm
  exact ⟨judged, sites_of_judged hjudged, (congrArg Prod.fst hgather).symm,
    (congrArg Prod.snd hgather).symm⟩

/-- **Scope is lexical and extraction is exclusive.** The declarations of a stylesheet without a
fault in its tree are those that stand in it, each in the scope of its place. The stylesheet is read
exactly when all their values can be classified; it then yields, in source order, one token for
every declaration in a scope, one literal for every other one that is worth reporting, and nothing
else. Otherwise it is refused with the fault of the first value that cannot be classified. -/
theorem findings_exclusive (dialect : Dialect) (filename : String) (text : List Char)
    (hsound : Css.firstFault? (nodesOf dialect text) = none) :
    (∀ site, site ∈ sites dialect text ↔
      site.hasValue ∧ Stands [] none (statements dialect (nodesOf dialect text)) site) ∧
    ((∃ found, findings dialect filename text = .ok found) ↔
      ∀ site ∈ sites dialect text, ∃ c,
        Value.classify site.declaration.value (some (site.name dialect)) = .ok c) ∧
    match (sites dialect text).mapM (Site.judge dialect) with
    | .error fault => findings dialect filename text = .error (.color fault)
    | .ok judged =>
      judged.map (·.1) = sites dialect text ∧
      ∃ found, findings dialect filename text = .ok found ∧
        found.tokens.map undescribed = judged.filterMap (tokenAt? dialect filename) ∧
        found.hardCoded = judged.filterMap (literalAt? filename) := by
  have hwalk := walk_declared ⟨dialect, filename, []⟩ none (.enter none)
    (statements dialect (nodesOf dialect text)) [] (Walk.enter_knows none)
  change _ = ((sites dialect text).mapM (Site.judge dialect)).map _ at hwalk
  rw [← exists_judged_iff, findings_eq_walk filename hsound]
  refine ⟨fun site => ?_, ?_⟩
  · rw [sites, List.mem_filter, mem_sitesFrom_iff, and_comm]
  · cases hjudged : (sites dialect text).mapM (Site.judge dialect) with
    | error fault =>
        rw [hjudged] at hwalk
        rw [eq_error_of_map hwalk]
        refine ⟨⟨?_, ?_⟩, rfl⟩
        · rintro ⟨found, h⟩
          cases h
        · rintro ⟨judged, h⟩
          cases h
    | ok judged =>
        rw [hjudged] at hwalk
        obtain ⟨found, hfound, hdeclared⟩ := exists_of_map_eq_ok hwalk
        rw [hfound]
        exact ⟨⟨fun _ => ⟨judged, rfl⟩, fun _ => ⟨found, rfl⟩⟩, sites_of_judged hjudged, found, rfl,
          congrArg Prod.fst hdeclared, congrArg Prod.snd hdeclared⟩

/-- A marked block with a rule inside it and an end mark in that rule, and a rule outside. -/
def nestedBlocks : List Char :=
  ("/* @tokens Brand */ a \x7b --x: red; b \x7b --y: #FFF; /* @tokens-end */ " ++
    "--z: #000 \x7d \x7d p \x7b color: #123456 \x7d").toList

theorem findings_exclusive_nestedBlocks :
    Css.firstFault? (nodesOf css nestedBlocks) = none ∧
    match (sites css nestedBlocks).mapM (Site.judge css) with
    | .error fault => findings css "a.css" nestedBlocks = .error (.color fault)
    | .ok judged =>
      judged.map (·.1) = sites css nestedBlocks ∧
      ∃ found, findings css "a.css" nestedBlocks = .ok found ∧
        found.tokens.map undescribed = judged.filterMap (tokenAt? css "a.css") ∧
        found.hardCoded = judged.filterMap (literalAt? "a.css") :=
  have hsound : Css.firstFault? (nodesOf css nestedBlocks) = none := by decide +kernel
  ⟨hsound, (findings_exclusive css "a.css" nestedBlocks hsound).2.2⟩

end TokenCatalog.Stylesheet
