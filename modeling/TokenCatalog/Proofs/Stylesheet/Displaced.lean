import Mathlib.Data.Option.Basic
import TokenCatalog.Proofs.Css.Moved
import TokenCatalog.Proofs.Stylesheet.LexicalScope
import TokenCatalog.Proofs.Stylesheet.Located
import TokenCatalog.Proofs.Text.Pieces

/-!
# Statements at other places

Nodes that are found further down, or behind other blanks, are split into the same statements, and
the walk over them finds the same tokens. Main statements:

* `Displaced`: two rows of statements that differ in their places only;
* `displaced_of_moved`: statements are split alike wherever they stand;
* `tokensOf_walk`: so the same tokens are found, up to what comments say about them.
-/

namespace TokenCatalog.Stylesheet

open TokenCatalog.Css (Node Position Moved Opener ColorFault significant)

/-! ## Begun statements -/

/-- Nodes of a begun statement that differ in their places, and in the blanks in front of it. -/
inductive Akin : List Node → List Node → Prop
  | intro {fill fill' rest rest' : List Node} (hfill : ∀ node ∈ fill, IsBlank node)
      (hfill' : ∀ node ∈ fill', IsBlank node) (hrest : Moved rest rest') :
      Akin (fill ++ rest) (fill' ++ rest')

theorem akin_nil : Akin [] [] :=
  @Akin.intro [] [] [] [] nofun nofun .nil

theorem IsBlank.isFiller {node : Node} (h : IsBlank node) : node.isFiller = true := by
  obtain ⟨p, text, rfl, -⟩ := h
  rfl

theorem hasContent_of_blanks {fill : List Node} (h : ∀ node ∈ fill, IsBlank node) :
    hasContent fill = false := by
  rw [hasContent, List.any_eq_false]
  intro node hnode
  simp [(h node hnode).isFiller]

theorem selectorOf_append {fill : List Node} (h : ∀ node ∈ fill, IsBlank node) (rest : List Node) :
    selectorOf (fill ++ rest) = selectorOf rest := by
  obtain ⟨blanks, hblanks, hwrite⟩ := exists_write_of_blanks
    (fun node hnode => h node (List.mem_of_mem_filter hnode)) (Css.withoutComments rest)
  rw [selectorOf, selectorOf, Css.withoutComments, List.filter_append]
  exact (congrArg Text.collapse hwrite).trans (Text.collapse_append_of_blank hblanks _)

theorem endsInInterpolation_eq (dialect : Dialect) (nodes : List Node) :
    endsInInterpolation dialect nodes =
      dialect.interpolation.any fun sign => nodes.getLast?.any (·.isLiteral [sign]) := by
  unfold endsInInterpolation
  cases dialect.interpolation <;> cases nodes.getLast? <;> rfl

theorem endsInInterpolation_append {fill : List Node} (h : ∀ node ∈ fill, IsBlank node)
    (dialect : Dialect) (rest : List Node) :
    endsInInterpolation dialect (fill ++ rest) = endsInInterpolation dialect rest := by
  rw [endsInInterpolation_eq, endsInInterpolation_eq, List.getLast?_append]
  cases rest.getLast? with
  | some last => rfl
  | none =>
      cases hlast : fill.getLast? with
      | none => rfl
      | some last =>
          obtain ⟨p, text, rfl, -⟩ := h last (List.mem_of_getLast? hlast)
          rfl

namespace Akin

variable {current current' : List Node}

theorem append {more more' : List Node} (h : Akin current current') (hmore : Moved more more') :
    Akin (current ++ more) (current' ++ more') := by
  cases h with
  | intro hfill hfill' hrest =>
      rw [List.append_assoc, List.append_assoc]
      exact .intro hfill hfill' (hrest.append hmore)

theorem skipFiller (h : Akin current current') :
    Moved (Stylesheet.skipFiller current) (Stylesheet.skipFiller current') := by
  cases h with
  | intro hfill hfill' hrest =>
      rw [skipFiller_append_of_filler (hasContent_of_blanks hfill),
        skipFiller_append_of_filler (hasContent_of_blanks hfill')]
      exact hrest.dropWhile Css.placeBlind_isFiller

theorem hasContent (h : Akin current current') :
    Stylesheet.hasContent current = Stylesheet.hasContent current' := by
  cases h with
  | intro hfill hfill' hrest =>
      have hany := hrest.any Css.placeBlind_isFiller.not
      have hnone := hasContent_of_blanks hfill
      have hnone' := hasContent_of_blanks hfill'
      simp only [Stylesheet.hasContent, List.any_append] at hnone hnone' ⊢
      rw [hnone, hnone', hany]

theorem significant (h : Akin current current') :
    Moved (Css.significant current) (Css.significant current') := by
  have hnone : ∀ {fill : List Node}, (∀ node ∈ fill, IsBlank node) →
      fill.filter (!·.isFiller) = [] := fun hfill =>
    List.filter_eq_nil_iff.mpr fun node hnode => by simp [(hfill node hnode).isFiller]
  cases h with
  | intro hfill hfill' hrest =>
      rw [Css.significant, Css.significant, List.filter_append, List.filter_append, hnone hfill,
        hnone hfill']
      exact hrest.filter Css.placeBlind_isFiller.not

/-- A rule's selector shows no blanks in front of it. -/
theorem selectorOf (h : Akin current current') :
    Stylesheet.selectorOf current = Stylesheet.selectorOf current' := by
  cases h with
  | intro hfill hfill' hrest =>
      rw [selectorOf_append hfill, selectorOf_append hfill', Stylesheet.selectorOf,
        Stylesheet.selectorOf]
      exact congrArg Text.collapse (hrest.filter Css.placeBlind_isComment.not).write

theorem endsInInterpolation (h : Akin current current') (dialect : Dialect) :
    Stylesheet.endsInInterpolation dialect current =
      Stylesheet.endsInInterpolation dialect current' := by
  cases h with
  | intro hfill hfill' hrest =>
      rw [endsInInterpolation_append hfill, endsInInterpolation_append hfill',
        endsInInterpolation_eq, endsInInterpolation_eq]
      cases dialect.interpolation with
      | none => rfl
      | some sign => exact hrest.any_getLast? (Css.placeBlind_isLiteral [sign])

end Akin

/-! ## Declarations and rules -/

theorem declaredName?_moved {xs ys : List Node} (h : Moved xs ys) (dialect : Dialect) :
    Option.Rel (fun a b => a.1 = b.1 ∧ Moved a.2 b.2) (declaredName? dialect xs)
      (declaredName? dialect ys) := by
  cases h with
  | nil => exact .none
  | nested p q opener _ _ => cases opener <;> exact .none
  | @leaf p q leaf xs ys h =>
      cases leaf with
      | ident name => exact .some ⟨rfl, h⟩
      | atKeyword name =>
          rw [declaredName?, declaredName?]
          split
          · exact .some ⟨rfl, h⟩
          · exact .none
      | literal text =>
          by_cases htext : text = ['$']
          · subst htext
            rw [declaredName?, declaredName?]
            split
            · have hrest : Moved (skipFiller xs) (skipFiller ys) :=
                h.dropWhile Css.placeBlind_isFiller
              generalize skipFiller xs = xs at hrest ⊢
              generalize skipFiller ys = ys at hrest ⊢
              cases hrest with
              | nil => exact .none
              | nested p q opener _ _ => cases opener <;> exact .none
              | leaf p q leaf h =>
                  cases leaf with
                  | ident name => exact .some ⟨rfl, h⟩
                  | _ => exact .none
            · exact .none
          · have hnone : ∀ r rest,
                declaredName? dialect (.leaf r (.literal text) :: rest) = none := by
              intro r rest
              unfold declaredName?
              split <;> simp_all
            rw [hnone, hnone]
            exact .none
      | _ => exact .none

/-- Two declarations that differ in their places only. -/
structure SameDeclaration (d d' : Declaration) : Prop where
  name : d.name = d'.name
  nodes : Moved d.nodes d'.nodes

/-- Where a name is declared, there is a node. -/
theorem exists_anchor {dialect : Dialect} {nodes : List Node} {named : List Char × List Node}
    (h : declaredName? dialect nodes = some named) (value : List Node) :
    ∃ anchor, (value.head? <|> nodes.head?) = some anchor := by
  cases nodes with
  | nil => cases h
  | cons node nodes => cases value <;> exact ⟨_, rfl⟩

theorem Akin.declaration? {current current' : List Node} (h : Akin current current')
    (dialect : Dialect) (line line' : Nat) :
    Option.Rel SameDeclaration (Stylesheet.declaration? dialect current line)
      (Stylesheet.declaration? dialect current' line') := by
  have hskip := h.skipFiller
  rw [Stylesheet.declaration?, Stylesheet.declaration?]
  -- only the anchor may differ: it is the first node of the value, or of the declaration
  generalize Stylesheet.skipFiller current = nodes, Stylesheet.skipFiller current' = nodes' at hskip
  have hname := declaredName?_moved hskip dialect
  revert hname
  cases hdeclared : declaredName? dialect nodes with
  | none =>
      cases hdeclared' : declaredName? dialect nodes' <;> intro hname
      · exact .none
      · cases hname
  | some named =>
      cases hdeclared' : declaredName? dialect nodes' <;> intro hname
      · cases hname
      · next named' =>
          obtain ⟨name, rest⟩ := named
          obtain ⟨name', rest'⟩ := named'
          cases hname with
          | some hname =>
              obtain ⟨hname, hrest⟩ := hname
              have hcolon : Moved (Stylesheet.skipFiller rest) (Stylesheet.skipFiller rest') :=
                hrest.dropWhile Css.placeBlind_isFiller
              simp only [Option.bind_eq_bind, Option.bind_some]
              generalize Stylesheet.skipFiller rest = rest at hcolon ⊢
              generalize Stylesheet.skipFiller rest' = rest' at hcolon ⊢
              cases hcolon with
              | nil => exact .none
              | nested p q opener _ _ => cases opener <;> exact .none
              | @leaf p q leaf value value' hvalue =>
                  dsimp only
                  rw [Css.placeBlind_isLiteral [':'] |>.leaf p q]
                  split
                  · obtain ⟨anchor, hanchor⟩ := exists_anchor hdeclared
                      (Stylesheet.skipFiller value)
                    obtain ⟨anchor', hanchor'⟩ := exists_anchor hdeclared'
                      (Stylesheet.skipFiller value')
                    rw [hanchor, hanchor']
                    exact .some ⟨hname, hvalue⟩
                  · exact .none

/-- A rule's name is that of its first node, blanks and comments aside. -/
theorem isKeyframes_moved {head head' : List Node}
    (h : Moved (significant head) (significant head')) : isKeyframes head = isKeyframes head' := by
  unfold isKeyframes
  generalize significant head = nodes at h ⊢
  generalize significant head' = nodes' at h ⊢
  cases h with
  | nil => rfl
  | leaf p q leaf _ => cases leaf <;> rfl
  | nested p q opener _ _ => cases opener <;> rfl

/-! ## Statements -/

/-- Two rows of statements that differ in their places only. -/
inductive Displaced : List Statement → List Statement → Prop
  | nil : Displaced [] []
  | comment (text : List Char) (line line' : Nat) {rest rest' : List Statement}
      (h : Displaced rest rest') :
      Displaced (.comment text line :: rest) (.comment text line' :: rest')
  | declaration {d d' : Declaration} {rest rest' : List Statement} (hd : SameDeclaration d d')
      (h : Displaced rest rest') : Displaced (.declaration d :: rest) (.declaration d' :: rest')
  | rule {head head' body body' : List Node} {inner inner' rest rest' : List Statement}
      (hselector : selectorOf head = selectorOf head')
      (hkeyframes : isKeyframes head = isKeyframes head') (hinner : Displaced inner inner')
      (h : Displaced rest rest') :
      Displaced (.rule head body inner :: rest) (.rule head' body' inner' :: rest')

theorem Displaced.cons_declared {declared declared' : Option Declaration}
    {rest rest' : List Statement}
    (hdeclared : Option.Rel SameDeclaration declared declared') (h : Displaced rest rest') :
    Displaced ((declared.map Statement.declaration).toList ++ rest)
      ((declared'.map Statement.declaration).toList ++ rest') := by
  cases hdeclared with
  | none => exact h
  | some hd => exact .declaration hd h

theorem exists_last_of_content {nodes : List Node} (h : hasContent nodes = true) :
    ∃ last, nodes.getLast? = some last := by
  refine Option.ne_none_iff_exists'.mp fun hnone => ?_
  rw [List.getLast?_eq_none_iff.mp hnone] at h
  cases h

theorem statementsFrom_leaf {dialect : Dialect} {current nodes : List Node} {p : Position}
    {leaf : Css.Leaf} (hcomment : ¬ ∃ text, leaf = .comment text)
    (hsemicolon : leaf ≠ .literal [';']) :
    statementsFrom dialect current (.leaf p leaf :: nodes) =
      statementsFrom dialect (current ++ [.leaf p leaf]) nodes := by
  rw [statementsFrom]
  · exact fun text htext => hcomment ⟨text, htext⟩
  · exact hsemicolon

/-- **Statements are split alike wherever they stand.** The induction follows the nodes; what has
begun before them differs in its leading blanks at most. -/
theorem displaced_of_moved {nodes nodes' : List Node} (h : Moved nodes nodes') (dialect : Dialect)
    {current current' : List Node} (hcurrent : Akin current current') :
    Displaced (statementsFrom dialect current nodes) (statementsFrom dialect current' nodes') := by
  induction h generalizing current current' with
  | nil =>
      rw [statementsFrom, statementsFrom, hcurrent.hasContent]
      split
      · next hcontent' =>
          obtain ⟨last, hlast⟩ := exists_last_of_content (hcurrent.hasContent.trans hcontent')
          obtain ⟨last', hlast'⟩ := exists_last_of_content hcontent'
          rw [hlast, hlast', ← List.append_nil (Option.toList _),
            ← List.append_nil (Option.toList (Option.map _ (Option.bind (some last') _)))]
          exact .cons_declared (hcurrent.declaration? dialect _ _) .nil
      · exact .nil
  | leaf p q leaf h ih =>
      have hnode := hcurrent.append (.leaf p q leaf .nil)
      by_cases hcomment : ∃ text, leaf = .comment text
      · obtain ⟨text, rfl⟩ := hcomment
        rw [statementsFrom, statementsFrom, hcurrent.hasContent]
        split
        · exact ih hnode
        · exact .comment text _ _ (ih hcurrent)
      · by_cases hsemicolon : leaf = .literal [';']
        · subst hsemicolon
          rw [statementsFrom, statementsFrom]
          exact .cons_declared (hcurrent.declaration? dialect _ _) (ih akin_nil)
        · rw [statementsFrom_leaf hcomment hsemicolon, statementsFrom_leaf hcomment hsemicolon]
          exact ih hnode
  | nested p q opener hin h ihin ih =>
      have hnode := hcurrent.append (.nested p q opener hin .nil)
      cases opener with
      | function name =>
          rw [Opener.node, Opener.node, statementsFrom, statementsFrom]
          exact ih hnode
      | block bracket =>
          rw [Opener.node, Opener.node, statementsFrom, statementsFrom,
            hcurrent.endsInInterpolation dialect]
          split
          · exact .rule hcurrent.selectorOf (isKeyframes_moved hcurrent.significant) (ihin akin_nil)
              (ih akin_nil)
          · exact ih hnode

/-! ## Tokens -/

theorem SameDeclaration.value {d d' : Declaration} (h : SameDeclaration d d') :
    d.value = d'.value :=
  congrArg Text.strip (h.nodes.filter Css.placeBlind_isComment.not).write

theorem varTarget?_moved {arguments arguments' : List Node} (h : Moved arguments arguments')
    (name : List Char) : varTarget? name arguments = varTarget? name arguments' := by
  have hfilter := h.filter Css.placeBlind_isFiller.not
  unfold varTarget? significant
  generalize arguments.filter (!·.isFiller) = nodes at hfilter ⊢
  generalize arguments'.filter (!·.isFiller) = nodes' at hfilter ⊢
  cases hfilter with
  | nil => rfl
  | leaf p q leaf _ => cases leaf <;> rfl
  | nested p q opener _ _ => cases opener <;> rfl

/-- Of literals only the dollar sign begins a reference. -/
theorem aliasTarget?_literal {nodes rest : List Node} {p : Position} {text : List Char}
    (h : significant nodes = .leaf p (.literal text) :: rest) (htext : text ≠ ['$'])
    (dialect : Dialect) : aliasTarget? dialect nodes = none := by
  unfold aliasTarget?
  rw [h]
  split <;> simp_all

theorem aliasTarget?_moved {nodes nodes' : List Node} (h : Moved nodes nodes') (dialect : Dialect) :
    aliasTarget? dialect nodes = aliasTarget? dialect nodes' := by
  have hfilter : Moved (significant nodes) (significant nodes') :=
    h.filter Css.placeBlind_isFiller.not
  by_cases hliteral : ∃ p text rest, significant nodes = .leaf p (.literal text) :: rest ∧
      text ≠ ['$']
  · obtain ⟨p, text, rest, hnodes, htext⟩ := hliteral
    rw [hnodes] at hfilter
    obtain ⟨q, rest', hnodes', -⟩ := hfilter.exists_of_leaf
    rw [aliasTarget?_literal hnodes htext, aliasTarget?_literal hnodes' htext]
  · unfold aliasTarget?
    generalize significant nodes = row at hfilter hliteral ⊢
    generalize significant nodes' = row' at hfilter ⊢
    cases hfilter with
    | nil => rfl
    | nested p q opener hin hrest =>
        cases opener with
        | block bracket => rfl
        | function name =>
            cases hrest with
            | nil => exact varTarget?_moved hin name
            | leaf => rfl
            | nested => rfl
    | leaf p q leaf hrest =>
        cases leaf with
        | atKeyword name => cases hrest <;> rfl
        | literal text =>
            obtain rfl : text = ['$'] :=
              Decidable.byContradiction fun htext => hliteral ⟨p, text, _, rfl, htext⟩
            cases hrest with
            | nil => rfl
            | nested p q opener _ _ => cases opener <;> rfl
            | leaf p q leaf hrest => cases leaf <;> cases hrest <;> rfl
        | _ => rfl

/-- The same declaration in the same scope is judged alike, and is the same token. -/
theorem SameDeclaration.name_eq {d d' : Declaration} (h : SameDeclaration d d') (dialect : Dialect)
    (selector : List Char) (scope : Option Scope) :
    Site.name dialect ⟨selector, scope, d⟩ = Site.name dialect ⟨selector, scope, d'⟩ := by
  rw [Site.name, Site.name, h.name]

theorem SameDeclaration.tokenAt? {d d' : Declaration} (h : SameDeclaration d d') (dialect : Dialect)
    (filename : String) (selector : List Char) (scope : Option Scope) (c : Classified) :
    Stylesheet.tokenAt? dialect filename (⟨selector, scope, d⟩, c) =
      Stylesheet.tokenAt? dialect filename (⟨selector, scope, d'⟩, c) := by
  simp only [Stylesheet.tokenAt?, h.name_eq, h.value, aliasTarget?_moved h.nodes]

/-- The tokens of findings without their descriptions, if anything was found. -/
def tokensOf {ε : Type} (found : Except ε Findings) : Option (List Token) :=
  found.toOption.map fun found => found.tokens.map undescribed

/-- What one step finds stands between the token before it and what the rest finds. -/
theorem tokensOf_step {ε : Type} (settled : List Token) (step after : Except ε Findings) :
    tokensOf (step >>= fun found => after >>= fun after =>
        .ok ({ tokens := settled } ++ found ++ after)) =
      (tokensOf step).bind fun here => (tokensOf after).map fun rest =>
        settled.map undescribed ++ here ++ rest := by
  cases step with
  | error fault => rfl
  | ok found =>
      cases after with
      | error fault => rfl
      | ok after =>
          show some _ = some _
          simp

theorem tokensOf_declaration (place : Place) (outer : Option Scope) (w : Walk) (d : Declaration)
    (rest : List Statement) :
    tokensOf (walk place outer w (.declaration d :: rest)) =
      (w.declaration place d).toOption.bind fun p => (tokensOf (walk place outer p.2 rest)).map
        fun rest => w.settled.map undescribed ++ p.1.tokens.map undescribed ++ rest := by
  rw [walk]
  cases w.declaration place d with
  | error fault => rfl
  | ok p => exact tokensOf_step w.settled (.ok p.1) _

theorem tokensOf_rule (place : Place) (outer : Option Scope) (w : Walk) (head body : List Node)
    (inner rest : List Statement) :
    tokensOf (walk place outer w (.rule head body inner :: rest)) =
      (if isKeyframes head then some []
        else tokensOf (walk { place with selector := selectorOf head } (w.childScope outer)
          (.enter (w.childScope outer)) inner)).bind fun here =>
      (tokensOf (walk place outer ⟨w.active, none, none⟩ rest)).map fun rest =>
        w.settled.map undescribed ++ here ++ rest := by
  rw [walk]
  split
  · exact tokensOf_step w.settled (.ok _) _
  · exact tokensOf_step w.settled _ _

/-- Two walks that know the same scopes, and the same token before up to its description. -/
structure Walk.Same (w w' : Walk) : Prop where
  active : w.active = w'.active
  pending : w.pending = w'.pending
  settled : w.settled.map undescribed = w'.settled.map undescribed

theorem Walk.Same.refl (w : Walk) : w.Same w :=
  ⟨rfl, rfl, rfl⟩

theorem Walk.Same.comment {w w' : Walk} (h : w.Same w') (text : List Char) (line line' : Nat) :
    (w.comment text line).Same (w'.comment text line') := by
  have hsettled : (w.comment text line).settled.map undescribed =
      (w'.comment text line').settled.map undescribed := by
    rw [settled_comment, settled_comment, h.settled]
  suffices hscopes : (w.comment text line).active = (w'.comment text line').active ∧
      (w.comment text line).pending = (w'.comment text line').pending from
    ⟨hscopes.1, hscopes.2, hsettled⟩
  unfold Walk.comment
  split
  · exact ⟨rfl, rfl⟩
  · exact ⟨rfl, rfl⟩
  · cases hpending : w.pending with
    | none =>
        have hscopes := w.remark_scopes text line (.inl hpending)
        have hscopes' := w'.remark_scopes text line' (.inl (h.pending.symm.trans hpending))
        rw [hscopes.1, hscopes.2, hscopes'.1, hscopes'.2]
        exact ⟨h.active, h.pending⟩
    | some scope =>
        cases hname : Stylesheet.presenter? text with
        | none =>
            have hscopes := w.remark_scopes text line (.inr hname)
            have hscopes' := w'.remark_scopes text line' (.inr hname)
            rw [hscopes.1, hscopes.2, hscopes'.1, hscopes'.2]
            exact ⟨h.active, h.pending⟩
        | some name =>
            rw [remark_presenter hpending hname,
              remark_presenter (h.pending.symm.trans hpending) hname]
            exact ⟨rfl, rfl⟩

/-- The same declaration is the same token, and leaves the walk alike. -/
theorem Walk.Same.declaration {w w' : Walk} (h : w.Same w') {d d' : Declaration}
    (hd : SameDeclaration d d') (place : Place) :
    (∃ fault fault', w.declaration place d = .error fault ∧
      w'.declaration place d' = .error fault') ∨
      ∃ found next found' next', w.declaration place d = .ok (found, next) ∧
        w'.declaration place d' = .ok (found', next') ∧ found.tokens = found'.tokens ∧
          next.Same next' := by
  cases hvalue : d'.value.isEmpty with
  | true =>
      rw [Walk.declaration, Walk.declaration, hd.value, hvalue, h.active]
      exact .inr ⟨_, _, _, _, rfl, rfl, rfl, .refl _⟩
  | false =>
      rw [w.declaration_judge place d (hd.value ▸ hvalue), w'.declaration_judge place d' hvalue,
        Site.judge, Site.judge, hd.name_eq, h.active, hd.value]
      cases Value.classify d'.value _ with
      | error fault => exact .inl ⟨fault, fault, rfl, rfl⟩
      | ok c =>
          refine .inr ⟨_, _, _, _, rfl, rfl, rfl, rfl, rfl, ?_⟩
          simp only [Walk.settled, hd.tokenAt?]
          cases Stylesheet.tokenAt? place.dialect place.filename _ <;> rfl

theorem Walk.Same.childScope {w w' : Walk} (h : w.Same w') (outer : Option Scope) :
    w.childScope outer = w'.childScope outer := by
  rw [Walk.childScope, Walk.childScope, h.active, h.pending]

/-- **What stands elsewhere yields the same tokens.** -/
theorem tokensOf_walk {block block' : List Statement} (h : Displaced block block')
    {w w' : Walk} (hw : w.Same w') (place : Place) (outer : Option Scope) :
    tokensOf (walk place outer w block) = tokensOf (walk place outer w' block') := by
  induction h generalizing place outer w w' with
  | nil =>
      rw [walk, walk]
      exact congrArg some hw.settled
  | comment text line line' _ ih =>
      rw [walk, walk]
      exact ih (hw.comment text line line') place outer
  | declaration hd _ ih =>
      rw [tokensOf_declaration, tokensOf_declaration]
      rcases hw.declaration hd place with
        ⟨fault, fault', hfault, hfault'⟩ | ⟨found, next, found', next', hok, hok', htokens, hnext⟩
      · rw [hfault, hfault']
        rfl
      · rw [hok, hok']
        dsimp only [Except.toOption, Option.bind_some]
        rw [ih hnext place outer, hw.settled, htokens]
  | @rule head head' body body' inner inner' rest rest' hselector hkeyframes hinner _ ihinner ih =>
      have hnext : Walk.Same ⟨w.active, none, none⟩ ⟨w'.active, none, none⟩ := ⟨hw.active, rfl, rfl⟩
      have hrest := ih hnext place outer
      have hin := ihinner (.refl (.enter (w'.childScope outer)))
        { place with selector := selectorOf head' } (w'.childScope outer)
      rw [tokensOf_rule, tokensOf_rule, hrest, hw.settled, hw.childScope outer, hkeyframes,
        hselector, hin]

end TokenCatalog.Stylesheet
