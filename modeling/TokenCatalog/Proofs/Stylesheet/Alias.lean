import TokenCatalog.Proofs.Css.Row
import TokenCatalog.Proofs.Stylesheet.LexicalScope
import TokenCatalog.Proofs.Text.Search
import TokenCatalog.Proofs.Value.Overflow

/-!
# Aliases and the names they refer to

A declaration's name is put together from nodes and then loses a sigil; the name that a value refers
to is taken from other nodes and never had one. Both are the name of the same variable. Main
statements:

* `Declares` and `Refers`: nodes that declare a variable, and values that refer to one;
* `Declares.stripSigil`: a declared variable is recorded under its name;
* `aliasTarget?_eq_some_iff`: a value is an alias exactly if it refers to a variable, by whose name;
* `aliases_resolve`: an alias is recorded with the name of the token that it refers to.
-/

namespace TokenCatalog.Stylesheet

open TokenCatalog.Css (Node Leaf Position AreLeaves significant)

/-! ## Variables -/

/-- What a stylesheet can declare and refer to: a custom property, or a variable of the dialect's
own. -/
inductive Variable where
  | property (name : List Char)
  | own (name : List Char)
  deriving DecidableEq, Repr

/-- The name without what marks it as a variable. -/
def Variable.name : Variable → List Char
  | property name => name
  | own name => name

/-- The leaves that a variable is written with, if the dialect has it. -/
def Variable.leaves? (dialect : Dialect) : Variable → Option (List Leaf)
  | property name => some [.ident ('-' :: '-' :: name)]
  | own name =>
    if dialect.variableSign = some '$' then some [.literal ['$'], .ident name]
    else if dialect.variableSign = some '@' then some [.atKeyword name]
    else none

/-- A declaration that nodes are whose first significant ones are those of a variable. -/
def Declares (dialect : Dialect) (x : Variable) (d : Declaration) : Prop :=
  ∃ nodes endLine leaves row after, declaration? dialect nodes endLine = some d ∧
    x.leaves? dialect = some leaves ∧ AreLeaves row leaves ∧ significant nodes = row ++ after

/-- Nodes that refer to a variable, with any blanks and comments between them: a call of `var` for a
custom property, and for another variable the variable itself. -/
inductive Refers (dialect : Dialect) (nodes : List Node) : Variable → Prop
  | call {p q : Position} {name function : List Char} {arguments more : List Node}
      (hcall : significant nodes = [.function p function arguments])
      (hvar : Text.asciiLower function = "var".toList)
      (hargument : significant arguments = .leaf q (.ident ('-' :: '-' :: name)) :: more) :
      Refers dialect nodes (.property name)
  | own {name : List Char} {leaves : List Leaf}
      (hleaves : (Variable.own name).leaves? dialect = some leaves)
      (hrow : AreLeaves (significant nodes) leaves) : Refers dialect nodes (.own name)

theorem exists_of_areLeaves_cons {row : List Node} {leaf : Leaf} {leaves : List Leaf}
    (h : AreLeaves row (leaf :: leaves)) :
    ∃ p rest, row = .leaf p leaf :: rest ∧ AreLeaves rest leaves := by
  cases h with
  | cons p _ h => exact ⟨p, _, rfl, h⟩

theorem eq_nil_of_areLeaves {row : List Node} (h : AreLeaves row []) : row = [] := by
  cases h
  rfl

/-- The nodes of a variable of the dialect's own, by the sign that the dialect has. -/
theorem own_cases {dialect : Dialect} {name : List Char} {leaves : List Leaf} {row : List Node}
    (hleaves : (Variable.own name).leaves? dialect = some leaves) (hrow : AreLeaves row leaves) :
    (dialect.variableSign = some '$' ∧
        ∃ p q, row = [.leaf p (.literal ['$']), .leaf q (.ident name)]) ∨
      (dialect.variableSign = some '@' ∧ ∃ p, row = [.leaf p (.atKeyword name)]) := by
  rw [Variable.leaves?] at hleaves
  split at hleaves
  · next hsign =>
      obtain rfl := Option.some.inj hleaves
      obtain ⟨p, second, rfl, hsecond⟩ := exists_of_areLeaves_cons hrow
      obtain ⟨q, rest, rfl, hrest⟩ := exists_of_areLeaves_cons hsecond
      obtain rfl := eq_nil_of_areLeaves hrest
      exact .inl ⟨hsign, p, q, rfl⟩
  · split at hleaves
    · next hsign =>
        obtain rfl := Option.some.inj hleaves
        obtain ⟨p, rest, rfl, hrest⟩ := exists_of_areLeaves_cons hrow
        obtain rfl := eq_nil_of_areLeaves hrest
        exact .inr ⟨hsign, p, rfl⟩
    · cases hleaves

/-! ## Declared names -/

/-- The first significant node is what is left after leading blanks and comments. -/
theorem skipFiller_of_significant {nodes rest : List Node} {node : Node}
    (h : significant nodes = node :: rest) :
    ∃ after, skipFiller nodes = node :: after ∧ significant after = rest := by
  induction nodes with
  | nil => cases h
  | cons first nodes ih =>
      cases hfiller : first.isFiller with
      | true =>
          rw [significant, List.filter_cons_of_neg (by rw [hfiller]; decide)] at h
          rw [skipFiller, List.dropWhile_cons_of_pos hfiller]
          exact ih h
      | false =>
          rw [significant, List.filter_cons_of_pos (by rw [hfiller]; rfl)] at h
          obtain ⟨rfl, rfl⟩ := List.cons.inj h
          exact ⟨nodes, List.dropWhile_cons_of_neg (by rw [hfiller]; decide), rfl⟩

/-- The name of a declaration is the one that its nodes declare. -/
theorem name_of_declaration? {dialect : Dialect} {nodes : List Node} {endLine : Nat}
    {d : Declaration} (h : declaration? dialect nodes endLine = some d) :
    ∃ rest, declaredName? dialect (skipFiller nodes) = some (d.name, rest) := by
  unfold declaration? at h
  dsimp only at h
  obtain ⟨⟨name, rest⟩, hname, h⟩ := Option.bind_eq_some_iff.mp h
  dsimp only at h
  split at h
  · split at h
    · obtain ⟨anchor, -, h⟩ := Option.bind_eq_some_iff.mp h
      obtain rfl := Option.some.inj h
      exact ⟨rest, hname⟩
    · cases h
  · cases h

/-- The name that a variable is declared under, before it loses its sigil. -/
def Variable.declared (dialect : Dialect) : Variable → List Char
  | property name => '-' :: '-' :: name
  | own name => dialect.variableSign.toList ++ name

theorem Declares.name {dialect : Dialect} {x : Variable} {d : Declaration}
    (h : Declares dialect x d) : d.name = x.declared dialect := by
  obtain ⟨nodes, endLine, leaves, row, after, hd, hleaves, hrow, hnodes⟩ := h
  obtain ⟨rest, hname⟩ := name_of_declaration? hd
  cases x with
  | property name =>
      obtain rfl := Option.some.inj hleaves
      obtain ⟨p, rest, rfl, -⟩ := exists_of_areLeaves_cons hrow
      obtain ⟨nodes', hskip, -⟩ := skipFiller_of_significant hnodes
      rw [hskip, declaredName?] at hname
      exact (congrArg Prod.fst (Option.some.inj hname)).symm
  | own name =>
      rw [Variable.declared]
      rcases own_cases hleaves hrow with ⟨hsign, p, q, rfl⟩ | ⟨hsign, p, rfl⟩
      · obtain ⟨nodes', hskip, hnodes'⟩ := skipFiller_of_significant hnodes
        obtain ⟨nodes'', hskip', -⟩ := skipFiller_of_significant hnodes'
        rw [hskip, declaredName?, if_pos hsign, hskip'] at hname
        rw [hsign]
        exact (congrArg Prod.fst (Option.some.inj hname)).symm
      · obtain ⟨nodes', hskip, -⟩ := skipFiller_of_significant hnodes
        rw [hskip, declaredName?, if_pos hsign] at hname
        rw [hsign]
        exact (congrArg Prod.fst (Option.some.inj hname)).symm

/-- A variable loses its sigil and keeps its name, also where that begins with further hyphens. -/
theorem Variable.stripSigil_declared {dialect : Dialect} (hdialect : dialect ∈ dialects)
    {x : Variable} {leaves : List Leaf} (h : x.leaves? dialect = some leaves) :
    stripSigil dialect (x.declared dialect) = x.name := by
  simp only [dialects, List.mem_cons, List.not_mem_nil, or_false] at hdialect
  rcases hdialect with rfl | rfl | rfl
  · cases x with
    | property name => rfl
    | own name => cases h
  · cases x <;> rfl
  · cases x <;> rfl

theorem Declares.stripSigil {dialect : Dialect} (hdialect : dialect ∈ dialects) {x : Variable}
    {d : Declaration} (h : Declares dialect x d) : stripSigil dialect d.name = x.name := by
  obtain ⟨_, _, _, _, _, _, hleaves, _⟩ := id h
  rw [h.name, Variable.stripSigil_declared hdialect hleaves]

/-! ## Names that values refer to -/

theorem Refers.aliasTarget? {dialect : Dialect} {nodes : List Node} {x : Variable}
    (h : Refers dialect nodes x) : aliasTarget? dialect nodes = some x.name := by
  cases h with
  | call hcall hvar hargument =>
      rw [Stylesheet.aliasTarget?, hcall]
      show varTarget? _ _ = _
      rw [varTarget?, hargument]
      exact if_pos (by rw [decide_eq_true hvar]; rfl)
  | own hleaves hrow =>
      rw [Stylesheet.aliasTarget?]
      rcases own_cases hleaves hrow with ⟨hsign, p, q, hnodes⟩ | ⟨hsign, p, hnodes⟩
      · rw [hnodes]
        exact if_pos hsign
      · rw [hnodes]
        exact if_pos hsign

/-- **A value is an alias exactly if it refers to a variable**, and then by that variable's name. -/
theorem aliasTarget?_eq_some_iff {dialect : Dialect} {nodes : List Node} {name : List Char} :
    aliasTarget? dialect nodes = some name ↔ ∃ x : Variable, x.name = name ∧
      Refers dialect nodes x := by
  constructor
  · intro h
    unfold aliasTarget? at h
    split at h
    · next p function arguments hcall =>
        unfold varTarget? at h
        split at h
        · next q argument more hargument =>
            split at h
            · next hvar =>
                rw [Bool.and_eq_true, decide_eq_true_eq] at hvar
                obtain ⟨rest, rfl⟩ := List.isPrefixOf_iff_prefix.mp hvar.2
                obtain rfl := Option.some.inj h
                exact ⟨.property rest, rfl, .call hcall hvar.1 hargument⟩
            · cases h
        · cases h
    · next p q argument hrow =>
        split at h
        · next hsign =>
            obtain rfl := Option.some.inj h
            refine ⟨.own argument, rfl, .own (if_pos hsign) ?_⟩
            rw [hrow]
            exact .cons p _ (.cons q _ .nil)
        · cases h
    · next p argument hrow =>
        split at h
        · next hsign =>
            obtain rfl := Option.some.inj h
            refine ⟨.own argument, rfl, .own
              ((if_neg (by rw [hsign]; decide)).trans (if_pos hsign)) ?_⟩
            rw [hrow]
            exact .cons p _ .nil
        · cases h
    · cases h
  · rintro ⟨x, rfl, h⟩
    exact h.aliasTarget?

/-! ## Values that refer are recorded -/

/-- What a node is written with is written with its row. -/
theorem mem_writeFrom {nodes : List Node} {node : Node} (h : node ∈ nodes) {c : Char}
    (hc : c ∈ node.write) (previous : Option Css.Shape) : c ∈ Css.writeFrom previous nodes := by
  induction nodes generalizing previous with
  | nil => cases h
  | cons first nodes ih =>
      rw [Css.writeFrom, List.mem_append, List.mem_append]
      rcases List.mem_cons.mp h with rfl | h
      · exact .inl (.inr hc)
      · exact .inr (ih h _)

/-- A value has a text if one of its nodes, other than a comment, is written with more than
blanks. -/
theorem value_ne_nil {d : Declaration} {node : Node} (hnode : node ∈ significant d.nodes) {c : Char}
    (hc : c ∈ node.write) (hblank : Text.isBlank c = false) : d.value ≠ [] := by
  have hfiller := (List.mem_filter.mp hnode).2
  have hkept : node ∈ Css.withoutComments d.nodes := by
    refine List.mem_filter.mpr ⟨(List.mem_filter.mp hnode).1, ?_⟩
    cases node with
    | leaf p leaf => cases leaf <;> first | rfl | cases hfiller
    | function p name arguments => rfl
    | block p bracket content => rfl
  exact List.ne_nil_of_mem (Text.mem_strip (mem_writeFrom hkept hc none) hblank)

theorem Refers.value_ne_nil {dialect : Dialect} {x : Variable} {d : Declaration}
    (h : Refers dialect d.nodes x) : d.value ≠ [] := by
  cases h with
  | @call p q name function arguments more hcall hvar hargument =>
      refine Stylesheet.value_ne_nil (c := '(') (by rw [hcall]; exact List.mem_cons_self) ?_
        (by decide)
      rw [Node.write]
      simp
  | own hleaves hrow =>
      rcases own_cases hleaves hrow with ⟨-, p, q, hnodes⟩ | ⟨-, p, hnodes⟩
      · exact Stylesheet.value_ne_nil (by rw [hnodes]; exact List.mem_cons_self)
          (List.mem_cons_self : '$' ∈ _) (by decide)
      · exact Stylesheet.value_ne_nil (by rw [hnodes]; exact List.mem_cons_self)
          (List.mem_cons_self : '@' ∈ _) (by decide)

/-! ## What is recorded -/

def Site.Yields (dialect : Dialect) (filename : String) (s : Site) (t : Token) : Prop :=
  ∃ c, tokenAt? dialect filename (s, c) = some (undescribed t)

/-- The tokens are those of the sites in a scope, in their order. -/
theorem forall₂_yields {dialect : Dialect} {filename : String} {judged : List (Site × Classified)}
    {tokens : List Token}
    (h : tokens.map undescribed = judged.filterMap (tokenAt? dialect filename)) :
    List.Forall₂ (Site.Yields dialect filename)
      ((judged.map (·.1)).filter (·.scope.isSome)) tokens := by
  induction judged generalizing tokens with
  | nil =>
      obtain rfl := List.map_eq_nil_iff.mp h
      exact .nil
  | cons first judged ih =>
      obtain ⟨s, c⟩ := first
      cases hscope : s.scope with
      | none =>
          rw [List.filterMap_cons_none (by rw [tokenAt?, hscope]; rfl)] at h
          rw [List.map_cons, List.filter_cons_of_neg (by rw [hscope]; decide)]
          exact ih h
      | some scope =>
          obtain ⟨t, ht⟩ : ∃ t, tokenAt? dialect filename (s, c) = some t := by
            rw [tokenAt?, hscope]
            exact ⟨_, rfl⟩
          rw [List.filterMap_cons_some ht] at h
          obtain ⟨token, tokens, rfl, htoken, htokens⟩ := List.map_eq_cons_iff.mp h
          rw [List.map_cons, List.filter_cons_of_pos (by rw [hscope]; rfl)]
          exact .cons ⟨c, by rw [ht, htoken]⟩ (ih htokens)

theorem Site.Yields.name {dialect : Dialect} {filename : String} {s : Site} {t : Token}
    (h : s.Yields dialect filename t) :
    t.name = .str (String.ofList (stripSigil dialect s.declaration.name)) ∧
      t.isAlias = .bool (aliasTarget? dialect s.declaration.nodes).isSome ∧
      t.aliasOf = optional ((aliasTarget? dialect s.declaration.nodes).map String.ofList) := by
  obtain ⟨c, hc⟩ := h
  rw [tokenAt?] at hc
  obtain ⟨scope, hscope, ht⟩ := Option.map_eq_some_iff.mp hc
  have hname : s.name dialect = stripSigil dialect s.declaration.name := by
    rw [Site.name, hscope]
    rfl
  have halias : ((aliasTarget? dialect s.declaration.nodes).map String.ofList).isSome =
      (aliasTarget? dialect s.declaration.nodes).isSome := Option.isSome_map
  rw [← hname, ← halias]
  exact ⟨(congrArg Token.name ht).symm, (congrArg Token.isAlias ht).symm,
    (congrArg Token.aliasOf ht).symm⟩

/-- **An alias is recorded with the name of the token that it refers to.** Every declaration in a
scope whose value refers to a variable is recorded as an alias, by the name under which each
declaration of that variable in a scope is recorded; and a token is an alias exactly if it has a
name to refer to. -/
theorem aliases_resolve {dialect : Dialect} (hdialect : dialect ∈ dialects) {filename : String}
    {text : List Char} {found : Findings} (hfound : findings dialect filename text = .ok found) :
    ∃ recorded : List (Site × Token),
      recorded.map (·.1) = (sites dialect text).filter (·.scope.isSome) ∧
      recorded.map (·.2) = found.tokens ∧
      (∀ (x : Variable) (second : Site),
        Stands [] none (statements dialect (nodesOf dialect text)) second →
        second.scope.isSome → Refers dialect second.declaration.nodes x →
        ∃ reference, (second, reference) ∈ recorded ∧ reference.isAlias = .bool true ∧
          ∀ first token, (first, token) ∈ recorded → Declares dialect x first.declaration →
            reference.aliasOf = token.name) ∧
      ∀ t ∈ found.tokens, t.isAlias = .bool true ↔ t.aliasOf ≠ .null := by
  -- a site and its token are found together by their position, since names may repeat
  obtain ⟨judged, hjudged, htokens, -⟩ :=
    exists_judged_of_findings (sound_of_findings hfound) hfound
  have hyields := forall₂_yields htokens
  rw [hjudged] at hyields
  have hlength := hyields.length_eq
  have hrecorded : ∀ {s t}, (s, t) ∈ ((sites dialect text).filter (·.scope.isSome)).zip
      found.tokens →
      s.Yields dialect filename t := fun h => List.forall₂_zip hyields h
  have hfirst := List.map_fst_zip hlength.le
  have hsecond := List.map_snd_zip hlength.ge
  refine ⟨_, hfirst, hsecond, ?_, ?_⟩
  · intro x second hstands hscope hrefers
    have hvalue : second.hasValue = true := by
      rw [Site.hasValue, List.isEmpty_eq_false_iff.mpr hrefers.value_ne_nil]
      rfl
    have hmem : second ∈ (sites dialect text).filter (·.scope.isSome) :=
      List.mem_filter.mpr ⟨List.mem_filter.mpr ⟨mem_sitesFrom_iff.mpr hstands, hvalue⟩, hscope⟩
    rw [← hfirst] at hmem
    obtain ⟨⟨s, reference⟩, hpair, rfl⟩ := List.mem_map.mp hmem
    obtain ⟨-, halias, haliasOf⟩ := (hrecorded hpair).name
    rw [aliasTarget?_eq_some_iff.mpr ⟨x, rfl, hrefers⟩] at halias haliasOf
    refine ⟨reference, hpair, halias, fun first token htoken hdeclares => ?_⟩
    obtain ⟨hname, -⟩ := (hrecorded htoken).name
    rw [haliasOf, hname, hdeclares.stripSigil hdialect]
    rfl
  · intro t ht
    rw [← hsecond] at ht
    obtain ⟨⟨s, t⟩, hpair, rfl⟩ := List.mem_map.mp ht
    obtain ⟨-, halias, haliasOf⟩ := (hrecorded hpair).name
    rw [halias, haliasOf]
    cases aliasTarget? dialect s.declaration.nodes with
    | none => exact ⟨fun h => absurd (Json.bool.inj h) (by decide), fun h => absurd rfl h⟩
    | some name => exact ⟨fun _ h => Json.noConfusion h, fun _ => rfl⟩

/-- A declared variable whose name begins with two further hyphens and has an escape in it, and a
reference to it after a comment. -/
def furtherHyphens : List Char := "/*@tokens A*/$--\\24 y:red;--w:/**/$--\\24 y;".toList

def declaredHyphens : Declaration :=
  ⟨"$--$y".toList, [.leaf ⟨1, 23⟩ (.ident "red".toList)], ⟨1, 23⟩, 1⟩

def referringHyphens : Declaration :=
  ⟨"--w".toList, [.leaf ⟨1, 31⟩ (.comment []), .leaf ⟨1, 35⟩ (.literal ['$']),
    .leaf ⟨1, 36⟩ (.ident "--$y".toList)], ⟨1, 35⟩, 1⟩

theorem statements_furtherHyphens : statements scss (nodesOf scss furtherHyphens) =
    [.comment "@tokens A".toList 1, .declaration declaredHyphens,
      .declaration referringHyphens] := by
  with_unfolding_all rfl

theorem declares_declaredHyphens : Declares scss (.own "--$y".toList) declaredHyphens :=
  ⟨[.leaf ⟨1, 14⟩ (.literal ['$']), .leaf ⟨1, 15⟩ (.ident "--$y".toList),
    .leaf ⟨1, 22⟩ (.literal [':']), .leaf ⟨1, 23⟩ (.ident "red".toList)], 1,
    [.literal ['$'], .ident "--$y".toList], [.leaf ⟨1, 14⟩ _, .leaf ⟨1, 15⟩ _], _, rfl, rfl,
    .cons _ _ (.cons _ _ .nil), rfl⟩

theorem refers_referringHyphens :
    Refers scss referringHyphens.nodes (.own "--$y".toList) :=
  @Refers.own _ _ _ [.literal ['$'], .ident "--$y".toList] rfl (.cons _ _ (.cons _ _ .nil))

theorem aliases_resolve_furtherHyphens :
    scss ∈ dialects ∧ ∃ found token reference,
      findings scss "a.scss" furtherHyphens = .ok found ∧ token ∈ found.tokens ∧
        reference ∈ found.tokens ∧ reference.isAlias = .bool true ∧
        reference.aliasOf = token.name := by
  have hmem : scss ∈ dialects := by decide
  have hscope : scopeAt none [.comment "@tokens A".toList 1] = some ⟨some "A", none⟩ := by
    decide +kernel
  have hscope' : scopeAt none [.comment "@tokens A".toList 1, .declaration declaredHyphens] =
      some ⟨some "A", none⟩ := by
    decide +kernel
  have hsites : sites scss furtherHyphens =
      [⟨[], some ⟨some "A", none⟩, declaredHyphens⟩,
        ⟨[], some ⟨some "A", none⟩, referringHyphens⟩] := by
    rw [sites, statements_furtherHyphens]
    simp only [sitesFrom, List.nil_append, List.cons_append, hscope, hscope']
    rfl
  have hsound : Css.firstFault? (nodesOf scss furtherHyphens) = none := by decide +kernel
  have hdeclared : ∀ node ∈ Css.parse (Value.bareText declaredHyphens.value),
      node.leaf?.isSome := by
    decide +kernel
  have hreferring : ∀ node ∈ Css.parse (Value.bareText referringHyphens.value),
      node.leaf?.isSome := by
    decide +kernel
  obtain ⟨found, hfound⟩ : ∃ found, findings scss "a.scss" furtherHyphens = .ok found := by
    rw [findings_eq_ok_iff hsound, hsites]
    exact List.forall_mem_cons.mpr ⟨(Value.calm_of_leaves hdeclared).classify_ok _,
      List.forall_mem_singleton.mpr ((Value.calm_of_leaves hreferring).classify_ok _)⟩
  obtain ⟨recorded, hfirst, hsecond, hresolve, -⟩ := aliases_resolve hmem hfound
  have hdeclaredSite : (⟨[], some ⟨some "A", none⟩, declaredHyphens⟩ : Site) ∈
      (sites scss furtherHyphens).filter (·.scope.isSome) :=
    hsites ▸ List.mem_cons_self
  have hstands := Stands.here [] none
    [.comment "@tokens A".toList 1, .declaration declaredHyphens] [] referringHyphens
  rw [hscope', List.cons_append, List.singleton_append, ← statements_furtherHyphens] at hstands
  obtain ⟨reference, hreference, halias, hof⟩ := hresolve _ _ hstands rfl refers_referringHyphens
  obtain ⟨token, htoken⟩ : ∃ token, (⟨[], some ⟨some "A", none⟩, declaredHyphens⟩, token) ∈
    recorded := by
    have hmem := List.mem_map.mp (hfirst ▸ hdeclaredSite)
    obtain ⟨⟨site, token⟩, htoken, rfl⟩ := hmem
    exact ⟨token, htoken⟩
  exact ⟨hmem, found, token, reference, hfound, hsecond ▸ List.mem_map_of_mem htoken,
    hsecond ▸ List.mem_map_of_mem hreference, halias, hof _ token htoken declares_declaredHyphens⟩

end TokenCatalog.Stylesheet
