import TokenCatalog.Proofs.Css.ColorRange
import TokenCatalog.Proofs.Css.Respaced
import TokenCatalog.Proofs.Css.Row

/-!
# Colour functions in collapsed text

A colour function holds only numbers, percentages and commas, so collapsing its text leaves the
colour as it is. Main statements:

* `Respaced.functionColor?`: blanks and comments do not matter for a colour function;
* `sturdyRow_of_functionColor?`: the arguments of a colour function are sturdy;
* `color?_collapse`: the collapsed text of a colour function is the same colour.
-/

namespace TokenCatalog.Css

open Text (isBlank)

/-! ## Respaced rows -/

/-- The first node of a respaced row, and the others. -/
theorem respaced_cons {x : Node} {xs ys : List Node} (h : Respaced (x :: xs) ys) :
    ∃ y ys', ys = y :: ys' ∧ Respaced [x] [y] ∧ Respaced xs ys' := by
  generalize hrow : x :: xs = row at h
  cases h with
  | nil => cases hrow
  | filler hx hy h =>
      cases hrow
      exact ⟨_, _, rfl, .filler hx hy .nil, h⟩
  | leaf p q leaf h =>
      cases hrow
      exact ⟨_, _, rfl, .leaf p q leaf .nil, h⟩
  | nested p q opener hin h =>
      cases hrow
      exact ⟨_, _, rfl, .nested p q opener hin .nil, h⟩

theorem Respaced.eq_nil {ys : List Node} (h : Respaced [] ys) : ys = [] := by
  cases h
  rfl

theorem isFiller_node (opener : Opener) (p : Position) (content : List Node) :
    (opener.node p content).isFiller = false := by
  cases opener <;> rfl

/-- A leaf that is neither blank nor comment stays. -/
theorem Respaced.leaf_eq {p : Position} {leaf : Leaf} {y : Node} (h : Respaced [.leaf p leaf] [y])
    (hleaf : (Node.leaf p leaf).isFiller = false) : ∃ q, y = .leaf q leaf := by
  generalize hx : [Node.leaf p leaf] = xs at h
  cases h with
  | filler hfiller =>
      cases hx
      cases hleaf.symm.trans hfiller
  | leaf _ q =>
      cases hx
      exact ⟨q, rfl⟩
  | nested _ _ opener => cases opener <;> cases hx

/-- A function stays, with its arguments respaced. -/
theorem Respaced.function_eq {p : Position} {name : List Char} {arguments : List Node} {y : Node}
    (h : Respaced [.function p name arguments] [y]) :
    ∃ q arguments', y = .function q name arguments' ∧ Respaced arguments arguments' := by
  generalize hx : [Node.function p name arguments] = xs at h
  cases h with
  | filler hfiller =>
      cases hx
      cases hfiller
  | leaf => cases hx
  | nested _ q opener hin =>
      cases opener with
      | function name =>
          cases hx
          exact ⟨q, _, rfl, hin⟩
      | block bracket => cases hx

/-- What looks neither at positions nor into blanks and comments is the same for two nodes that are
respaced. -/
theorem Respaced.apply {α : Type} {f : Node → α} {a : α}
    (blank : ∀ p text, f (.leaf p (.whitespace text)) = a)
    (comment : ∀ p text, f (.leaf p (.comment text)) = a)
    (leaf : ∀ p q l, f (.leaf p l) = f (.leaf q l))
    (nested : ∀ p q (opener : Opener) {content content' : List Node}, Respaced content content' →
      f (opener.node p content) = f (opener.node q content'))
    {x y : Node} (h : Respaced [x] [y]) : f x = f y := by
  have hfiller : ∀ {node : Node}, node.isFiller = true → f node = a := by
    intro node hnode
    unfold Node.isFiller at hnode
    split at hnode
    · exact blank _ _
    · exact comment _ _
    · cases hnode
  cases h with
  | filler hx hy => rw [hfiller hx, hfiller hy]
  | leaf p q l => exact leaf p q l
  | nested p q opener hin => exact nested p q opener hin

theorem Respaced.isLiteral {x y : Node} (h : Respaced [x] [y]) (text : List Char) :
    x.isLiteral text = y.isLiteral text := by
  refine h.apply (f := fun node => node.isLiteral text) (fun _ _ => rfl) (fun _ _ => rfl)
    (fun _ _ _ => rfl) fun _ _ opener _ _ _ => ?_
  cases opener <;> rfl

theorem Respaced.isFiller {x y : Node} (h : Respaced [x] [y]) : x.isFiller = y.isFiller := by
  refine h.apply (f := Node.isFiller) (fun _ _ => rfl) (fun _ _ => rfl) (fun _ _ l => ?_)
    fun p q opener _ _ _ => ?_
  · cases l <;> rfl
  · rw [isFiller_node, isFiller_node]

/-- Two rows that are respaced are so node by node. -/
theorem Respaced.nodewise {motive : ∀ xs ys, Respaced xs ys → Prop} (nil : motive [] [] .nil)
    (cons : ∀ {x y xs ys} (here : Respaced [x] [y]) (later : Respaced xs ys), motive xs ys later →
      motive (x :: xs) (y :: ys) (here.append later)) {xs ys : List Node} (h : Respaced xs ys) :
    motive xs ys h := by
  induction xs generalizing ys with
  | nil =>
      obtain rfl := h.eq_nil
      exact nil
  | cons x xs ih =>
      obtain ⟨y, ys, rfl, here, later⟩ := respaced_cons h
      exact cons here later (ih later)

theorem Respaced.filter {p : Node → Bool} (hp : ∀ {x y}, Respaced [x] [y] → p x = p y)
    {xs ys : List Node} (h : Respaced xs ys) : Respaced (xs.filter p) (ys.filter p) := by
  induction h using Respaced.nodewise with
  | nil => exact .nil
  | cons here later ih =>
      rw [List.filter_cons, List.filter_cons, hp here]
      split
      · exact here.append ih
      · exact ih

theorem Respaced.significant {xs ys : List Node} (h : Respaced xs ys) :
    Respaced (significant xs) (significant ys) :=
  h.filter fun hhere => congrArg (!·) hhere.isFiller

theorem Respaced.take {xs ys : List Node} (h : Respaced xs ys) (n : Nat) :
    Respaced (xs.take n) (ys.take n) := by
  induction n generalizing xs ys with
  | zero => exact .nil
  | succ n ih =>
      cases xs with
      | nil =>
          rw [h.eq_nil]
          exact .nil
      | cons x xs =>
          obtain ⟨y, ys, rfl, hhere, hlater⟩ := respaced_cons h
          exact hhere.append (ih hlater)

theorem Respaced.drop {xs ys : List Node} (h : Respaced xs ys) (n : Nat) :
    Respaced (xs.drop n) (ys.drop n) := by
  induction n generalizing xs ys with
  | zero => exact h
  | succ n ih =>
      cases xs with
      | nil =>
          rw [h.eq_nil]
          exact .nil
      | cons x xs =>
          obtain ⟨y, ys, rfl, -, hlater⟩ := respaced_cons h
          exact ih hlater

theorem Respaced.commaSeparated {xs ys args : List Node} (h : Respaced xs ys)
    (hargs : commaSeparated xs = some args) :
    ∃ args', commaSeparated ys = some args' ∧ Respaced args args' := by
  induction xs using commaSeparated.induct generalizing ys args with
  | case1 => cases hargs
  | case2 x =>
      cases hargs
      obtain ⟨y, ys, rfl, hhere, hlater⟩ := respaced_cons h
      rw [hlater.eq_nil]
      exact ⟨[y], rfl, hhere⟩
  | case3 x comma xs hcomma ih =>
      rw [Css.commaSeparated, if_pos hcomma] at hargs
      obtain ⟨rest, hrest, rfl⟩ := Option.map_eq_some_iff.mp hargs
      obtain ⟨y, ys, rfl, hhere, hlater⟩ := respaced_cons h
      obtain ⟨comma', ys, rfl, hsame, hlater⟩ := respaced_cons hlater
      obtain ⟨rest', hrest', hrespaced⟩ := ih hlater hrest
      rw [hsame.isLiteral] at hcomma
      refine ⟨y :: rest', ?_, hhere.append hrespaced⟩
      rw [Css.commaSeparated, if_pos hcomma, hrest']
      rfl
  | case4 x comma xs hcomma =>
      rw [Css.commaSeparated, if_neg hcomma] at hargs
      cases hargs

/-! ## Colours -/

/-- Three leaves that are neither blanks nor comments stay. -/
theorem Respaced.three {p q o : Position} {a b c : Leaf} {ys : List Node}
    (h : Respaced [.leaf p a, .leaf q b, .leaf o c] ys)
    (hleaves : ∀ node ∈ [Node.leaf p a, .leaf q b, .leaf o c], node.isFiller = false) :
    ∃ p' q' o', ys = [.leaf p' a, .leaf q' b, .leaf o' c] := by
  obtain ⟨x, ys, rfl, hx, hyz⟩ := respaced_cons h
  obtain ⟨y, ys, rfl, hy, hz⟩ := respaced_cons hyz
  obtain ⟨z, ys, rfl, hz, hnone⟩ := respaced_cons hz
  obtain ⟨p', rfl⟩ := hx.leaf_eq (hleaves _ (by simp))
  obtain ⟨q', rfl⟩ := hy.leaf_eq (hleaves _ (by simp))
  obtain ⟨o', rfl⟩ := hz.leaf_eq (hleaves _ (by simp))
  rw [hnone.eq_nil]
  exact ⟨p', q', o', rfl⟩

def fourthAlpha? (args : List Node) : Option Binary64 :=
  match args.drop 3 with
  | [node] => alphaOf? node
  | _ => none

section

variable {xs ys : List Node} {alpha : Binary64} (h : Respaced xs ys)

include h

theorem Respaced.commaSeparated_eq_none (hargs : Css.commaSeparated xs = none) :
    Css.commaSeparated ys = none := by
  refine Option.eq_none_iff_forall_ne_some.mpr fun args hsome => ?_
  obtain ⟨args', hargs', -⟩ := h.symm.commaSeparated hsome
  cases hargs.symm.trans hargs'

theorem Respaced.rgbColor? : rgbColor? alpha xs = rgbColor? alpha ys := by
  unfold Css.rgbColor?
  split
  · obtain ⟨p, q, o, rfl⟩ := h.three (by simp [Node.isFiller])
    rfl
  · obtain ⟨p, q, o, rfl⟩ := h.three (by simp [Node.isFiller])
    rfl
  · next hnumbers hpercentages =>
      split
      · obtain ⟨p, q, o, rfl⟩ := h.symm.three (by simp [Node.isFiller])
        exact (hnumbers _ _ _ _ _ _ rfl).elim
      · obtain ⟨p, q, o, rfl⟩ := h.symm.three (by simp [Node.isFiller])
        exact (hpercentages _ _ _ _ _ _ rfl).elim
      · rfl

theorem Respaced.hslColor?_some {color : Color} (hcolor : hslColor? alpha xs = some color) :
    hslColor? alpha ys = some color := by
  unfold Css.hslColor? at hcolor
  split at hcolor
  · obtain ⟨p, q, o, rfl⟩ := h.three (by simp [Node.isFiller])
    exact hcolor
  · cases hcolor

theorem Respaced.fourthAlpha?_some (halpha : fourthAlpha? xs = some alpha) :
    fourthAlpha? ys = some alpha := by
  unfold Css.fourthAlpha? at halpha
  split at halpha
  · next node hnode =>
      have hrest := h.drop 3
      rw [hnode] at hrest
      obtain ⟨y, rest, hys, hhere, hlater⟩ := respaced_cons hrest
      rw [hlater.eq_nil] at hys
      unfold alphaOf? at halpha
      split at halpha
      · obtain ⟨q, rfl⟩ := hhere.leaf_eq rfl
        unfold Css.fourthAlpha?
        rw [hys]
        exact halpha
      · cases halpha
  · cases halpha

end

section

variable {xs ys : List Node} (h : Respaced xs ys)

include h

theorem Respaced.hslColor? (alpha : Binary64) : hslColor? alpha xs = hslColor? alpha ys :=
  Option.ext fun _ => ⟨h.hslColor?_some, h.symm.hslColor?_some⟩

theorem Respaced.fourthAlpha? : fourthAlpha? xs = fourthAlpha? ys :=
  Option.ext fun _ => ⟨h.fourthAlpha?_some, h.symm.fourthAlpha?_some⟩

end

theorem functionColor?_eq (name : List Char) (arguments : List Node) :
    functionColor? name arguments =
      match commaSeparated (significant arguments) with
      | none => .ok none
      | some args =>
        if Text.asciiLower name = "rgb".toList then rgbColor? .one args
        else if Text.asciiLower name = "rgba".toList then
          match fourthAlpha? args with
          | some alpha => rgbColor? alpha (args.take 3)
          | none => .ok none
        else if Text.asciiLower name = "hsl".toList then .ok (hslColor? .one args)
        else if Text.asciiLower name = "hsla".toList then
          .ok ((fourthAlpha? args).bind fun alpha => hslColor? alpha (args.take 3))
        else .ok none :=
  rfl

/-- **Blanks and comments do not matter for a colour function.** -/
theorem Respaced.functionColor? {xs ys : List Node} (h : Respaced xs ys) (name : List Char) :
    functionColor? name xs = functionColor? name ys := by
  rw [functionColor?_eq, functionColor?_eq]
  cases hargs : Css.commaSeparated (Css.significant xs) with
  | none => rw [h.significant.commaSeparated_eq_none hargs]
  | some args =>
      obtain ⟨args', hargs', hrow⟩ := h.significant.commaSeparated hargs
      have hfirst := hrow.take 3
      simp only [hargs', hrow.rgbColor?, hrow.fourthAlpha?, hfirst.rgbColor?, hrow.hslColor?,
        hfirst.hslColor?]

/-! ## The arguments of a colour function -/

def Node.isQuantity : Node → Bool
  | .leaf _ l => l.isQuantity
  | _ => false

theorem quantities_of_rgbColor? {alpha : Binary64} {args : List Node}
    (h : rgbColor? alpha args ≠ .ok none) : ∀ node ∈ args, node.isQuantity = true := by
  unfold rgbColor? at h
  split at h
  · simp [Node.isQuantity, Leaf.isQuantity]
  · simp [Node.isQuantity, Leaf.isQuantity]
  · exact absurd rfl h

theorem quantities_of_hslColor? {alpha : Binary64} {args : List Node}
    (h : hslColor? alpha args ≠ none) : ∀ node ∈ args, node.isQuantity = true := by
  unfold hslColor? at h
  split at h
  · simp [Node.isQuantity, Leaf.isQuantity]
  · exact absurd rfl h

theorem quantities_of_fourthAlpha? {alpha : Binary64} {args : List Node}
    (h : fourthAlpha? args = some alpha) (hfirst : ∀ node ∈ args.take 3, node.isQuantity = true) :
    ∀ node ∈ args, node.isQuantity = true := by
  unfold fourthAlpha? at h
  split at h
  · next node hnode =>
      unfold alphaOf? at h
      split at h
      · rw [← List.take_append_drop 3 args, hnode]
        simpa [or_imp, forall_and, Node.isQuantity, Leaf.isQuantity] using hfirst
      · cases h
  · cases h

/-- The arguments of a colour function between its commas are numbers and percentages. -/
theorem quantities_of_functionColor? {name : List Char} {arguments : List Node}
    (h : functionColor? name arguments ≠ .ok none) :
    ∃ args, commaSeparated (significant arguments) = some args ∧
      ∀ node ∈ args, node.isQuantity = true := by
  have hsome : ∀ {color? : Option Color}, (.ok color? : Except ColorFault (Option Color)) ≠
      .ok none →
      color? ≠ none := fun hne hnone => hne (congrArg Except.ok hnone)
  rw [functionColor?_eq] at h
  cases hargs : commaSeparated (significant arguments) with
  | none =>
      rw [hargs] at h
      exact absurd rfl h
  | some args =>
      refine ⟨args, rfl, ?_⟩
      rw [hargs] at h
      dsimp only at h
      split at h
      · exact quantities_of_rgbColor? h
      · split at h
        · split at h
          · next alpha halpha => exact quantities_of_fourthAlpha? halpha (quantities_of_rgbColor? h)
          · exact absurd rfl h
        · split at h
          · exact quantities_of_hslColor? (hsome h)
          · split at h
            · obtain ⟨color, hcolor⟩ := Option.ne_none_iff_exists'.mp (hsome h)
              obtain ⟨alpha, halpha, hfound⟩ := Option.bind_eq_some_iff.mp hcolor
              refine quantities_of_fourthAlpha? halpha (@quantities_of_hslColor? alpha _ ?_)
              rw [hfound]
              exact Option.some_ne_none color
            · exact absurd rfl h

/-- Every node between commas is an argument or a comma. -/
theorem mem_of_commaSeparated {nodes args : List Node} (h : commaSeparated nodes = some args)
    {node : Node} (hnode : node ∈ nodes) : node ∈ args ∨ node.isLiteral [','] = true := by
  induction nodes using commaSeparated.induct generalizing args with
  | case1 => cases h
  | case2 first =>
      cases h
      exact .inl hnode
  | case3 first comma nodes hcomma ih =>
      rw [commaSeparated, if_pos hcomma] at h
      obtain ⟨rest, hrest, rfl⟩ := Option.map_eq_some_iff.mp h
      rcases List.mem_cons.mp hnode with rfl | hnode
      · exact .inl List.mem_cons_self
      · rcases List.mem_cons.mp hnode with rfl | hnode
        · exact .inr hcomma
        · exact (ih hrest hnode).imp (List.mem_cons_of_mem _) id
  | case4 first comma nodes hcomma =>
      rw [commaSeparated, if_neg hcomma] at h
      cases h

/-- Blanks and comments are sturdy. -/
theorem sturdyRow_cons_filler {node : Node} {nodes : List Node} (hnode : node.isFiller = true)
    (h : SturdyRow nodes) : SturdyRow (node :: nodes) := by
  unfold Node.isFiller at hnode
  split at hnode
  · exact .leaf _ rfl h
  · exact .leaf _ rfl h
  · cases hnode

/-- A row is sturdy if it is without its blanks and comments. -/
theorem sturdyRow_of_significant {nodes : List Node} (h : SturdyRow (significant nodes)) :
    SturdyRow nodes := by
  induction nodes with
  | nil => exact .nil
  | cons node nodes ih =>
      rw [significant] at h
      cases hnode : node.isFiller with
      | true =>
          rw [List.filter_cons_of_neg (by rw [hnode]; decide)] at h
          exact sturdyRow_cons_filler hnode (ih h)
      | false =>
          rw [List.filter_cons_of_pos (by rw [hnode]; rfl)] at h
          cases h with
          | leaf p hleaf h => exact .leaf p hleaf (ih h)
          | function p hname hurl hin h => exact .function p hname hurl hin (ih h)

theorem sturdyRow_of_forall {nodes : List Node}
    (h : ∀ node ∈ nodes, node.isQuantity = true ∨ node.isLiteral [','] = true) :
    SturdyRow nodes := by
  induction nodes with
  | nil => exact .nil
  | cons node nodes ih =>
      rw [List.forall_mem_cons] at h
      cases node with
      | leaf p leaf =>
          refine .leaf p ?_ (ih h.2)
          rcases h.1 with hquantity | hcomma
          · cases leaf <;> first | rfl | cases hquantity
          · rw [Node.isLiteral, decide_eq_true_eq] at hcomma
            cases hcomma
            rfl
      | function p name arguments =>
          rcases h.1 with hquantity | hcomma
          · cases hquantity
          · cases hcomma
      | block p bracket content =>
          rcases h.1 with hquantity | hcomma
          · cases hquantity
          · cases hcomma

/-- A colour function holds numbers, percentages and commas. -/
theorem arguments_of_functionColor? {name : List Char} {arguments : List Node}
    (h : functionColor? name arguments ≠ .ok none) :
    ∀ node ∈ significant arguments, node.isQuantity = true ∨ node.isLiteral [','] = true := by
  obtain ⟨args, hargs, hquantities⟩ := quantities_of_functionColor? h
  exact fun node hnode => (mem_of_commaSeparated hargs hnode).imp (hquantities node) id

/-- A colour function has the name of one, in any letter case. -/
theorem name_of_functionColor? {name : List Char} {arguments : List Node}
    (h : functionColor? name arguments ≠ .ok none) :
    ∃ f ∈ colorFunctions, Text.asciiLower name = f.toList := by
  refine Decidable.byContradiction fun hnone => ?_
  push Not at hnone
  exact h (functionColor?_eq_none hnone)

/-- **A colour function is sturdy**, with its name and its arguments. -/
theorem sturdyRow_of_functionColor? {p : Position} {name : List Char} {arguments : List Node}
    (h : functionColor? name arguments ≠ .ok none) : SturdyRow [.function p name arguments] := by
  have hletters : ∀ f ∈ colorFunctions, f.toList ≠ "url".toList ∧ f.toList.any isBlank = false := by
    decide
  obtain ⟨f, hf, hname⟩ := name_of_functionColor? h
  refine .function p (fun c hc => Bool.eq_false_iff.mpr fun hblank => ?_) ?_
    (sturdyRow_of_significant (sturdyRow_of_forall (arguments_of_functionColor? h))) .nil
  -- a blank has no other letter case, so it would be in the name of the function
  · have hlower : c.toLower = c := Text.toLower_of_isBlank hblank
    have hmem : c.toLower ∈ Text.asciiLower name := List.mem_map_of_mem hc
    rw [hname, hlower] at hmem
    exact List.any_eq_false.mp (hletters f hf).2 c hmem hblank
  · rw [hname]
    exact (hletters f hf).1

/-! ## The text of a colour function -/

/-- **The collapsed text of a colour function is the same colour.** -/
theorem color?_collapse {cs : List Char} (htrimmed : Text.strip cs = cs) {p : Position}
    {name : List Char} {arguments : List Node} {color : Color}
    (hone : parseOne? cs = some (.function p name arguments))
    (hcolor : functionColor? name arguments = .ok (some color)) :
    color? (Text.collapse cs) = .ok (some color) := by
  have hsignificant := significant_eq_of_parseOne? hone
  have hrow : SturdyRow (parse cs) := by
    refine sturdyRow_of_significant ?_
    rw [hsignificant]
    refine sturdyRow_of_functionColor? ?_
    rw [hcolor]
    exact fun h => nomatch h
  have hrespaced := (parse_collapse htrimmed hrow).significant
  rw [hsignificant] at hrespaced
  obtain ⟨node, rest, hnode, hhere, hlater⟩ := respaced_cons hrespaced
  rw [hlater.eq_nil] at hnode
  obtain ⟨q, arguments', rfl, hinside⟩ := hhere.function_eq
  rw [color?, parseOne?, hnode]
  exact (hinside.functionColor? name).symm.trans hcolor

end TokenCatalog.Css
