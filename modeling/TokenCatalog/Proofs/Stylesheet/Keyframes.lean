import Mathlib.Data.List.Infix
import TokenCatalog.Proofs.Stylesheet.Holds
import TokenCatalog.Proofs.Stylesheet.LexicalScope
import TokenCatalog.Proofs.Text.Search

/-!
# Keyframes of a stylesheet

The walk meets rules in the course of other things and stops at keyframes rules. What it collects
can be said without it: of all rules of the stylesheet, listed in document order with the rules
around them, those keyframes rules that are inside no other. Main statements:

* `isKeyframes_iff`: which rules are keyframes rules, by the name of their at-keyword;
* `rulesFrom`: the rules of a block at any depth, in document order;
* `walk_keyframes`: the walk collects each outermost keyframes rule once, in that order;
* `keyframes_of_findings`: so does the reading of a whole stylesheet;
* `RuleSite.text_trimmed`: what is collected is trimmed and never empty.
-/

namespace TokenCatalog.Stylesheet

open TokenCatalog.Css (Node significant)

/-! ## Names -/

/-- What a browser's maker may put before the name of a rule: letters between hyphens, or
nothing. -/
def IsVendor (cs : List Char) : Prop :=
  cs = [] ∨ ∃ letters, letters ≠ [] ∧ (∀ c ∈ letters, c.isLower = true) ∧
    cs = '-' :: letters ++ ['-']

/-- A name in lower case is that of keyframes, behind a vendor or not. A line feed, which takes an
escape, may end the name. -/
def NamesKeyframes (name : List Char) : Prop :=
  ∃ vendor last, IsVendor vendor ∧ (last = [] ∨ last = ['\n']) ∧
    name = vendor ++ "keyframes".toList ++ last

theorem takeWhile_vendor {letters : List Char} (h : ∀ c ∈ letters, c.isLower = true)
    (rest : List Char) : (letters ++ '-' :: rest).takeWhile Char.isLower = letters := by
  rw [List.takeWhile_append_of_pos h]
  simp

theorem exists_vendor_iff {name : List Char} :
    isKeyframesName name = true ↔
      ∃ vendor, IsVendor vendor ∧ Css.dropFinalNewline name = vendor ++ "keyframes".toList := by
  unfold isKeyframesName
  generalize Css.dropFinalNewline name = bare
  dsimp only
  rw [Bool.or_eq_true, beq_iff_eq]
  constructor
  · rintro (rfl | h)
    · exact ⟨[], .inl rfl, rfl⟩
    · split at h
      · next rest =>
          simp only [Bool.and_eq_true, Bool.not_eq_true', List.isEmpty_eq_false_iff,
            beq_iff_eq] at h
          obtain ⟨hne, hdrop⟩ := h
          obtain ⟨tail, htail⟩ := List.takeWhile_prefix (l := rest) Char.isLower
          generalize hletters : rest.takeWhile Char.isLower = letters at hne hdrop htail
          have hall : ∀ c ∈ letters, c.isLower = true := by
            rintro c hc
            rw [← hletters] at hc
            exact List.mem_takeWhile_imp hc
          rw [← htail, List.drop_left] at hdrop
          refine ⟨'-' :: letters ++ ['-'], .inr ⟨letters, hne, hall, rfl⟩, ?_⟩
          rw [← htail, hdrop]
          simp
      · cases h
  · rintro ⟨vendor, rfl | ⟨letters, hne, hletters, rfl⟩, rfl⟩
    · exact .inl rfl
    · right
      simp [takeWhile_vendor hletters, hne]

theorem dropFinalNewline_eq_iff {name bare : List Char} (h : bare.getLast? ≠ some '\n') :
    Css.dropFinalNewline name = bare ↔ name = bare ∨ name = bare ++ ['\n'] := by
  unfold Css.dropFinalNewline
  constructor
  · intro hname
    split at hname
    · next hlast =>
        obtain ⟨front, rfl⟩ := List.getLast?_eq_some_iff.mp hlast
        rw [List.dropLast_concat] at hname
        exact .inr (by rw [hname])
    · exact .inl hname
  · rintro (rfl | rfl)
    · rw [if_neg h]
    · rw [if_pos List.getLast?_concat, List.dropLast_concat]

theorem isKeyframesName_iff {name : List Char} :
    isKeyframesName name = true ↔ NamesKeyframes name := by
  have hlast : ∀ vendor : List Char, (vendor ++ "keyframes".toList).getLast? ≠ some '\n' := by
    intro vendor
    simp [List.getLast?_append]
  rw [exists_vendor_iff]
  constructor
  · rintro ⟨vendor, hvendor, hname⟩
    rcases (dropFinalNewline_eq_iff (hlast vendor)).mp hname with rfl | rfl
    · exact ⟨vendor, [], hvendor, .inl rfl, (List.append_nil _).symm⟩
    · exact ⟨vendor, ['\n'], hvendor, .inr rfl, rfl⟩
  · rintro ⟨vendor, last, hvendor, rfl | rfl, rfl⟩
    · exact ⟨vendor, hvendor, (dropFinalNewline_eq_iff (hlast vendor)).mpr
        (.inl (List.append_nil _))⟩
    · exact ⟨vendor, hvendor, (dropFinalNewline_eq_iff (hlast vendor)).mpr (.inr rfl)⟩

/-- **A rule is a keyframes rule by its name alone**: its head begins with an at-keyword, blanks and
comments aside, whose name in any letter case is that of keyframes. -/
theorem isKeyframes_iff {head : List Node} :
    isKeyframes head = true ↔
      ∃ p name rest, significant head = .leaf p (.atKeyword name) :: rest ∧
        NamesKeyframes (Text.asciiLower name) := by
  unfold isKeyframes
  constructor
  · intro h
    split at h
    · next p name rest hhead => exact ⟨p, name, rest, hhead, isKeyframesName_iff.mp h⟩
    · cases h
  · rintro ⟨p, name, rest, hhead, hname⟩
    rw [hhead]
    exact isKeyframesName_iff.mpr hname

example : isKeyframesName "-moz-keyframes\n".toList = true := by decide

/-! ## Rules in document order -/

/-- A rule of a stylesheet, with the heads of the rules around it, outermost first. -/
structure RuleSite where
  around : List (List Node)
  head : List Node
  body : List Node

def RuleSite.isOutermost (r : RuleSite) : Bool :=
  isKeyframes r.head && !r.around.any isKeyframes

/-- A rule as written. -/
def RuleSite.text (r : RuleSite) : List Char :=
  ruleText r.head r.body

/-- A rule is written with its braces, so nothing but blanks is trimmed off. -/
theorem RuleSite.text_trimmed (r : RuleSite) : r.text ≠ [] ∧ Text.strip r.text = r.text := by
  refine ⟨List.ne_nil_of_mem (a := '\x7b') (Text.mem_strip ?_ (by decide)), Text.strip_strip _⟩
  simp

/-- The rules of a block at any depth, in document order: a rule comes before those inside it, and
those before what follows it. -/
def rulesFrom (around : List (List Node)) : List Statement → List RuleSite
  | [] => []
  | .comment _ _ :: rest => rulesFrom around rest
  | .declaration _ :: rest => rulesFrom around rest
  | .rule head body inner :: rest =>
    ⟨around, head, body⟩ :: (rulesFrom (around ++ [head]) inner ++ rulesFrom around rest)

/-- The keyframes rules of a block that are inside no other, in document order. -/
def keyframesRules (around : List (List Node)) (block : List Statement) : List RuleSite :=
  (rulesFrom around block).filter RuleSite.isOutermost

theorem around_isPrefix {around : List (List Node)} {block : List Statement} {r : RuleSite}
    (h : r ∈ rulesFrom around block) : around <+: r.around := by
  induction around, block using rulesFrom.induct with
  | case1 around =>
      rw [rulesFrom] at h
      cases h
  | case2 around text line rest ih =>
      rw [rulesFrom] at h
      exact ih h
  | case3 around d rest ih =>
      rw [rulesFrom] at h
      exact ih h
  | case4 around head body inner rest ihinner ih =>
      rw [rulesFrom, List.mem_cons, List.mem_append] at h
      rcases h with rfl | hinner | hrest
      · exact List.prefix_rfl
      · exact (List.prefix_append around [head]).trans (ihinner hinner)
      · exact ih hrest

theorem holds_of_mem_rulesFrom {around : List (List Node)} {block : List Statement} {r : RuleSite}
    (h : r ∈ rulesFrom around block) : ∃ inner, Holds (.rule r.head r.body inner) block := by
  induction around, block using rulesFrom.induct with
  | case1 around =>
      rw [rulesFrom] at h
      cases h
  | case2 around text line rest ih =>
      rw [rulesFrom] at h
      obtain ⟨inner, hinner⟩ := ih h
      exact ⟨inner, holds_cons.mpr (.inr hinner)⟩
  | case3 around d rest ih =>
      rw [rulesFrom] at h
      obtain ⟨inner, hinner⟩ := ih h
      exact ⟨inner, holds_cons.mpr (.inr hinner)⟩
  | case4 around head body inner rest ihinner ih =>
      rw [rulesFrom, List.mem_cons, List.mem_append] at h
      rcases h with rfl | hinside | hrest
      · exact ⟨inner, .here List.mem_cons_self⟩
      · obtain ⟨deeper, hdeeper⟩ := ihinner hinside
        exact ⟨deeper, .inside List.mem_cons_self hdeeper⟩
      · obtain ⟨later, hlater⟩ := ih hrest
        exact ⟨later, holds_cons.mpr (.inr hlater)⟩

/-- Nothing inside a keyframes rule is outermost. -/
theorem keyframesRules_inside {around : List (List Node)} (h : around.any isKeyframes = true)
    (block : List Statement) : keyframesRules around block = [] := by
  refine List.filter_eq_nil_iff.mpr ?_
  intro r hr
  obtain ⟨more, hmore⟩ := around_isPrefix hr
  simp [RuleSite.isOutermost, ← hmore, h]

/-! ## The walk -/

def collected (dialect : Dialect) (rules : List RuleSite) : List (List Char) :=
  if dialect.collectsKeyframes then rules.map RuleSite.text else []

theorem collected_append (dialect : Dialect) (xs ys : List RuleSite) :
    collected dialect (xs ++ ys) = collected dialect xs ++ collected dialect ys := by
  unfold collected
  split
  · exact List.map_append
  · rfl

theorem Walk.declaration_keyframes {w next : Walk} {place : Place} {d : Declaration}
    {found : Findings} (h : w.declaration place d = .ok (found, next)) : found.keyframes = [] := by
  unfold Walk.declaration at h
  split at h
  · cases h
    rfl
  · split at h
    · obtain ⟨token, -, h⟩ := exists_of_bind_eq_ok h
      cases h
      rfl
    · obtain ⟨literals, -, h⟩ := exists_of_bind_eq_ok h
      cases h
      rfl

theorem Findings.keyframes_append (a b : Findings) :
    (a ++ b).keyframes = a.keyframes ++ b.keyframes :=
  rfl

/-- **The walk collects the outermost keyframes rules**, each once and in document order. It does
not enter them, and what it knows of scopes has no part in this. -/
theorem walk_keyframes {place : Place} {outer : Option Scope} {w : Walk} {block : List Statement}
    {found : Findings} (h : walk place outer w block = .ok found) {around : List (List Node)}
    (haround : around.any isKeyframes = false) :
    found.keyframes = collected place.dialect (keyframesRules around block) := by
  induction place, outer, w, block using walk.induct generalizing found around with
  | case1 place outer w =>
      rw [walk] at h
      cases h
      simp [keyframesRules, rulesFrom, collected]
  | case2 place outer w text line rest ih =>
      rw [walk] at h
      rw [keyframesRules, rulesFrom]
      exact ih h haround
  | case3 place outer w d rest ih =>
      rw [walk] at h
      obtain ⟨⟨here, next⟩, hhere, h⟩ := exists_of_bind_eq_ok h
      obtain ⟨after, hafter, h⟩ := exists_of_bind_eq_ok h
      cases h
      rw [Findings.keyframes_append, Findings.keyframes_append, Walk.declaration_keyframes hhere,
        ih next hafter haround, keyframesRules, keyframesRules, rulesFrom]
      rfl
  | case4 place outer w head body inner rest hkey ih =>
      rw [walk, if_pos hkey] at h
      obtain ⟨here, hhere, h⟩ := exists_of_bind_eq_ok h
      obtain ⟨after, hafter, h⟩ := exists_of_bind_eq_ok h
      cases hhere
      cases h
      -- the rule is outermost, and nothing inside it is
      have hself : RuleSite.isOutermost ⟨around, head, body⟩ = true := by
        simp [RuleSite.isOutermost, hkey, haround]
      have hinside : keyframesRules (around ++ [head]) inner = [] :=
        keyframesRules_inside (by simp [hkey]) inner
      have hrules : keyframesRules around (.rule head body inner :: rest) =
          [⟨around, head, body⟩] ++ keyframesRules around rest := by
        rw [keyframesRules] at hinside
        rw [keyframesRules, rulesFrom, List.filter_cons_of_pos hself, List.filter_append, hinside]
        rfl
      rw [Findings.keyframes_append, Findings.keyframes_append, ih hafter haround, hrules,
        collected_append]
      rfl
  | case5 place outer w head body inner rest scope hkey ih =>
      rename_i ihinner
      rw [walk, if_neg hkey] at h
      obtain ⟨here, hhere, h⟩ := exists_of_bind_eq_ok h
      obtain ⟨after, hafter, h⟩ := exists_of_bind_eq_ok h
      cases h
      have hself : ¬ RuleSite.isOutermost ⟨around, head, body⟩ = true := by
        simp [RuleSite.isOutermost, hkey]
      have hinner : (around ++ [head]).any isKeyframes = false := by
        simp [haround, hkey]
      have hrules : keyframesRules around (.rule head body inner :: rest) =
          keyframesRules (around ++ [head]) inner ++ keyframesRules around rest := by
        rw [keyframesRules, rulesFrom, List.filter_cons_of_neg hself, List.filter_append]
        rfl
      rw [Findings.keyframes_append, Findings.keyframes_append, ih hafter haround,
        ihinner hhere hinner, hrules, collected_append]
      rfl

/-- The keyframes of a stylesheet that can be read. -/
theorem keyframes_of_findings {dialect : Dialect} {filename : String} {text : List Char}
    {found : Findings} (hsound : Css.firstFault? (nodesOf dialect text) = none)
    (h : findings dialect filename text = .ok found) :
    found.keyframes =
      collected dialect (keyframesRules [] (statements dialect (nodesOf dialect text))) := by
  rw [findings_eq_walk filename hsound] at h
  exact walk_keyframes (eq_ok_of_mapError h) rfl

end TokenCatalog.Stylesheet
