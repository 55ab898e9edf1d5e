import Mathlib.Data.List.TakeWhile
import TokenCatalog.Project.Braces
import TokenCatalog.Proofs.Json.Table
import TokenCatalog.Proofs.Text.Pieces

/-!
# Groups in a text

A text is expanded at the first group that holds no other one, and what results is expanded again.
How often that may happen is bounded by the number of opening braces, and the bound is never
reached. Main statements:

* `group?_eq_none_iff`: a group is found exactly if a closing brace follows an opening one;
* `expandBraces_of_some`: the expansion of a text by those of the texts with an alternative in the
  place of its first group;
* `expansion_induction`: induction along the expansion;
* `not_hasGroup_of_mem`: no pattern that a text stands for holds a group.
-/

namespace TokenCatalog.Project

/-! ## The first complete group -/

/-- An opening brace, and a closing one somewhere behind it: an innermost pair of them is a complete
group. -/
def HasGroup (cs : List Char) : Prop :=
  ['\x7b', '\x7d'].Sublist cs

instance (cs : List Char) : Decidable (HasGroup cs) :=
  inferInstanceAs (Decidable (List.Sublist _ _))

def behind (c : Char) (found : List Char × List Char × List Char) :
    List Char × List Char × List Char :=
  (c :: found.1, found.2.1, found.2.2)

theorem group?_cons_of_ne {c : Char} (hc : c ≠ '\x7b') (cs : List Char) :
    group? (c :: cs) = (group? cs).map (behind c) := by
  rw [group?]
  split
  · next hopen _ => exact absurd (beq_iff_eq.mp hopen) hc
  · rfl

/-- An opening brace begins no complete group unless a closing one is the next brace. -/
theorem group?_open {cs : List Char} (h : cs.find? isBrace ≠ some '\x7d') :
    group? ('\x7b' :: cs) = (group? cs).map (behind '\x7b') := by
  rw [group?]
  split
  · next after _ hafter =>
      have htake := List.prefix_iff_eq_take.mp (List.takeWhile_prefix (!isBrace ·) (l := cs))
      have hcs := List.take_append_drop (cs.takeWhile (!isBrace ·)).length cs
      rw [← htake, hafter] at hcs
      refine absurd (List.find?_eq_some_iff_append.mpr ⟨by decide, _, after, hcs.symm, ?_⟩) h
      intro c hc
      have hkept := List.mem_takeWhile_imp (p := (!isBrace ·)) hc
      simpa using hkept
  · rfl

/-- Braces around a text without braces are a complete group. -/
theorem group?_leaf {inner : List Char} (hinner : ∀ c ∈ inner, isBrace c = false)
    (after : List Char) :
    group? ('\x7b' :: (inner ++ '\x7d' :: after)) = some ([], inner, after) := by
  have hkept : ∀ c ∈ inner, (!isBrace c) = true := by simpa using hinner
  have htake : (inner ++ '\x7d' :: after).takeWhile (!isBrace ·) = inner := by
    rw [List.takeWhile_append_of_pos hkept]
    simp [isBrace]
  rw [group?, htake]
  simp

/-- **A text begins with a complete group, or its first one is found behind its first
character.** -/
theorem group?_cons_cases (c : Char) (cs : List Char) :
    (∃ inner after, c = '\x7b' ∧ cs = inner ++ '\x7d' :: after ∧ (∀ d ∈ inner, isBrace d = false) ∧
        group? (c :: cs) = some ([], inner, after)) ∨
      (c = '\x7b' → cs.find? isBrace ≠ some '\x7d') ∧
        group? (c :: cs) = (group? cs).map (behind c) := by
  by_cases hc : c = '\x7b'
  · subst hc
    by_cases hfind : cs.find? isBrace = some '\x7d'
    · obtain ⟨-, inner, after, rfl, hinner⟩ := List.find?_eq_some_iff_append.mp hfind
      have hbraces : ∀ d ∈ inner, isBrace d = false := by simpa using hinner
      exact .inl ⟨inner, after, rfl, rfl, hbraces, group?_leaf hbraces after⟩
    · exact .inr ⟨fun _ => hfind, group?_open hfind⟩
  · exact .inr ⟨fun hopen => absurd hopen hc, group?_cons_of_ne hc cs⟩

/-- What the first complete group consists of. -/
theorem eq_of_group? {cs before inner after : List Char}
    (h : group? cs = some (before, inner, after)) :
    cs = before ++ '\x7b' :: (inner ++ '\x7d' :: after) ∧ ∀ c ∈ inner, isBrace c = false := by
  induction cs generalizing before with
  | nil => cases h
  | cons c cs ih =>
      rcases group?_cons_cases c cs with ⟨inner', after', rfl, rfl, hinner, hleaf⟩ | ⟨-, hnext⟩
      · rw [hleaf] at h
        cases h
        exact ⟨rfl, hinner⟩
      · rw [hnext, Option.map_eq_some_iff] at h
        obtain ⟨⟨before', inner', after'⟩, hfound, hsplit⟩ := h
        cases hsplit
        obtain ⟨rfl, hinner⟩ := ih hfound
        exact ⟨rfl, hinner⟩

/-- A closing brace stands behind another opening one unless it is the first brace. -/
theorem hasGroup_of_mem {cs : List Char} (hclose : '\x7d' ∈ cs)
    (hfirst : cs.find? isBrace ≠ some '\x7d') : HasGroup cs := by
  cases hfind : cs.find? isBrace with
  | none =>
      have hnone := List.find?_eq_none.mp hfind _ hclose
      exact absurd rfl hnone
  | some c =>
      obtain ⟨hbrace, front, back, rfl, hfront⟩ := List.find?_eq_some_iff_append.mp hfind
      have hc : c = '\x7b' ∨ c = '\x7d' := by simpa [isBrace] using hbrace
      rcases hc with rfl | rfl
      · have hback : '\x7d' ∈ back := by
          rcases List.mem_append.mp hclose with hmem | hmem
          · exact absurd (hfront _ hmem) (by decide)
          · simpa using hmem
        refine List.Sublist.trans ?_ (List.sublist_append_right front _)
        exact (List.singleton_sublist.mpr hback).cons_cons _
      · exact absurd hfind hfirst

/-- **No complete group is found exactly if no closing brace follows an opening one.** -/
theorem group?_eq_none_iff {cs : List Char} : group? cs = none ↔ ¬ HasGroup cs := by
  induction cs with
  | nil => simp [group?, HasGroup]
  | cons c cs ih =>
      rcases group?_cons_cases c cs with ⟨inner, after, rfl, rfl, -, hleaf⟩ | ⟨hopen, hnext⟩
      · rw [hleaf]
        simp [HasGroup]
      · rw [hnext, Option.map_eq_none_iff, ih, not_iff_not]
        constructor
        · exact fun h => h.cons c
        · intro h
          rcases List.sublist_cons_iff.mp h with h | ⟨rest, hrest, h⟩
          · exact h
          · obtain ⟨rfl, rfl⟩ := List.cons.inj hrest
            exact hasGroup_of_mem (List.singleton_sublist.mp h) (hopen rfl)

/-! ## Expanding without a bound -/

theorem expandWithin_of_none {cs : List Char} (h : group? cs = none) (fuel : Nat) :
    expandWithin fuel cs = [cs] := by
  cases fuel with
  | zero => rfl
  | succ fuel => rw [expandWithin, h]

theorem expandWithin_of_some {cs before inner after : List Char}
    (h : group? cs = some (before, inner, after)) (fuel : Nat) :
    expandWithin (fuel + 1) cs = ((Text.pieces (· == ',') inner).flatMap fun alternative =>
      expandWithin fuel (before ++ alternative ++ after)).eraseDups := by
  rw [expandWithin, h]

/-- Every alternative uses up an opening brace. -/
theorem count_alternative (before after : List Char) {inner alternative : List Char}
    (hinner : ∀ c ∈ inner, isBrace c = false)
    (halternative : alternative ∈ Text.pieces (· == ',') inner) :
    (before ++ alternative ++ after).count '\x7b' <
      (before ++ '\x7b' :: (inner ++ '\x7d' :: after)).count '\x7b' := by
  have hnone : ∀ cs : List Char, (∀ c ∈ cs, isBrace c = false) → cs.count '\x7b' = 0 := by
    intro cs hcs
    refine List.count_eq_zero.mpr fun hmem => ?_
    cases hcs _ hmem
  have hplain : ∀ c ∈ alternative, isBrace c = false := by
    intro c hc
    have hmem := List.mem_flatten_of_mem halternative hc
    rw [Text.flatten_pieces] at hmem
    exact hinner c (List.mem_of_mem_filter hmem)
  simp [List.count_append, hnone _ hplain, hnone _ hinner]

/-- **The bound is never reached**: more than one expansion for each opening brace changes
nothing. -/
theorem expandWithin_eq {cs : List Char} {fuel fuel' : Nat} (h : cs.count '\x7b' ≤ fuel)
    (h' : cs.count '\x7b' ≤ fuel') : expandWithin fuel cs = expandWithin fuel' cs := by
  induction fuel generalizing cs fuel' with
  | zero =>
      cases hgroup : group? cs with
      | none => rw [expandWithin_of_none hgroup, expandWithin_of_none hgroup]
      | some found =>
          obtain ⟨rfl, -⟩ := eq_of_group? hgroup
          simp [List.count_append] at h
  | succ fuel ih =>
      cases hgroup : group? cs with
      | none => rw [expandWithin_of_none hgroup, expandWithin_of_none hgroup]
      | some found =>
          obtain ⟨before, inner, after⟩ := found
          obtain ⟨hcs, hinner⟩ := eq_of_group? hgroup
          cases fuel' with
          | zero =>
              rw [hcs] at h'
              simp [List.count_append] at h'
          | succ fuel' =>
              rw [expandWithin_of_some hgroup, expandWithin_of_some hgroup]
              refine congrArg List.eraseDups (List.flatMap_congr fun alternative halternative => ?_)
              have hless := count_alternative before after hinner halternative
              rw [← hcs] at hless
              exact ih (by omega) (by omega)

theorem expandBraces_of_none {cs : List Char} (h : group? cs = none) : expandBraces cs = [cs] :=
  expandWithin_of_none h _

/-- **The patterns of a text with a group are those of the texts with an alternative in its
place.** -/
theorem expandBraces_of_some {cs before inner after : List Char}
    (h : group? cs = some (before, inner, after)) :
    expandBraces cs = ((Text.pieces (· == ',') inner).flatMap fun alternative =>
      expandBraces (before ++ alternative ++ after)).eraseDups := by
  obtain ⟨hcs, hinner⟩ := eq_of_group? h
  obtain ⟨fuel, hfuel⟩ : ∃ fuel, cs.count '\x7b' = fuel + 1 := by
    refine Nat.exists_eq_add_one.mpr (List.count_pos_iff.mpr ?_)
    rw [hcs]
    simp
  rw [expandBraces, hfuel, expandWithin_of_some h]
  refine congrArg List.eraseDups (List.flatMap_congr fun alternative halternative => ?_)
  have hless := count_alternative before after hinner halternative
  rw [← hcs, hfuel] at hless
  exact expandWithin_eq (Nat.le_of_lt_succ hless) (Nat.le_refl _)

/-- A property of texts that holds of every text without a group, and of a text with a group if it
holds of the texts with an alternative in the place of its first one, holds of all. -/
theorem expansion_induction {motive : List Char → Prop}
    (none : ∀ cs, group? cs = none → motive cs)
    (some : ∀ cs before inner after, group? cs = some (before, inner, after) →
      (∀ alternative ∈ Text.pieces (· == ',') inner, motive (before ++ alternative ++ after)) →
      motive cs) (cs : List Char) : motive cs := by
  induction hcount : cs.count '\x7b' using Nat.strong_induction_on generalizing cs with
  | _ n ih =>
      cases hgroup : group? cs with
      | none => exact none cs hgroup
      | some found =>
          obtain ⟨before, inner, after⟩ := found
          refine some cs before inner after hgroup fun alternative halternative => ?_
          obtain ⟨hcs, hinner⟩ := eq_of_group? hgroup
          have hless := count_alternative before after hinner halternative
          rw [← hcs, hcount] at hless
          exact ih _ hless _ rfl

theorem nodup_expandBraces (cs : List Char) : (expandBraces cs).Nodup := by
  cases hgroup : group? cs with
  | none =>
      rw [expandBraces_of_none hgroup]
      exact List.nodup_singleton cs
  | some found =>
      obtain ⟨before, inner, after⟩ := found
      rw [expandBraces_of_some hgroup]
      apply nodup_eraseDups

/-- **No pattern that a text stands for holds a group.** -/
theorem not_hasGroup_of_mem {cs s : List Char} (h : s ∈ expandBraces cs) : ¬ HasGroup s := by
  induction cs using expansion_induction with
  | none cs hgroup =>
      rw [expandBraces_of_none hgroup, List.mem_singleton] at h
      rw [h]
      exact group?_eq_none_iff.mp hgroup
  | some cs before inner after hgroup ih =>
      rw [expandBraces_of_some hgroup, List.mem_eraseDups, List.mem_flatMap] at h
      obtain ⟨alternative, halternative, hmem⟩ := h
      exact ih alternative halternative hmem

end TokenCatalog.Project
