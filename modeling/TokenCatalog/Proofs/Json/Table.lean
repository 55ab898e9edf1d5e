import Mathlib.Data.List.Induction
import Mathlib.Data.List.Nodup
import TokenCatalog.Json.Basic

/-!
# Ordered tables

A table is built by inserting entries one after the other. Two keys name the same member when a
function `name` gives the same for both. Main statements:

* `tableOf_names` and `tableOf_last`: the table of entries has each of their names once, in the
  order in which the names first appear, with the value of the last entry of that name;
* `tableOf_eq_self`: entries of pairwise distinct names are their own table.
-/

namespace TokenCatalog

theorem Key.same_eq (a b : Key) : a.same b = decide (a.canonical = b.canonical) :=
  rfl

variable {α β γ κ : Type} [DecidableEq κ]

/-! ## The last of a name -/

def lastBy (name : γ → κ) (k : κ) (xs : List γ) : Option γ :=
  xs.findRev? (name · = k)

theorem lastBy_append (name : γ → κ) (k : κ) (xs ys : List γ) :
    lastBy name k (xs ++ ys) = (lastBy name k ys <|> lastBy name k xs) := by
  simp [lastBy]

theorem lastBy_concat (name : γ → κ) (k : κ) (xs : List γ) (x : γ) :
    lastBy name k (xs ++ [x]) = if name x = k then some x else lastBy name k xs := by
  rw [lastBy_append]
  by_cases h : name x = k <;> simp [lastBy, h]

theorem lastBy_eq_none_iff {name : γ → κ} {k : κ} {xs : List γ} :
    lastBy name k xs = none ↔ k ∉ xs.map name := by
  simp [lastBy]

/-- The last element of a name is followed by elements of other names only. -/
theorem lastBy_eq_some_iff {name : γ → κ} {k : κ} {xs : List γ} {x : γ} :
    lastBy name k xs = some x ↔
      name x = k ∧ ∃ before after, xs = before ++ x :: after ∧ k ∉ after.map name := by
  constructor
  · intro h
    induction xs using List.reverseRecOn with
    | nil => cases h
    | append_singleton xs y ih =>
        rw [lastBy_concat] at h
        by_cases hy : name y = k
        · rw [if_pos hy] at h
          cases h
          exact ⟨hy, xs, [], rfl, List.not_mem_nil⟩
        · rw [if_neg hy] at h
          obtain ⟨hx, before, after, rfl, hafter⟩ := ih h
          refine ⟨hx, before, after ++ [y], by simp, ?_⟩
          rw [List.map_append, List.mem_append]
          rintro (hmem | hmem)
          · exact hafter hmem
          · exact hy (List.mem_singleton.mp hmem).symm
  · rintro ⟨rfl, before, after, rfl, hafter⟩
    rw [List.append_cons, lastBy_append, lastBy_eq_none_iff.mpr hafter, lastBy_concat,
      if_pos rfl]
    rfl

theorem lastBy_name {name : γ → κ} {k : κ} {xs : List γ} {x : γ}
    (h : lastBy name k xs = some x) : name x = k :=
  (lastBy_eq_some_iff.mp h).1

theorem lastBy_map (name : γ → κ) (f : β → γ) (k : κ) (xs : List β) :
    lastBy name k (xs.map f) = (lastBy (fun x => name (f x)) k xs).map f := by
  induction xs using List.reverseRecOn with
  | nil => rfl
  | append_singleton xs x ih =>
      rw [List.map_append, List.map_singleton, lastBy_concat, lastBy_concat, ih]
      by_cases h : name (f x) = k <;> simp [h]

omit [DecidableEq κ] in
/-- Elements that are each the last of their name are determined by their names. -/
theorem eq_of_last {name : γ → κ} (last : κ → Option γ) {xs ys : List γ}
    (hnames : xs.map name = ys.map name) (hxs : ∀ x ∈ xs, last (name x) = some x)
    (hys : ∀ y ∈ ys, last (name y) = some y) : xs = ys := by
  have hmap : xs.map some = ys.map some :=
    calc xs.map some
      _ = xs.map (last ∘ name) := List.map_congr_left fun x hx => (hxs x hx).symm
      _ = (xs.map name).map last := List.map_map.symm
      _ = (ys.map name).map last := by rw [hnames]
      _ = ys.map (last ∘ name) := List.map_map
      _ = ys.map some := List.map_congr_left hys
  exact List.map_injective_iff.mpr (fun _ _ => Option.some.inj) hmap

/-! ## First places -/

theorem eraseDups_concat (xs : List κ) (x : κ) :
    (xs ++ [x]).eraseDups = if x ∈ xs then xs.eraseDups else xs.eraseDups ++ [x] := by
  rw [List.eraseDups_append]
  by_cases h : x ∈ xs <;> simp [List.removeAll, List.eraseDups_cons, h]

theorem nodup_eraseDups {κ : Type} [BEq κ] [LawfulBEq κ] (xs : List κ) : xs.eraseDups.Nodup := by
  induction hlength : xs.length using Nat.strongRecOn generalizing xs with
  | ind n ih =>
    cases xs with
    | nil => exact List.nodup_nil
    | cons x xs =>
        rw [List.eraseDups_cons]
        refine List.nodup_cons.mpr ⟨?_, ih _ ?_ _ rfl⟩
        · simp [List.mem_eraseDups]
        · rw [← hlength, List.length_cons]
          exact Nat.lt_succ_of_le (List.length_filter_le _ _)

theorem eraseDups_eq_self {xs : List κ} (h : xs.Nodup) : xs.eraseDups = xs := by
  induction xs using List.reverseRecOn with
  | nil => rfl
  | append_singleton xs x ih =>
      obtain ⟨hxs, -, hdisjoint⟩ := List.nodup_append.mp h
      have hx : x ∉ xs := fun hmem => hdisjoint x hmem x (List.mem_singleton_self x) rfl
      rw [eraseDups_concat, if_neg hx, ih hxs]

theorem eraseDups_filter (p : κ → Bool) (xs : List κ) :
    (xs.filter p).eraseDups = xs.eraseDups.filter p := by
  induction xs using List.reverseRecOn with
  | nil => rfl
  | append_singleton xs x ih =>
      rw [List.filter_append, eraseDups_concat]
      cases hp : p x with
      | false => by_cases hx : x ∈ xs <;> simp [hp, hx, ih]
      | true =>
          rw [List.filter_cons_of_pos hp, List.filter_nil, eraseDups_concat, ih]
          by_cases hx : x ∈ xs <;> simp [hp, hx]

theorem eraseDups_append (xs ys : List κ) :
    (xs ++ ys).eraseDups = xs.eraseDups ++ ys.eraseDups.filter (· ∉ xs.eraseDups) := by
  rw [List.eraseDups_append, ← eraseDups_filter]
  simp [List.removeAll]

/-! ## Inserting an entry -/

section

variable {same : α → α → Bool} {name : α → κ}
  (hsame : ∀ a b, same a b = decide (name a = name b))

include hsame

/-- A new name comes last; a name that is there keeps its place. -/
theorem insertKeyed_names (k : α) (v : β) (table : List (α × β)) :
    (insertKeyed same k v table).map (name ·.1) =
      if name k ∈ table.map (name ·.1) then table.map (name ·.1)
      else table.map (name ·.1) ++ [name k] := by
  induction table with
  | nil => rfl
  | cons e rest ih =>
      rw [insertKeyed, hsame]
      by_cases he : name e.1 = name k
      · simp [he]
      · have hk : ¬name k = name e.1 := Ne.symm he
        by_cases hrest : name k ∈ rest.map (name ·.1)
        · rw [if_pos hrest] at ih
          simp [he, hk, ih, hrest]
        · rw [if_neg hrest] at ih
          simp [he, hk, ih, hrest]

/-- In a table of distinct names, the value under a name is the one inserted, and the other entries
are those that were there. -/
theorem mem_insertKeyed {k : α} {v : β} {table : List (α × β)} {e : α × β}
    (hnodup : (table.map (name ·.1)).Nodup) (he : e ∈ insertKeyed same k v table) :
    if name e.1 = name k then e.2 = v else e ∈ table := by
  induction table with
  | nil =>
      rw [insertKeyed, List.mem_singleton] at he
      rw [he, if_pos rfl]
  | cons first rest ih =>
      rw [List.map_cons, List.nodup_cons] at hnodup
      rw [insertKeyed, hsame] at he
      by_cases hfirst : name first.1 = name k
      -- the first entry is replaced; names are distinct, so no other one has the name
      · rw [hfirst, decide_eq_true rfl, if_pos rfl, List.mem_cons] at he
        rcases he with rfl | he
        · rw [if_pos hfirst]
        · have hne : name e.1 ≠ name k := fun h =>
            hnodup.1 (List.mem_map.mpr ⟨e, he, h.trans hfirst.symm⟩)
          rw [if_neg hne]
          exact List.mem_cons_of_mem first he
      · rw [decide_eq_false hfirst, if_neg Bool.false_ne_true, List.mem_cons] at he
        rcases he with rfl | he
        · rw [if_neg hfirst]
          exact List.mem_cons_self
        · have h := ih hnodup.2 he
          split at h
          · next heq => rwa [if_pos heq]
          · next hne =>
              rw [if_neg hne]
              exact List.mem_cons_of_mem first h

theorem insertKeyed_of_notMem {k : α} {table : List (α × β)}
    (h : name k ∉ table.map (name ·.1)) (v : β) :
    insertKeyed same k v table = table ++ [(k, v)] := by
  induction table with
  | nil => rfl
  | cons e rest ih =>
      rw [List.map_cons, List.mem_cons, not_or] at h
      rw [insertKeyed, hsame, decide_eq_false (Ne.symm h.1), if_neg Bool.false_ne_true, ih h.2,
        List.cons_append]

/-! ## Tables -/

omit [DecidableEq κ] hsame in
theorem tableOf_concat (entries : List (α × β)) (e : α × β) :
    tableOf same (entries ++ [e]) = insertKeyed same e.1 e.2 (tableOf same entries) := by
  simp [tableOf]

/-- A table has the names of its entries, each once, in order of first appearance. -/
theorem tableOf_names (entries : List (α × β)) :
    (tableOf same entries).map (name ·.1) = (entries.map (name ·.1)).eraseDups := by
  induction entries using List.reverseRecOn with
  | nil => rfl
  | append_singleton entries e ih =>
      rw [tableOf_concat, insertKeyed_names hsame, ih, List.map_append, List.map_singleton,
        eraseDups_concat]
      simp only [List.mem_eraseDups]

theorem tableOf_nodup (entries : List (α × β)) :
    ((tableOf same entries).map (name ·.1)).Nodup := by
  rw [tableOf_names hsame]
  exact nodup_eraseDups _

/-- A table has under each name the value of the last entry of that name. -/
theorem tableOf_last {entries : List (α × β)} {row : α × β} (hrow : row ∈ tableOf same entries) :
    (lastBy (name ·.1) (name row.1) entries).map (·.2) = some row.2 := by
  induction entries using List.reverseRecOn with
  | nil => cases hrow
  | append_singleton entries e ih =>
      rw [tableOf_concat] at hrow
      have h := mem_insertKeyed hsame (tableOf_nodup hsame entries) hrow
      rw [lastBy_concat]
      by_cases heq : name row.1 = name e.1
      · rw [if_pos heq] at h
        rw [if_pos heq.symm, h]
        rfl
      · rw [if_neg heq] at h
        rw [if_neg (Ne.symm heq)]
        exact ih h

/-- Entries of distinct names are their own table. -/
theorem tableOf_eq_self {entries : List (α × β)} (h : (entries.map (name ·.1)).Nodup) :
    tableOf same entries = entries := by
  induction entries using List.reverseRecOn with
  | nil => rfl
  | append_singleton entries e ih =>
      rw [List.map_append, List.map_singleton, List.nodup_append] at h
      obtain ⟨hentries, -, hdisjoint⟩ := h
      have he : name e.1 ∉ entries.map (name ·.1) := fun hmem =>
        hdisjoint _ hmem _ (List.mem_singleton_self _) rfl
      rw [tableOf_concat, ih hentries, insertKeyed_of_notMem hsame he]

end

end TokenCatalog
