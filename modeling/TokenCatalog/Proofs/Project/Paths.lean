import Mathlib.Data.List.Sort
import TokenCatalog.Project.Discover
import TokenCatalog.Proofs.Json.Table
import TokenCatalog.Proofs.Text.Pieces

/-!
# Paths in order

Paths of names are told apart by their texts, so that the order of texts is a strict order of paths,
and paths in that order are determined by which of them there are. Main statements:

* `Path.text_inj`: paths with the same text are the same;
* `pairwise_inPathOrder`: paths in order increase strictly.
-/

namespace TokenCatalog.Project

/-! ## Names -/

/-- A text that can stand between the slashes of a path. -/
def IsName (name : List Char) : Prop :=
  name ≠ [] ∧ name ≠ ['.'] ∧ '/' ∉ name

instance (name : List Char) : Decidable (IsName name) :=
  inferInstanceAs (Decidable (_ ∧ _))

/-- The path that a text denotes consists of names. -/
theorem isName_of_mem_ofText {text name : List Char} (h : name ∈ Path.ofText text) :
    IsName name := by
  obtain ⟨hpiece, hkept⟩ := List.mem_filter.mp h
  simp only [Bool.and_eq_true, Bool.not_eq_true', List.isEmpty_eq_false_iff, bne_iff_ne] at hkept
  refine ⟨hkept.1, hkept.2, fun hslash => ?_⟩
  have hmem := List.mem_flatten_of_mem hpiece hslash
  rw [Text.flatten_pieces] at hmem
  exact absurd (List.of_mem_filter hmem) (by decide)

/-- A path of names is read back from its text. -/
theorem Path.ofText_text {path : Path} (h : ∀ name ∈ path, IsName name) :
    Path.ofText path.text = path := by
  cases path with
  | nil => rfl
  | cons name path =>
      have hslash : ∀ part ∈ name :: path, ∀ c ∈ part, (c == '/') = false := by
        intro part hpart c hc
        exact beq_false_of_ne (ne_of_mem_of_not_mem hc (h part hpart).2.2)
      rw [Path.ofText, pathComponents, Path.text,
        Text.pieces_joinWith rfl (List.cons_ne_nil _ _) hslash, List.filter_eq_self]
      intro part hpart
      simpa using And.intro (h part hpart).1 (h part hpart).2.1

/-- **Paths with the same text are the same.** -/
theorem Path.text_inj {p q : Path} (hp : ∀ name ∈ p, IsName name) (hq : ∀ name ∈ q, IsName name)
    (h : p.text = q.text) : p = q := by
  rw [← Path.ofText_text hp, h, Path.ofText_text hq]

/-! ## Order -/

/-- Whether the text of a path comes before that of another one. -/
def Path.Before (p q : Path) : Prop :=
  String.ofList p.text < String.ofList q.text

instance : Std.Irrefl Path.Before where
  irrefl _ := String.lt_irrefl _

instance : Std.Antisymm Path.Before where
  antisymm _ _ hpq hqp := absurd (String.lt_trans hpq hqp) (String.lt_irrefl _)

theorem mem_inPathOrder {paths : List Path} {path : Path} :
    path ∈ inPathOrder paths ↔ path ∈ paths := by
  rw [inPathOrder, List.mem_mergeSort, List.mem_eraseDups]

/-- **Paths in order increase strictly.** -/
theorem pairwise_inPathOrder {paths : List Path} (h : ∀ path ∈ paths, ∀ name ∈ path, IsName name) :
    (inPathOrder paths).Pairwise Path.Before := by
  have hsorted : (inPathOrder paths).Pairwise fun p q =>
      decide (String.ofList p.text ≤ String.ofList q.text) = true := by
    apply List.pairwise_mergeSort
    · intro p q r hpq hqr
      exact decide_eq_true (String.le_trans (of_decide_eq_true hpq) (of_decide_eq_true hqr))
    · intro p q
      simpa using String.le_total (String.ofList p.text) (String.ofList q.text)
  have hnodup : (inPathOrder paths).Nodup :=
    (List.mergeSort_perm _ _).nodup_iff.mpr (nodup_eraseDups paths)
  apply (hsorted.and hnodup).imp_of_mem
  intro p q hp hq ⟨hle, hne⟩
  refine String.not_le.mp fun hge => hne ?_
  refine Path.text_inj (h p (mem_inPathOrder.mp hp)) (h q (mem_inPathOrder.mp hq)) ?_
  exact String.ofList_inj.mp (String.le_antisymm (of_decide_eq_true hle) hge)

end TokenCatalog.Project
