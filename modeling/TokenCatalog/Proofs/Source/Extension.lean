import Mathlib.Data.List.DropRight
import TokenCatalog.Source.File

/-!
# Extensions of names

The extension of a file name depends on the end of the name alone. Main statements:

* `exists_of_suffixOf`: a suffix is a dot and what follows it;
* `extensionOf_append`: a file name that ends in a suffix has it as its extension, or has no
  extension if no other name stands before the dot;
* `mem_lower_of_mem`: a lower-case form keeps the separators of a text.
-/

namespace TokenCatalog

/-! ## Suffixes -/

theorem suffixOf_eq (name : List Char) :
    suffixOf name =
      if (name.rtakeWhile (· != '.')).length + 1 < name.length &&
        !(name.rtakeWhile (· != '.')).isEmpty
      then '.' :: name.rtakeWhile (· != '.') else [] := rfl

theorem rtakeWhile_dot {extension : List Char} (hdot : '.' ∉ extension) (stem : List Char) :
    (stem ++ '.' :: extension).rtakeWhile (· != '.') = extension := by
  have hall : extension.reverse.takeWhile (· != '.') = extension.reverse := by
    refine List.takeWhile_eq_self_iff.mpr fun c hc => bne_iff_ne.mpr ?_
    rintro rfl
    exact hdot (List.mem_reverse.mp hc)
  rw [List.rtakeWhile, List.reverse_append, List.reverse_cons, List.append_assoc,
    List.takeWhile_append, hall]
  simp

theorem suffixOf_append {extension : List Char} (hdot : '.' ∉ extension) (hne : extension ≠ [])
    (stem : List Char) :
    suffixOf (stem ++ '.' :: extension) = if stem = [] then [] else '.' :: extension := by
  rw [suffixOf_eq, rtakeWhile_dot hdot]
  cases stem with
  | nil => simp
  | cons c stem =>
      refine (if_pos ?_).trans (if_neg (List.cons_ne_nil c stem)).symm
      rw [Bool.and_eq_true, decide_eq_true_eq, Bool.not_eq_true', List.isEmpty_eq_false_iff]
      refine ⟨?_, hne⟩
      rw [List.length_append, List.length_cons, List.length_cons]
      omega

/-- **A suffix is a dot and what follows it.** -/
theorem exists_of_suffixOf {name : List Char} (h : suffixOf name ≠ []) :
    ∃ stem extension, name = stem ++ '.' :: extension ∧ extension ≠ [] ∧ '.' ∉ extension ∧
      suffixOf name = '.' :: extension := by
  rw [suffixOf_eq] at h ⊢
  split at h
  · next hlong =>
      rw [if_pos hlong]
      rw [Bool.and_eq_true, decide_eq_true_eq, Bool.not_eq_true', List.isEmpty_eq_false_iff]
        at hlong
      have hsplit := List.rdropWhile_append_rtakeWhile (p := (· != '.')) (l := name)
      have hstem : name.rdropWhile (· != '.') ≠ [] := by
        intro hnil
        have hlength := congrArg List.length hsplit
        rw [hnil, List.nil_append] at hlength
        omega
      have hlast := List.rdropWhile_last_not (· != '.') name hstem
      rw [bne_iff_ne, not_not] at hlast
      refine ⟨(name.rdropWhile (· != '.')).dropLast, name.rtakeWhile (· != '.'), ?_,
        hlong.2, ?_, rfl⟩
      · conv_lhs => rw [← hsplit, ← List.dropLast_append_getLast hstem, hlast]
        simp
      · intro hmem
        simpa using List.mem_rtakeWhile_imp hmem
  · exact absurd rfl h

/-! ## Names in paths -/

/-- What ends a text without a separator ends its last piece. -/
theorem exists_pieces_append {p : Char → Bool} {tail : List Char} (htail : ∀ c ∈ tail, p c = false)
    (cs : List Char) :
    ∃ before stem, Text.pieces p (cs ++ tail) = before ++ [stem ++ tail] := by
  induction cs with
  | nil =>
      refine ⟨[], [], ?_⟩
      induction tail with
      | nil => rfl
      | cons c tail ih =>
          rw [List.forall_mem_cons] at htail
          rw [List.nil_append, Text.pieces, if_neg (by simp [htail.1])]
          rw [List.nil_append] at ih
          rw [ih htail.2]
          rfl
  | cons c cs ih =>
      obtain ⟨before, stem, hpieces⟩ := ih
      rw [List.cons_append, Text.pieces, hpieces]
      split
      · exact ⟨[] :: before, stem, rfl⟩
      · cases before with
        | nil => exact ⟨[], c :: stem, rfl⟩
        | cons word before => exact ⟨(c :: word) :: before, stem, rfl⟩

theorem basenameOf_append {filename : String} {cs extension : List Char}
    (h : filename.toList = cs ++ '.' :: extension) (hne : extension ≠ [])
    (hslash : '/' ∉ extension) (hback : '\\' ∉ extension) :
    ∃ stem, basenameOf filename = stem ++ '.' :: extension := by
  have hsame : extension.map (fun c => if c = '\\' then '/' else c) = extension := by
    refine (List.map_congr_left fun c hc => ?_).trans (List.map_id extension)
    rw [if_neg (ne_of_mem_of_not_mem hc hback)]
    rfl
  have hslashes : forwardSlashes filename =
      cs.map (fun c => if c = '\\' then '/' else c) ++ '.' :: extension := by
    rw [forwardSlashes, h, List.map_append, List.map_cons, hsame]
    rfl
  have htail : ∀ c ∈ '.' :: extension, (c == '/') = false := by
    refine List.forall_mem_cons.mpr ⟨by decide, fun c hc => ?_⟩
    exact beq_false_of_ne (ne_of_mem_of_not_mem hc hslash)
  obtain ⟨before, stem, hpieces⟩ :=
    exists_pieces_append htail (cs.map fun c => if c = '\\' then '/' else c)
  refine ⟨stem, ?_⟩
  -- the last piece is neither empty nor the name that stays in place
  have hkept : ([stem ++ '.' :: extension].filter fun c => !c.isEmpty && c != ['.']) =
      [stem ++ '.' :: extension] := by
    have hlength : (stem ++ '.' :: extension).length ≠ 1 := by
      have hpos := List.length_pos_iff.mpr hne
      simp only [List.length_append, List.length_cons]
      omega
    refine List.filter_cons_of_pos ?_
    rw [Bool.and_eq_true, bne_iff_ne]
    refine ⟨by simp, fun heq => hlength ?_⟩
    rw [heq]
    rfl
  rw [basenameOf, pathComponents, hslashes, hpieces, List.filter_append, hkept,
    List.getLast?_concat, Option.getD_some]

/-- **A file name that ends in a suffix has it as its extension**, or no extension at all if no name
stands before the dot. -/
theorem extensionOf_append {filename : String} {cs extension : List Char}
    (h : filename.toList = cs ++ '.' :: extension) (hne : extension ≠ []) (hdot : '.' ∉ extension)
    (hslash : '/' ∉ extension) (hback : '\\' ∉ extension) :
    extensionOf filename = [] ∨ extensionOf filename = Text.lower ('.' :: extension) := by
  obtain ⟨stem, hstem⟩ := basenameOf_append h hne hslash hback
  rw [extensionOf, hstem, suffixOf_append hdot hne]
  split
  · exact .inl rfl
  · exact .inr rfl

/-! ## Lower case -/

theorem mem_lowerFrom_of_mem {c : Char} {cs : List Char} (hmem : c ∈ cs) (hascii : c.toNat < 128)
    (inWord : Bool) : c.toLower ∈ Text.lowerFrom inWord cs := by
  induction cs generalizing inWord with
  | nil => cases hmem
  | cons d cs ih =>
      rw [Text.lowerFrom]
      rcases List.mem_cons.mp hmem with rfl | hlater
      · have hsigma : c ≠ 'Σ' := by
          rintro rfl
          revert hascii
          decide
        rw [if_neg hsigma, Text.lowerChar, if_pos hascii]
        exact List.mem_append_left _ List.mem_cons_self
      · split
        · exact List.mem_cons_of_mem _ (ih hlater _)
        · exact List.mem_append_right _ (ih hlater _)

/-- A lower-case form holds the lower-case form of each ASCII character. -/
theorem mem_lower_of_mem {c : Char} {cs : List Char} (hmem : c ∈ cs) (hascii : c.toNat < 128) :
    c.toLower ∈ Text.lower cs :=
  mem_lowerFrom_of_mem hmem hascii false

end TokenCatalog
