import TokenCatalog.Css.Lexeme
import TokenCatalog.Proofs.Css.Spans

/-!
# Uniform text in pieces

Line ends are made uniform character by character, but for CR LF, which is one line end. Main
statements:

* `uniform_append`: pieces are made uniform on their own, unless the cut tears a CR LF apart;
* `Position.after_line`: lines are counted by the line feeds of uniform text.
-/

namespace TokenCatalog.Css

/-! ## Pieces -/

/-- The boundary between two pieces does not tear a CR LF apart. -/
def Apart (xs ys : List Char) : Prop :=
  xs.getLast? = some '\r' → ys.head? ≠ some '\n'

theorem Apart.of_cons {c : Char} {xs ys : List Char} (h : Apart (c :: xs) ys) : Apart xs ys := by
  intro hlast
  refine h ?_
  cases xs with
  | nil => cases hlast
  | cons d xs => exact hlast

theorem uniform_cons {c : Char} {cs : List Char} (h : c = '\r' → cs.head? ≠ some '\n') :
    uniform (c :: cs) = uniform [c] ++ uniform cs := by
  rw [uniform.eq_3 c cs, uniform.eq_3 c [], uniform]
  · rfl
  · intro cs' hc hcs
    cases hcs
  · intro cs' hc hcs
    exact h hc (by rw [hcs]; rfl)

def IsClean (c : Char) : Prop :=
  c ≠ '\r' ∧ c ≠ '\x0c' ∧ c ≠ '\x00'

instance (c : Char) : Decidable (IsClean c) :=
  inferInstanceAs (Decidable (_ ∧ _ ∧ _))

theorem uniform_of_clean {cs : List Char} (h : ∀ c ∈ cs, IsClean c) : uniform cs = cs := by
  induction cs with
  | nil => rfl
  | cons c cs ih =>
      rw [List.forall_mem_cons] at h
      obtain ⟨⟨hreturn, hfeed, hnul⟩, hcs⟩ := h
      rw [uniform, ih hcs]
      · simp [hreturn, hfeed, hnul]
      · exact fun _ hc => absurd hc hreturn

/-- Uniform text is clean. -/
theorem isClean_of_mem_uniform {c : Char} {cs : List Char} (h : c ∈ uniform cs) : IsClean c := by
  induction cs using uniform.induct with
  | case1 =>
      rw [uniform] at h
      cases h
  | case2 cs ih =>
      rw [uniform] at h
      rcases List.mem_cons.mp h with rfl | h
      · decide
      · exact ih h
  | case3 d cs hreturn ih =>
      rw [uniform.eq_3 _ _ hreturn] at h
      rcases List.mem_cons.mp h with rfl | h
      · split
        · decide
        · next hline =>
            rw [Bool.or_eq_true, decide_eq_true_eq, decide_eq_true_eq, not_or] at hline
            split
            · decide
            · next hnul => exact ⟨hline.1, hline.2, hnul⟩
      · exact ih h

theorem uniform_append {xs ys : List Char} (h : Apart xs ys) :
    uniform (xs ++ ys) = uniform xs ++ uniform ys := by
  induction xs using uniform.induct with
  | case1 => rfl
  | case2 xs ih => exact congrArg ('\n' :: ·) (ih h.of_cons.of_cons)
  | case3 c xs hreturn ih =>
      have hxs : c = '\r' → xs.head? ≠ some '\n' := by
        rintro rfl hhead
        obtain ⟨more, rfl⟩ := List.head?_eq_some_iff.mp hhead
        exact hreturn more rfl rfl
      have hall : c = '\r' → (xs ++ ys).head? ≠ some '\n' := by
        rintro rfl
        cases xs with
        | nil => exact h rfl
        | cons d xs => exact hxs rfl
      rw [List.cons_append, uniform_cons hall, ih h.of_cons, uniform_cons hxs, List.append_assoc]

/-- Behind a CR, a line feed only ends the line that the CR has ended. -/
theorem uniform_append_torn {xs : List Char} (h : xs.getLast? = some '\r') (ys : List Char) :
    uniform (xs ++ '\n' :: ys) = uniform xs ++ uniform ys := by
  obtain ⟨front, rfl⟩ := List.getLast?_eq_some_iff.mp h
  have hfront : ∀ zs, Apart front (['\r'] ++ zs) := fun zs _ hhead => by cases hhead
  have hlast := uniform_append (hfront [])
  rw [List.append_nil] at hlast
  rw [List.append_assoc, uniform_append (hfront _), hlast, List.append_assoc]
  rfl

/-! ## Places -/

theorem Position.after_line (p : Position) (cs : List Char) :
    (p.after cs).line = p.line + cs.count '\n' := by
  induction cs generalizing p with
  | nil => rfl
  | cons c cs ih =>
      show ((p.advance c).after cs).line = _
      rw [ih, advance, List.count_cons]
      by_cases hc : c = '\n'
      · simp [hc]
        omega
      · simp [hc]

/-- Text without line feeds stands on one line. -/
theorem Position.after_of_no_feed {cs : List Char} (h : '\n' ∉ cs) (p : Position) :
    p.after cs = ⟨p.line, p.column + cs.length⟩ := by
  induction cs generalizing p with
  | nil => rfl
  | cons c cs ih =>
      rw [List.mem_cons, not_or] at h
      show (p.advance c).after cs = _
      rw [ih h.2, advance, if_neg (Ne.symm h.1), List.length_cons]
      simp only [Position.mk.injEq, true_and]
      omega

end TokenCatalog.Css
