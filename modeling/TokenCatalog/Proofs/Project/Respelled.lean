import TokenCatalog.Proofs.Project.Choices

/-!
# Groups with their alternatives in another order

A group may list its alternatives in any order, and each of them any number of times. Main
statements:

* `Pattern.Respells.wellFormed`: the groups of a respelled pattern are those of its text;
* `mem_expandBraces_respelled`: what a text is expanded into does not depend on its spelling.
-/

namespace TokenCatalog.Project

/-- **Another spelling of a pattern**: the alternatives of its groups are permuted, repeated, or
written only once, one group after the other. -/
inductive Pattern.Respells : Pattern → Pattern → Prop
  | group {a b : Alternatives} (rest : Pattern) (hsame : ∀ p, p ∈ a.toList ↔ p ∈ b.toList) :
      Respells (.group a rest) (.group b rest)
  | inside {a b : Alternatives} {front back : List Pattern} {p q : Pattern} (rest : Pattern)
      (ha : a.toList = front ++ p :: back) (hb : b.toList = front ++ q :: back) (h : Respells p q) :
      Respells (.group a rest) (.group b rest)
  | afterChar {p q : Pattern} (c : Char) (h : Respells p q) : Respells (.char c p) (.char c q)
  | afterGroup {p q : Pattern} (a : Alternatives) (h : Respells p q) :
      Respells (.group a p) (.group a q)
  | trans {p q r : Pattern} (h : Respells p q) (h' : Respells q r) : Respells p r

namespace Pattern.Respells

variable {p q : Pattern}

theorem sound_eq (h : p.Respells q) : ∀ kind, p.sound kind = q.sound kind := by
  induction h with
  | @group a b rest hsame =>
      have hsound : a.sound = b.sound := by
        rw [Bool.eq_iff_iff, Alternatives.sound_iff, Alternatives.sound_iff]
        simp only [hsame]
      intro kind
      rw [Pattern.sound, Pattern.sound, hsound]
  | @inside a b front back p q rest ha hb h ih =>
      have hsound : a.sound = b.sound := by
        rw [Bool.eq_iff_iff, Alternatives.sound_iff, Alternatives.sound_iff, ha, hb]
        simp only [List.forall_mem_append, List.forall_mem_cons, ih isLiteral]
      intro kind
      rw [Pattern.sound, Pattern.sound, hsound]
  | afterChar c h ih =>
      intro kind
      rw [Pattern.sound, Pattern.sound, ih]
  | afterGroup a h ih =>
      intro kind
      rw [Pattern.sound, Pattern.sound, ih]
  | trans h h' ih ih' =>
      intro kind
      rw [ih, ih']

theorem strays_eq (h : p.Respells q) : p.strays = q.strays := by
  induction h with
  | group rest hsame => rfl
  | inside rest ha hb h ih => rfl
  | afterChar c h ih => rw [Pattern.strays, Pattern.strays, ih]
  | afterGroup a h ih => exact ih
  | trans h h' ih ih' => exact ih.trans ih'

/-- The groups of a respelled pattern are those of its text. -/
theorem wellFormed (h : p.Respells q) (hp : p.WellFormed) : q.WellFormed where
  sound := h.sound_eq _ ▸ hp.sound
  strays := h.strays_eq ▸ hp.strays

/-- A respelled pattern stands for the same texts. -/
theorem mem_choices (h : p.Respells q) : ∀ s, s ∈ p.choices ↔ s ∈ q.choices := by
  induction h with
  | group rest hsame =>
      intro s
      simp only [Pattern.mem_choices_group, Alternatives.mem_choices, hsame]
  | inside rest ha hb h ih =>
      intro s
      simp only [Pattern.mem_choices_group, Alternatives.mem_choices, ha, hb, List.mem_append,
        List.mem_cons, or_and_right, exists_or, exists_eq_left, ih]
  | afterChar c h ih =>
      intro s
      simp only [Pattern.mem_choices_char, ih]
  | afterGroup a h ih =>
      intro s
      simp only [Pattern.mem_choices_group, ih]
  | trans h h' ih ih' =>
      intro s
      rw [ih, ih']

end Pattern.Respells

/-- **What a text is expanded into does not depend on its spelling.** -/
theorem mem_expandBraces_respelled {p q : Pattern} (hp : p.WellFormed) (h : p.Respells q)
    (s : List Char) : s ∈ expandBraces p.text ↔ s ∈ expandBraces q.text := by
  rw [mem_expandBraces_iff hp, mem_expandBraces_iff (h.wellFormed hp), h.mem_choices]

end TokenCatalog.Project
