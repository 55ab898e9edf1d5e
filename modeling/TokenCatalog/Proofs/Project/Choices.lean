import TokenCatalog.Proofs.Project.Groups

/-!
# What a pattern with groups stands for

A pattern is a row of characters and groups, a group a row of alternatives, and each alternative
again a pattern. It stands for the texts that result when one alternative is taken from every group
that is reached. Expanding its text comes to the same, although that knows of no structure and goes
from the inside to the outside. Main statements:

* `Pattern.step?`: a step of the structure for a step of the text;
* `mem_expandBraces_iff`: the text of a pattern is expanded into what the pattern stands for;
* `exists_pattern`: every text is the text of a pattern.
-/

namespace TokenCatalog.Project

/-! ## Patterns -/

mutual

/-- Characters and groups, one after the other. -/
inductive Pattern where
  | empty
  | char (c : Char) (rest : Pattern)
  | group (alternatives : Alternatives) (rest : Pattern)

/-- The alternatives of a group, of which there is at least one. -/
inductive Alternatives where
  | last (p : Pattern)
  | more (p : Pattern) (others : Alternatives)

end

mutual

/-- The text of a pattern. A group stands between braces. -/
def Pattern.text : Pattern → List Char
  | .empty => []
  | .char c rest => c :: rest.text
  | .group alternatives rest => '\x7b' :: (alternatives.text ++ '\x7d' :: rest.text)

/-- The text of alternatives, with commas between them. -/
def Alternatives.text : Alternatives → List Char
  | .last p => p.text
  | .more p others => p.text ++ ',' :: others.text

end

mutual

/-- **What a pattern stands for**: the texts that result when one alternative is taken from every
group that is reached. -/
def Pattern.choices : Pattern → List (List Char)
  | .empty => [[]]
  | .char c rest => rest.choices.map (c :: ·)
  | .group alternatives rest =>
    alternatives.choices.flatMap fun chosen => rest.choices.map (chosen ++ ·)

/-- What the alternatives stand for, taken together. -/
def Alternatives.choices : Alternatives → List (List Char)
  | .last p => p.choices
  | .more p others => p.choices ++ others.choices

end

def isLiteral (c : Char) : Bool := !isBrace c && c != ','

mutual

/-- Whether the characters outside of groups are of a kind, and braces and commas in groups are
marks of groups. -/
def Pattern.sound (kind : Char → Bool) : Pattern → Bool
  | .empty => true
  | .char c rest => kind c && rest.sound kind
  | .group alternatives rest => alternatives.sound && rest.sound kind

/-- Whether braces and commas in alternatives are marks of groups. -/
def Alternatives.sound : Alternatives → Bool
  | .last p => p.sound isLiteral
  | .more p others => p.sound isLiteral && others.sound

end

/-- The braces that stand outside of groups, as characters of their own. -/
def Pattern.strays : Pattern → List Char
  | .empty => []
  | .char c rest => if isBrace c then c :: rest.strays else rest.strays
  | .group _ rest => rest.strays

/-- A pattern whose groups are those of its text: in groups, braces and commas are marks; outside, a
brace stands for itself only if it has no partner. -/
structure Pattern.WellFormed (p : Pattern) : Prop where
  sound : p.sound (fun _ => true) = true
  strays : ¬ HasGroup p.strays

/-! ## One step -/

def Pattern.append : Pattern → Pattern → Pattern
  | .empty, q => q
  | .char c rest, q => .char c (rest.append q)
  | .group alternatives rest, q => .group alternatives (rest.append q)

def Alternatives.toList : Alternatives → List Pattern
  | .last p => [p]
  | .more p others => p :: others.toList

mutual

/-- The patterns that result when the first group without groups in it is replaced by one of its
alternatives; none if there is no group. -/
def Pattern.step? : Pattern → Option (List Pattern)
  | .empty => none
  | .char c rest => rest.step?.map (·.map (.char c))
  | .group alternatives rest =>
    match alternatives.step? with
    | some results => some (results.map (.group · rest))
    | none => some (alternatives.toList.map (·.append rest))

def Alternatives.step? : Alternatives → Option (List Alternatives)
  | .last p => p.step?.map (·.map .last)
  | .more p others =>
    match p.step? with
    | some results => some (results.map (.more · others))
    | none => others.step?.map (·.map (.more p))

end

namespace Pattern

theorem text_append : ∀ p q : Pattern, (p.append q).text = p.text ++ q.text
  | .empty, q => rfl
  | .char c rest, q => by simp [append, text, text_append rest q]
  | .group alternatives rest, q => by simp [append, text, text_append rest q]

theorem strays_append : ∀ p q : Pattern, (p.append q).strays = p.strays ++ q.strays
  | .empty, q => rfl
  | .char c rest, q => by
      rw [append, strays, strays, strays_append rest q]
      split <;> rfl
  | .group alternatives rest, q => by simp [append, strays, strays_append rest q]

theorem sound_append (kind : Char → Bool) :
    ∀ p q : Pattern, (p.append q).sound kind = (p.sound kind && q.sound kind)
  | .empty, q => rfl
  | .char c rest, q => by simp [append, sound, sound_append kind rest q, Bool.and_assoc]
  | .group alternatives rest, q => by
      simp [append, sound, sound_append kind rest q, Bool.and_assoc]

/-! ## What a pattern stands for -/

theorem mem_choices_char {c : Char} {rest : Pattern} {s : List Char} :
    s ∈ (char c rest).choices ↔ ∃ t ∈ rest.choices, c :: t = s := by
  simp [choices]

theorem mem_choices_group {alternatives : Alternatives} {rest : Pattern} {s : List Char} :
    s ∈ (group alternatives rest).choices ↔
      ∃ chosen ∈ alternatives.choices, ∃ t ∈ rest.choices, chosen ++ t = s := by
  simp [choices]

theorem mem_choices_append : ∀ {p q : Pattern} {s : List Char},
    s ∈ (p.append q).choices ↔ ∃ chosen ∈ p.choices, ∃ t ∈ q.choices, chosen ++ t = s
  | .empty, q, s => by simp [append, choices]
  | .char c rest, q, s => by
      simp only [append, mem_choices_char, mem_choices_append]
      constructor
      · rintro ⟨_, ⟨chosen, hchosen, t, ht, rfl⟩, rfl⟩
        exact ⟨_, ⟨chosen, hchosen, rfl⟩, t, ht, rfl⟩
      · rintro ⟨_, ⟨chosen, hchosen, rfl⟩, t, ht, rfl⟩
        exact ⟨_, ⟨chosen, hchosen, t, ht, rfl⟩, rfl⟩
  | .group alternatives rest, q, s => by
      simp only [append, mem_choices_group, mem_choices_append]
      constructor
      · rintro ⟨first, hfirst, _, ⟨chosen, hchosen, t, ht, rfl⟩, rfl⟩
        exact ⟨_, ⟨first, hfirst, chosen, hchosen, rfl⟩, t, ht, List.append_assoc _ _ _⟩
      · rintro ⟨_, ⟨first, hfirst, chosen, hchosen, rfl⟩, t, ht, rfl⟩
        exact ⟨first, hfirst, _, ⟨chosen, hchosen, t, ht, rfl⟩, (List.append_assoc _ _ _).symm⟩

/-- **A pattern without groups stands for its text.** -/
theorem choices_of_step?_none : ∀ {p : Pattern}, p.step? = none → p.choices = [p.text]
  | .empty, _ => rfl
  | .char c rest, h => by
      rw [choices, choices_of_step?_none (Option.map_eq_none_iff.mp h)]
      rfl
  | .group alternatives rest, h => by
      rw [step?] at h
      split at h <;> cases h

end Pattern

theorem Alternatives.mem_choices : ∀ {a : Alternatives} {s : List Char},
    s ∈ a.choices ↔ ∃ p ∈ a.toList, s ∈ p.choices
  | .last p, s => by simp [choices, toList]
  | .more p others, s => by simp [choices, toList, others.mem_choices]

theorem Alternatives.toList_ne_nil (a : Alternatives) : a.toList ≠ [] := by
  cases a <;> exact List.cons_ne_nil _ _

mutual

theorem Pattern.ne_nil_of_step? : ∀ {p : Pattern} {results : List Pattern},
    p.step? = some results → results ≠ []
  | .empty, _, h => by cases h
  | .char c rest, _, h => by
      obtain ⟨results, hstep, rfl⟩ := Option.map_eq_some_iff.mp h
      simpa using rest.ne_nil_of_step? hstep
  | .group alternatives rest, _, h => by
      rw [Pattern.step?] at h
      split at h
      · next results hstep =>
          cases h
          simpa using alternatives.ne_nil_of_step? hstep
      · cases h
        simpa using alternatives.toList_ne_nil

theorem Alternatives.ne_nil_of_step? : ∀ {a : Alternatives} {results : List Alternatives},
    a.step? = some results → results ≠ []
  | .last p, _, h => by
      obtain ⟨results, hstep, rfl⟩ := Option.map_eq_some_iff.mp h
      simpa using p.ne_nil_of_step? hstep
  | .more p others, _, h => by
      rw [Alternatives.step?] at h
      split at h
      · next results hstep =>
          cases h
          simpa using p.ne_nil_of_step? hstep
      · obtain ⟨results, hstep, rfl⟩ := Option.map_eq_some_iff.mp h
        simpa using others.ne_nil_of_step? hstep

end

theorem exists_mem_or {α : Type} {P : α → Prop} {Q : Prop} {xs : List α} (hne : xs ≠ []) :
    (∃ x ∈ xs, P x ∨ Q) ↔ (∃ x ∈ xs, P x) ∨ Q := by
  constructor
  · rintro ⟨x, hx, h | h⟩
    · exact .inl ⟨x, hx, h⟩
    · exact .inr h
  · rintro (⟨x, hx, h⟩ | h)
    · exact ⟨x, hx, .inl h⟩
    · obtain ⟨x, hx⟩ := List.exists_mem_of_ne_nil xs hne
      exact ⟨x, hx, .inr h⟩

mutual

/-- **A step keeps what a pattern stands for.** -/
theorem Pattern.mem_choices_of_step? : ∀ {p : Pattern} {results : List Pattern} {s : List Char},
    p.step? = some results → (s ∈ p.choices ↔ ∃ q ∈ results, s ∈ q.choices)
  | .empty, _, _, h => by cases h
  | .char c rest, _, s, h => by
      obtain ⟨results, hstep, rfl⟩ := Option.map_eq_some_iff.mp h
      simp only [Pattern.mem_choices_char, rest.mem_choices_of_step? hstep, List.mem_map,
        exists_exists_and_eq_and]
      tauto
  | .group alternatives rest, _, s, h => by
      rw [Pattern.step?] at h
      split at h
      · next results hstep =>
          cases h
          simp only [Pattern.mem_choices_group, alternatives.mem_choices_of_step? hstep,
            List.mem_map, exists_exists_and_eq_and]
          tauto
      · cases h
        simp only [Pattern.mem_choices_group, Alternatives.mem_choices, List.mem_map,
          exists_exists_and_eq_and, Pattern.mem_choices_append]
        tauto

theorem Alternatives.mem_choices_of_step? :
    ∀ {a : Alternatives} {results : List Alternatives} {s : List Char},
      a.step? = some results → (s ∈ a.choices ↔ ∃ b ∈ results, s ∈ b.choices)
  | .last p, _, s, h => by
      obtain ⟨results, hstep, rfl⟩ := Option.map_eq_some_iff.mp h
      simp [Alternatives.choices, p.mem_choices_of_step? hstep]
  | .more p others, _, s, h => by
      rw [Alternatives.step?] at h
      split at h
      · next results hstep =>
          cases h
          simp only [Alternatives.choices, List.mem_append, p.mem_choices_of_step? hstep,
            List.mem_map, exists_exists_and_eq_and, exists_mem_or (p.ne_nil_of_step? hstep)]
      · obtain ⟨results, hstep, rfl⟩ := Option.map_eq_some_iff.mp h
        simp only [Alternatives.choices, List.mem_append, others.mem_choices_of_step? hstep,
          List.mem_map, exists_exists_and_eq_and, or_comm (a := s ∈ p.choices),
          exists_mem_or (others.ne_nil_of_step? hstep)]

end

/-! ## A step of the structure is a step of the text -/

/-- Texts with an alternative in the place of the first group of a text, whatever stands behind
it. -/
def Expands (cs : List Char) (results : List (List Char)) : Prop :=
  ∃ before inner after,
    (∀ tail, group? (cs ++ tail) = some (before, inner, after ++ tail)) ∧
      (Text.pieces (· == ',') inner).map (before ++ · ++ after) = results

namespace Expands

variable {cs : List Char} {results : List (List Char)}

theorem cons (h : Expands cs results) {c : Char}
    (hc : c = '\x7b' → ∀ tail, (cs ++ tail).find? isBrace ≠ some '\x7d') :
    Expands (c :: cs) (results.map (c :: ·)) := by
  obtain ⟨before, inner, after, hgroup, rfl⟩ := h
  refine ⟨c :: before, inner, after, fun tail => ?_, by simp⟩
  rw [List.cons_append]
  by_cases hopen : c = '\x7b'
  · subst hopen
    rw [group?_open (hc rfl tail), hgroup]
    rfl
  · rw [group?_cons_of_ne hopen, hgroup]
    rfl

theorem append_left (h : Expands cs results) {front : List Char}
    (hfront : ∀ c ∈ front, isBrace c = false) :
    Expands (front ++ cs) (results.map (front ++ ·)) := by
  induction front with
  | nil => simpa using h
  | cons c front ih =>
      have hne : c ≠ '\x7b' := by
        rintro rfl
        exact absurd (hfront _ List.mem_cons_self) (by decide)
      have hcons := (ih fun d hd => hfront d (List.mem_cons_of_mem c hd)).cons
        (c := c) fun hc => absurd hc hne
      simpa [Function.comp_def] using hcons

theorem append_right (h : Expands cs results) (behind : List Char) :
    Expands (cs ++ behind) (results.map (· ++ behind)) := by
  obtain ⟨before, inner, after, hgroup, rfl⟩ := h
  refine ⟨before, inner, after ++ behind, fun tail => ?_, by simp⟩
  rw [List.append_assoc, hgroup, List.append_assoc]

end Expands

theorem isBrace_of_isLiteral {c : Char} (h : isLiteral c = true) : isBrace c = false := by
  simp only [isLiteral, Bool.and_eq_true, Bool.not_eq_true'] at h
  exact h.1

theorem ne_comma_of_isLiteral {c : Char} (h : isLiteral c = true) : (c == ',') = false := by
  simp only [isLiteral, Bool.and_eq_true, bne_iff_ne] at h
  exact beq_false_of_ne h.2

/-- The text of a pattern without groups consists of its characters. -/
theorem Pattern.isLiteral_of_step?_none :
    ∀ {p : Pattern}, p.sound isLiteral = true → p.step? = none →
    ∀ c ∈ p.text, isLiteral c = true
  | .empty, _, _ => by simp [Pattern.text]
  | .char c rest, hsound, hstep => by
      rw [Pattern.sound, Bool.and_eq_true] at hsound
      intro d hd
      rcases List.mem_cons.mp hd with rfl | hd
      · exact hsound.1
      · exact isLiteral_of_step?_none hsound.2 (Option.map_eq_none_iff.mp hstep) d hd
  | .group alternatives rest, _, hstep => by
      rw [Pattern.step?] at hstep
      split at hstep <;> cases hstep

/-- **The commas of a group without groups in it are those between its alternatives.** -/
theorem Alternatives.pieces_text : ∀ {a : Alternatives}, a.sound = true → a.step? = none →
    Text.pieces (· == ',') a.text = a.toList.map Pattern.text ∧ ∀ c ∈ a.text, isBrace c = false
  | .last p, hsound, hstep => by
      have hliteral := p.isLiteral_of_step?_none hsound (Option.map_eq_none_iff.mp hstep)
      exact ⟨Text.pieces_of_forall fun c hc => ne_comma_of_isLiteral (hliteral c hc),
        fun c hc => isBrace_of_isLiteral (hliteral c hc)⟩
  | .more p others, hsound, hstep => by
      rw [Alternatives.sound, Bool.and_eq_true] at hsound
      rw [Alternatives.step?] at hstep
      split at hstep
      · cases hstep
      · next hp =>
          have hliteral := p.isLiteral_of_step?_none hsound.1 hp
          have hcomma : ∀ c ∈ p.text, (c == ',') = false :=
            fun c hc => ne_comma_of_isLiteral (hliteral c hc)
          obtain ⟨hpieces, hbraces⟩ := pieces_text hsound.2 (Option.map_eq_none_iff.mp hstep)
          constructor
          · rw [Alternatives.text, Text.pieces_append_cons hcomma rfl, hpieces]
            rfl
          · intro c hc
            rcases List.mem_append.mp hc with hc | hc
            · exact isBrace_of_isLiteral (hliteral c hc)
            · rcases List.mem_cons.mp hc with rfl | hc
              · decide
              · exact hbraces c hc

/-- A group is expanded at the first group in it, or as a whole. -/
theorem expands_group {a : Alternatives} (hsound : a.sound = true)
    (hstep : ∀ results, a.step? = some results →
      Expands a.text (results.map Alternatives.text) ∧ a.text.find? isBrace = some '\x7b')
    (rest : Pattern) {results : List Pattern} (h : (Pattern.group a rest).step? = some results) :
    Expands (Pattern.group a rest).text (results.map Pattern.text) := by
  rw [Pattern.step?] at h
  split at h
  · next inside hinside =>
      cases h
      obtain ⟨hexpands, hfirst⟩ := hstep inside hinside
      have hgroup := (hexpands.append_right ('\x7d' :: rest.text)).cons (c := '\x7b') ?_
      · simpa [Function.comp_def, Pattern.text] using hgroup
      · intro _ tail
        simp [List.find?_append, hfirst]
  · next hnone =>
      cases h
      obtain ⟨hpieces, hbraces⟩ := Alternatives.pieces_text hsound hnone
      refine ⟨[], a.text, rest.text, fun tail => ?_, ?_⟩
      · rw [Pattern.text, List.cons_append, List.append_assoc]
        exact group?_leaf hbraces _
      · simp [hpieces, Function.comp_def, Pattern.text_append]

mutual

/-- **A step of a pattern is a step of its text.** -/
theorem Pattern.expands : ∀ {p : Pattern} {results : List Pattern}, p.sound isLiteral = true →
    p.step? = some results →
      Expands p.text (results.map Pattern.text) ∧ p.text.find? isBrace = some '\x7b'
  | .empty, _, _, h => by cases h
  | .char c rest, _, hsound, h => by
      obtain ⟨results, hstep, rfl⟩ := Option.map_eq_some_iff.mp h
      rw [Pattern.sound, Bool.and_eq_true] at hsound
      have hbrace := isBrace_of_isLiteral hsound.1
      obtain ⟨hexpands, hfirst⟩ := rest.expands hsound.2 hstep
      constructor
      · have hone : ∀ d ∈ [c], isBrace d = false := by simpa using hbrace
        simpa [Function.comp_def, Pattern.text] using hexpands.append_left hone
      · rw [Pattern.text, List.find?_cons_of_neg (by simp [hbrace]), hfirst]
  | .group alternatives rest, _, hsound, h => by
      rw [Pattern.sound, Bool.and_eq_true] at hsound
      refine ⟨expands_group hsound.1 (fun results hstep =>
        alternatives.expands hsound.1 hstep) rest h, ?_⟩
      rfl

theorem Alternatives.expands : ∀ {a : Alternatives} {results : List Alternatives}, a.sound = true →
    a.step? = some results →
      Expands a.text (results.map Alternatives.text) ∧ a.text.find? isBrace = some '\x7b'
  | .last p, _, hsound, h => by
      obtain ⟨results, hstep, rfl⟩ := Option.map_eq_some_iff.mp h
      simpa [Function.comp_def, Alternatives.text] using p.expands hsound hstep
  | .more p others, _, hsound, h => by
      rw [Alternatives.sound, Bool.and_eq_true] at hsound
      rw [Alternatives.step?] at h
      split at h
      · next results hstep =>
          cases h
          obtain ⟨hexpands, hfirst⟩ := p.expands hsound.1 hstep
          constructor
          · have hbehind := hexpands.append_right (',' :: others.text)
            simpa [Function.comp_def, Alternatives.text] using hbehind
          · rw [Alternatives.text, List.find?_append, hfirst]
            rfl
      · next hnone =>
          obtain ⟨results, hstep, rfl⟩ := Option.map_eq_some_iff.mp h
          have hliteral := p.isLiteral_of_step?_none hsound.1 hnone
          obtain ⟨hexpands, hfirst⟩ := others.expands hsound.2 hstep
          have hfront : ∀ c ∈ p.text ++ [','], isBrace c = false := by
            intro c hc
            rcases List.mem_append.mp hc with hc | hc
            · exact isBrace_of_isLiteral (hliteral c hc)
            · rw [List.mem_singleton.mp hc]
              decide
          constructor
          · have hbefore := hexpands.append_left hfront
            simpa [Function.comp_def, Alternatives.text] using hbefore
          · have hnone : (p.text ++ [',']).find? isBrace = none :=
              List.find?_eq_none.mpr fun c hc => by simp [hfront c hc]
            rw [Alternatives.text, List.append_cons, List.find?_append, hnone, hfirst]
            rfl

end

/-! ## Braces outside of groups -/

/-- A closing brace that comes first stands outside of groups. -/
theorem Pattern.mem_strays_of_find? : ∀ {p : Pattern}, p.text.find? isBrace = some '\x7d' →
    '\x7d' ∈ p.strays
  | .empty, h => by cases h
  | .char c rest, h => by
      rw [Pattern.text, List.find?_cons] at h
      rw [Pattern.strays]
      cases hc : isBrace c with
      | true =>
          rw [hc] at h
          cases h
          exact List.mem_cons_self
      | false =>
          rw [hc] at h
          exact mem_strays_of_find? h
  | .group alternatives rest, h => by cases h

theorem Pattern.strays_of_sound : ∀ {p : Pattern}, p.sound isLiteral = true → p.strays = []
  | .empty, _ => rfl
  | .char c rest, h => by
      rw [Pattern.sound, Bool.and_eq_true] at h
      rw [Pattern.strays, isBrace_of_isLiteral h.1]
      exact strays_of_sound h.2
  | .group alternatives rest, h => by
      rw [Pattern.sound, Bool.and_eq_true] at h
      rw [Pattern.strays, strays_of_sound h.2]

theorem Pattern.sound_mono {kind kind' : Char → Bool} (hkind : ∀ c, kind c = true →
    kind' c = true) :
    ∀ {p : Pattern}, p.sound kind = true → p.sound kind' = true
  | .empty, _ => rfl
  | .char c rest, h => by
      rw [Pattern.sound, Bool.and_eq_true] at h ⊢
      exact ⟨hkind c h.1, sound_mono hkind h.2⟩
  | .group alternatives rest, h => by
      rw [Pattern.sound, Bool.and_eq_true] at h ⊢
      exact ⟨h.1, sound_mono hkind h.2⟩

theorem Alternatives.sound_iff : ∀ {a : Alternatives},
    a.sound = true ↔ ∀ p ∈ a.toList, p.sound isLiteral = true
  | .last p => by simp [sound, toList]
  | .more p others => by simp [sound, toList, others.sound_iff]

mutual

/-- A step keeps the characters outside of groups of a kind, if those of alternatives are of it. -/
theorem Pattern.sound_of_step? {kind : Char → Bool} (hkind : ∀ c, isLiteral c = true →
    kind c = true) :
    ∀ {p : Pattern} {results : List Pattern}, p.sound kind = true → p.step? = some results →
      ∀ q ∈ results, q.sound kind = true
  | .empty, _, _, h => by cases h
  | .char c rest, _, hsound, h => by
      obtain ⟨results, hstep, rfl⟩ := Option.map_eq_some_iff.mp h
      rw [Pattern.sound, Bool.and_eq_true] at hsound
      intro q hq
      obtain ⟨r, hr, rfl⟩ := List.mem_map.mp hq
      rw [Pattern.sound, hsound.1, rest.sound_of_step? hkind hsound.2 hstep r hr]
      rfl
  | .group alternatives rest, _, hsound, h => by
      rw [Pattern.sound, Bool.and_eq_true] at hsound
      rw [Pattern.step?] at h
      split at h
      · next results hstep =>
          cases h
          intro q hq
          obtain ⟨a, ha, rfl⟩ := List.mem_map.mp hq
          rw [Pattern.sound, alternatives.sound_of_step? hsound.1 hstep a ha, hsound.2]
          rfl
      · cases h
        intro q hq
        obtain ⟨p, hp, rfl⟩ := List.mem_map.mp hq
        rw [Pattern.sound_append, hsound.2, Pattern.sound_mono hkind
          (Alternatives.sound_iff.mp hsound.1 p hp)]
        rfl

theorem Alternatives.sound_of_step? : ∀ {a : Alternatives} {results : List Alternatives},
    a.sound = true → a.step? = some results → ∀ b ∈ results, b.sound = true
  | .last p, _, hsound, h => by
      obtain ⟨results, hstep, rfl⟩ := Option.map_eq_some_iff.mp h
      intro b hb
      obtain ⟨q, hq, rfl⟩ := List.mem_map.mp hb
      exact p.sound_of_step? (fun _ hc => hc) hsound hstep q hq
  | .more p others, _, hsound, h => by
      rw [Alternatives.sound, Bool.and_eq_true] at hsound
      rw [Alternatives.step?] at h
      split at h
      · next results hstep =>
          cases h
          intro b hb
          obtain ⟨q, hq, rfl⟩ := List.mem_map.mp hb
          rw [Alternatives.sound, p.sound_of_step? (fun _ hc => hc) hsound.1 hstep q hq, hsound.2]
          rfl
      · obtain ⟨results, hstep, rfl⟩ := Option.map_eq_some_iff.mp h
        intro b hb
        obtain ⟨c, hc, rfl⟩ := List.mem_map.mp hb
        rw [Alternatives.sound, others.sound_of_step? hsound.2 hstep c hc, hsound.1]
        rfl

end

/-- What stands outside of groups is left alone: the alternative that takes the place of a group
holds no brace. -/
theorem Pattern.strays_of_step? : ∀ {p : Pattern} {results : List Pattern},
    p.sound (fun _ => true) = true → p.step? = some results → ∀ q ∈ results, q.strays = p.strays
  | .empty, _, _, h => by cases h
  | .char c rest, _, hsound, h => by
      obtain ⟨results, hstep, rfl⟩ := Option.map_eq_some_iff.mp h
      rw [Pattern.sound, Bool.and_eq_true] at hsound
      intro q hq
      obtain ⟨r, hr, rfl⟩ := List.mem_map.mp hq
      rw [Pattern.strays, Pattern.strays, rest.strays_of_step? hsound.2 hstep r hr]
  | .group alternatives rest, _, hsound, h => by
      rw [Pattern.sound, Bool.and_eq_true] at hsound
      rw [Pattern.step?] at h
      split at h
      · cases h
        intro q hq
        obtain ⟨a, ha, rfl⟩ := List.mem_map.mp hq
        rfl
      · cases h
        intro q hq
        obtain ⟨p, hp, rfl⟩ := List.mem_map.mp hq
        rw [Pattern.strays_append, Pattern.strays_of_sound
          (Alternatives.sound_iff.mp hsound.1 p hp)]
        rfl

theorem Pattern.WellFormed.of_step? {p : Pattern} (hp : p.WellFormed) {results : List Pattern}
    (h : p.step? = some results) : ∀ q ∈ results, q.WellFormed := by
  intro q hq
  constructor
  · exact p.sound_of_step? (fun _ _ => rfl) hp.sound h q hq
  · rw [p.strays_of_step? hp.sound h q hq]
    exact hp.strays

/-- Behind an opening brace outside of groups there is no closing one outside of groups. -/
theorem Pattern.WellFormed.of_char {c : Char} {rest : Pattern} (h : (char c rest).WellFormed) :
    rest.WellFormed ∧ (c = '\x7b' → '\x7d' ∉ rest.strays) := by
  have hsound := h.sound
  rw [Pattern.sound, Bool.and_eq_true] at hsound
  have hstrays := h.strays
  rw [Pattern.strays] at hstrays
  refine ⟨⟨hsound.2, fun hrest => hstrays ?_⟩, ?_⟩
  · split
    · exact hrest.cons c
    · exact hrest
  · rintro rfl hmem
    exact hstrays ((List.singleton_sublist.mpr hmem).cons_cons _)

/-! ## The text of a whole pattern -/

theorem Pattern.WellFormed.group?_text : ∀ {p : Pattern} {results : List Pattern}, p.WellFormed →
    p.step? = some results → ∃ before inner after, group? p.text = some (before, inner, after) ∧
      (Text.pieces (· == ',') inner).map (before ++ · ++ after) = results.map Pattern.text
  | .empty, _, _, h => by cases h
  | .char c rest, _, hp, h => by
      obtain ⟨results, hstep, rfl⟩ := Option.map_eq_some_iff.mp h
      obtain ⟨hrest, hclose⟩ := hp.of_char
      obtain ⟨before, inner, after, hgroup, hresults⟩ := hrest.group?_text hstep
      refine ⟨c :: before, inner, after, ?_, ?_⟩
      · by_cases hc : c = '\x7b'
        · subst hc
          have hfirst : rest.text.find? isBrace ≠ some '\x7d' :=
            fun hfind => hclose rfl (Pattern.mem_strays_of_find? hfind)
          rw [Pattern.text, group?_open hfirst, hgroup]
          rfl
        · rw [Pattern.text, group?_cons_of_ne hc, hgroup]
          rfl
      · have hcons := congrArg (List.map (c :: ·)) hresults
        simpa [Function.comp_def, Pattern.text] using hcons
  | .group alternatives rest, _, hp, h => by
      have hsound := hp.sound
      rw [Pattern.sound, Bool.and_eq_true] at hsound
      obtain ⟨before, inner, after, hgroup, hresults⟩ :=
        expands_group hsound.1 (fun _ hstep => alternatives.expands hsound.1 hstep) rest h
      refine ⟨before, inner, after, ?_, hresults⟩
      simpa using hgroup []

theorem Pattern.filter_text : ∀ {p : Pattern}, p.step? = none → p.text.filter isBrace = p.strays
  | .empty, _ => rfl
  | .char c rest, h => by
      rw [Pattern.text, List.filter_cons, filter_text (Option.map_eq_none_iff.mp h)]
      rfl
  | .group alternatives rest, h => by
      rw [Pattern.step?] at h
      split at h <;> cases h

/-- The text of a pattern without groups has none either. -/
theorem Pattern.WellFormed.group?_eq_none {p : Pattern} (hp : p.WellFormed) (h : p.step? = none) :
    group? p.text = none := by
  rw [group?_eq_none_iff]
  intro hgroup
  have hbraces := hgroup.filter isBrace
  rw [Pattern.filter_text h] at hbraces
  exact hp.strays hbraces

/-- **The text of a pattern is expanded into what the pattern stands for.** -/
theorem mem_expandBraces_iff {p : Pattern} (hp : p.WellFormed) {s : List Char} :
    s ∈ expandBraces p.text ↔ s ∈ p.choices := by
  induction htext : p.text using expansion_induction generalizing p with
  | none cs hgroup =>
      cases hstep : p.step? with
      | none => rw [expandBraces_of_none hgroup, p.choices_of_step?_none hstep, htext]
      | some results =>
          obtain ⟨before, inner, after, hsome, -⟩ := hp.group?_text hstep
          rw [htext, hgroup] at hsome
          cases hsome
  | some cs before inner after hgroup ih =>
      cases hstep : p.step? with
      | none =>
          have hnone := hp.group?_eq_none hstep
          rw [htext, hgroup] at hnone
          cases hnone
      | some results =>
          obtain ⟨before', inner', after', hsome, hresults⟩ := hp.group?_text hstep
          rw [htext, hgroup] at hsome
          cases hsome
          rw [expandBraces_of_some hgroup, List.mem_eraseDups, List.mem_flatMap,
            Pattern.mem_choices_of_step? hstep]
          constructor
          · rintro ⟨alternative, halternative, hs⟩
            have hmem := List.mem_map_of_mem (f := (before ++ · ++ after)) halternative
            rw [hresults] at hmem
            obtain ⟨q, hq, hqtext⟩ := List.mem_map.mp hmem
            exact ⟨q, hq, (ih alternative halternative (hp.of_step? hstep q hq) hqtext).mp hs⟩
          · rintro ⟨q, hq, hs⟩
            have hmem := List.mem_map_of_mem (f := Pattern.text) hq
            rw [← hresults] at hmem
            obtain ⟨alternative, halternative, hqtext⟩ := List.mem_map.mp hmem
            exact ⟨alternative, halternative,
              (ih alternative halternative (hp.of_step? hstep q hq) hqtext.symm).mpr hs⟩

/-! ## Every text is the text of a pattern -/

def Alternatives.onFirst (f : Pattern → Pattern) : Alternatives → Alternatives
  | .last p => .last (f p)
  | .more p others => .more (f p) others

/-- The text of what was read so far from its end: the alternatives in front of closing braces that
are not opened yet, and the pattern behind the last of those. -/
def unopenedText : List Alternatives → Pattern → List Char
  | [], p => p.text
  | a :: as, p => a.text ++ '\x7d' :: unopenedText as p

/-- Alternatives in front of a pattern, with their commas for characters of their own. -/
def Alternatives.unwrapped : Alternatives → Pattern → Pattern
  | .last p, q => p.append q
  | .more p others, q => p.append (.char ',' (others.unwrapped q))

/-- What was read, when the closing braces are not opened any more. -/
def unopened : List Alternatives → Pattern → Pattern
  | [], p => p
  | a :: as, p => a.unwrapped (.char '\x7d' (unopened as p))

namespace Alternatives

theorem text_onFirst {f : Pattern → Pattern} {front : List Char}
    (hf : ∀ p, (f p).text = front ++ p.text) (a : Alternatives) :
    (a.onFirst f).text = front ++ a.text := by
  cases a with
  | last p => exact hf p
  | more p others => simp [onFirst, text, hf]

theorem sound_onFirst {f : Pattern → Pattern}
    (hf : ∀ p, p.sound isLiteral = true → (f p).sound isLiteral = true) {a : Alternatives}
    (h : a.sound = true) : (a.onFirst f).sound = true := by
  cases a with
  | last p => exact hf p h
  | more p others =>
      rw [sound, Bool.and_eq_true] at h
      rw [onFirst, sound, hf p h.1, h.2]
      rfl

theorem text_unwrapped : ∀ (a : Alternatives) (q : Pattern), (a.unwrapped q).text = a.text ++ q.text
  | .last p, q => p.text_append q
  | .more p others, q => by
      simp [unwrapped, text, Pattern.text_append, Pattern.text, others.text_unwrapped q]

theorem strays_unwrapped : ∀ {a : Alternatives} (q : Pattern), a.sound = true →
    (a.unwrapped q).strays = q.strays
  | .last p, q, h => by
      rw [unwrapped, Pattern.strays_append, Pattern.strays_of_sound h]
      rfl
  | .more p others, q, h => by
      rw [sound, Bool.and_eq_true] at h
      rw [unwrapped, Pattern.strays_append, Pattern.strays_of_sound h.1, Pattern.strays,
        strays_unwrapped q h.2]
      rfl

theorem sound_unwrapped : ∀ {a : Alternatives} {q : Pattern}, a.sound = true →
    q.sound (fun _ => true) = true → (a.unwrapped q).sound (fun _ => true) = true
  | .last p, q, h, hq => by
      rw [unwrapped, Pattern.sound_append, Pattern.sound_mono (fun _ _ => rfl) h, hq]
      rfl
  | .more p others, q, h, hq => by
      rw [sound, Bool.and_eq_true] at h
      rw [unwrapped, Pattern.sound_append, Pattern.sound_mono (fun _ _ => rfl) h.1, Pattern.sound,
        sound_unwrapped h.2 hq]
      rfl

end Alternatives

theorem text_unopened : ∀ (as : List Alternatives) (p : Pattern),
    (unopened as p).text = unopenedText as p
  | [], p => rfl
  | a :: as, p => by
      rw [unopened, a.text_unwrapped, Pattern.text, text_unopened as p]
      rfl

/-- A text is read from its end as alternatives that no brace opens and the pattern behind them. -/
structure ReadsBack (cs : List Char) (as : List Alternatives) (p : Pattern) : Prop where
  alternatives : ∀ a ∈ as, a.sound = true
  sound : p.sound (fun _ => true) = true
  strays : '\x7d' ∉ p.strays
  text : unopenedText as p = cs

/-- Closing braces that are not opened stand in front of all opening ones that are not closed. -/
theorem wellFormed_unopened : ∀ {cs : List Char} {as : List Alternatives} {p : Pattern},
    ReadsBack cs as p → (unopened as p).WellFormed
  | _, [], p, h => by
      refine ⟨h.sound, fun hgroup => h.strays ?_⟩
      exact hgroup.subset (by simp)
  | _, a :: as, p, h => by
      obtain ⟨ha, has⟩ := List.forall_mem_cons.mp h.alternatives
      have ih := wellFormed_unopened ⟨has, h.sound, h.strays, rfl⟩
      constructor
      · refine Alternatives.sound_unwrapped ha ?_
        rw [Pattern.sound, ih.sound]
        rfl
      · rw [unopened, Alternatives.strays_unwrapped _ ha, Pattern.strays, if_pos (by decide)]
        intro hgroup
        rcases List.sublist_cons_iff.mp hgroup with hgroup | ⟨rest, hrest, -⟩
        · exact ih.strays hgroup
        · cases hrest

/-- One more character in front of alternatives begins others, closes a group or belongs to the
first. -/
theorem ReadsBack.exists_cons_of_cons {cs : List Char} {a : Alternatives} {as : List Alternatives}
    {p : Pattern} (h : ReadsBack cs (a :: as) p) {c : Char} (hclose : c ≠ '\x7d') :
    ∃ as' p', ReadsBack (c :: cs) as' p' := by
  obtain ⟨ha, has⟩ := List.forall_mem_cons.mp h.alternatives
  have htext := h.text
  by_cases hopen : c = '\x7b'
  · subst hopen
    cases as with
    | nil =>
        refine ⟨[], .group a p, by simp, ?_, h.strays, congrArg _ htext⟩
        rw [Pattern.sound, ha, h.sound]
        rfl
    | cons b bs =>
        obtain ⟨hb, hbs⟩ := List.forall_mem_cons.mp has
        have hfirst : (b.onFirst (.group a)).sound = true := by
          refine Alternatives.sound_onFirst (fun q hq => ?_) hb
          rw [Pattern.sound, ha, hq]
          rfl
        have hgroup : (b.onFirst (.group a)).text = '\x7b' :: (a.text ++ ['\x7d']) ++ b.text :=
          b.text_onFirst fun q => by simp [Pattern.text]
        refine ⟨b.onFirst (.group a) :: bs, p, List.forall_mem_cons.mpr ⟨hfirst, hbs⟩, h.sound,
          h.strays, ?_⟩
        rw [← htext]
        simp [unopenedText, hgroup]
  -- an opening brace closes the innermost group that is read, a comma starts its next alternative
  by_cases hcomma : c = ','
  · subst hcomma
    exact ⟨.more .empty a :: as, p, List.forall_mem_cons.mpr ⟨ha, has⟩, h.sound, h.strays,
      congrArg _ htext⟩
  · have hliteral : isLiteral c = true := by simp [isLiteral, isBrace, hopen, hclose, hcomma]
    have hfirst : (a.onFirst (.char c)).sound = true := by
      refine Alternatives.sound_onFirst (fun q hq => ?_) ha
      rw [Pattern.sound, hliteral, hq]
      rfl
    have hchar : (a.onFirst (.char c)).text = [c] ++ a.text := a.text_onFirst fun q => rfl
    refine ⟨a.onFirst (.char c) :: as, p, List.forall_mem_cons.mpr ⟨hfirst, has⟩, h.sound,
      h.strays, ?_⟩
    rw [← htext]
    simp [unopenedText, hchar]

theorem exists_readsBack (cs : List Char) : ∃ as p, ReadsBack cs as p := by
  induction cs with
  | nil => exact ⟨[], .empty, by simp, rfl, by simp [Pattern.strays], rfl⟩
  | cons c cs ih =>
      obtain ⟨as, p, h⟩ := ih
      by_cases hclose : c = '\x7d'
      · subst hclose
        exact ⟨.last .empty :: as, p, List.forall_mem_cons.mpr ⟨rfl, h.alternatives⟩,
          h.sound, h.strays, congrArg _ h.text⟩
      cases as with
      | nil =>
          -- a character outside of groups
          refine ⟨[], .char c p, by simp, ?_, ?_, congrArg _ h.text⟩
          · rw [Pattern.sound, h.sound]
            rfl
          · rw [Pattern.strays]
            split
            · simp [h.strays, Ne.symm hclose]
            · exact h.strays
      | cons a as => exact h.exists_cons_of_cons hclose

/-- **Every text is the text of a pattern.** -/
theorem exists_pattern (cs : List Char) : ∃ p : Pattern, p.WellFormed ∧ p.text = cs := by
  obtain ⟨as, p, h⟩ := exists_readsBack cs
  exact ⟨unopened as p, wellFormed_unopened h, (text_unopened as p).trans h.text⟩

/-! ## Expanding a text -/

/-- **A text is expanded into what it stands for.** The expansion ends by itself after at most one
step for each opening brace. The patterns that result are pairwise different and hold no complete
group; a text without a complete group is left as it is. Every text is written for a pattern of
characters and groups, and whichever pattern it is written for, the results are the texts that are
obtained by taking one alternative from every group that is reached. -/
theorem expandBraces_denotes (text : List Char) :
    (∀ bound, text.count '\x7b' ≤ bound → expandWithin bound text = expandBraces text) ∧
      (expandBraces text).Nodup ∧ (∀ s ∈ expandBraces text, ¬ HasGroup s) ∧
      (¬ HasGroup text → expandBraces text = [text]) ∧
      (∃ p : Pattern, p.WellFormed ∧ p.text = text) ∧
      ∀ p : Pattern, p.WellFormed → p.text = text →
        ∀ s, s ∈ expandBraces text ↔ s ∈ p.choices := by
  refine ⟨?_, nodup_expandBraces text, fun s hs => not_hasGroup_of_mem hs, ?_,
    exists_pattern text, ?_⟩
  · exact fun bound hbound => expandWithin_eq hbound (Nat.le_refl _)
  · exact fun hnone => expandBraces_of_none (group?_eq_none_iff.mpr hnone)
  · rintro p hp rfl s
    exact mem_expandBraces_iff hp

/-- A group in an alternative of another, with an empty alternative, and a brace without a
partner. -/
def nestedGroups : Pattern :=
  .group
    (.more (.char 'a' (.group (.more (.char 'b' .empty) (.last .empty)) .empty))
      (.last (.char 'c' .empty)))
    (.char '\x7d' .empty)

theorem expandBraces_denotes_nested :
    nestedGroups.WellFormed ∧ nestedGroups.text = "\x7ba\x7bb,\x7d,c\x7d\x7d".toList ∧
      ∀ s, s ∈ expandBraces "\x7ba\x7bb,\x7d,c\x7d\x7d".toList ↔
        s ∈ ["ab\x7d".toList, "a\x7d".toList, "c\x7d".toList] := by
  have h : nestedGroups.WellFormed := ⟨by decide, by decide⟩
  refine ⟨h, by decide, ?_⟩
  exact (expandBraces_denotes "\x7ba\x7bb,\x7d,c\x7d\x7d".toList).2.2.2.2.2 nestedGroups h
    (by decide)

end TokenCatalog.Project
