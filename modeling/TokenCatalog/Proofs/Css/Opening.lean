import TokenCatalog.Proofs.Css.Comment
import TokenCatalog.Proofs.Css.Respaced

/-!
# Functions and their brackets

A tree holds a function only where the text has its bracket, whatever faults stand around it. Main
statement:

* `bracket_mem_of_function`: so it is in the outermost row.
-/

namespace TokenCatalog.Css

def Node.isFunction : Node → Bool
  | .function _ _ _ => true
  | _ => false

/-- Nothing that is nested so far is a function, and no function is open. -/
structure Nesting.Bare (n : Nesting) : Prop where
  current : ∀ node ∈ n.current, node.isFunction = false
  frames : ∀ frame ∈ n.frames, (∃ bracket, frame.opener = .block bracket) ∧
    ∀ node ∈ frame.before, node.isFunction = false

/-- The node of a block that was open is no function. -/
theorem isFunction_close {frame : Frame} (h : ∃ bracket, frame.opener = .block bracket)
    (content : List Node) : (frame.close content).isFunction = false := by
  obtain ⟨bracket, hbracket⟩ := h
  rw [Frame.close_eq, hbracket]
  rfl

theorem Nesting.Bare.add {n : Nesting} (h : n.Bare) {l : Located}
    (hl : ∀ name, l.lexeme ≠ .openFunction name) : (n.add l).Bare := by
  have hleaf : ∀ p leaf, ∀ node ∈ Node.leaf p leaf :: n.current, node.isFunction = false :=
    fun p leaf => List.forall_mem_cons.mpr ⟨rfl, h.current⟩
  unfold Nesting.add
  split
  · exact ⟨hleaf _ _, h.frames⟩
  · next name hname => exact absurd hname (hl name)
  · next bracket _ =>
      refine ⟨fun _ hnode => (List.not_mem_nil hnode).elim, ?_⟩
      exact List.forall_mem_cons.mpr ⟨⟨⟨bracket, rfl⟩, h.current⟩, h.frames⟩
  · split
    · next frame frames hframes =>
        obtain ⟨⟨hopener, hbefore⟩, hothers⟩ := List.forall_mem_cons.mp (hframes ▸ h.frames)
        split
        · exact ⟨List.forall_mem_cons.mpr ⟨isFunction_close hopener _, hbefore⟩, hothers⟩
        · exact ⟨hleaf _ _, h.frames⟩
    · exact ⟨hleaf _ _, nofun⟩

theorem isFunction_closeAll {frames : List Frame} {current : List Node}
    (h : Nesting.Bare ⟨frames, current⟩) :
    ∀ node ∈ closeAll frames current, node.isFunction = false := by
  induction frames generalizing current with
  | nil => exact fun node hnode => h.current node (List.mem_reverse.mp hnode)
  | cons frame frames ih =>
      obtain ⟨⟨hopener, hbefore⟩, hothers⟩ := List.forall_mem_cons.mp h.frames
      exact ih ⟨List.forall_mem_cons.mpr ⟨isFunction_close hopener _, hbefore⟩, hothers⟩

/-- Lexemes that open no function nest to no function. -/
theorem isFunction_nest {lexemes : List Located}
    (h : ∀ l ∈ lexemes, ∀ name, l.lexeme ≠ .openFunction name) :
    ∀ node ∈ nest lexemes, node.isFunction = false := by
  have hfold : ∀ n : Nesting, n.Bare → (lexemes.foldl Nesting.add n).Bare := by
    induction lexemes with
    | nil => exact fun n hn => hn
    | cons l lexemes ih =>
        rw [List.forall_mem_cons] at h
        exact fun n hn => ih h.2 _ (hn.add h.1)
  exact isFunction_closeAll (hfold ⟨[], []⟩ ⟨nofun, nofun⟩)

theorem bracket_mem_of_scan {c : Char} {cs name : List Char}
    (h : Lexeme.openFunction name ∈ (scan c cs).lexemes) : '(' ∈ c :: cs := by
  have hkind := scan_kind c cs
  generalize hscan : scan c cs = scanned at h hkind
  cases hkind with
  | leaf => cases List.mem_singleton.mp h
  | comment => cases List.mem_singleton.mp h
  | ended =>
      rcases List.mem_cons.mp h with h | h
      · cases h
      · cases List.mem_singleton.mp h
  | opening c cs opener more =>
      cases opener with
      | block bracket => cases List.mem_singleton.mp h
      | function name =>
          refine List.mem_of_mem_drop (?_ : '(' ∈ (c :: cs).drop (takeName (c :: cs)).2)
          rw [(openFunction_of_scan hscan).2.2]
          exact List.mem_cons_self
  | closing => cases List.mem_singleton.mp h

/-- A function is opened only where its bracket stands. -/
theorem not_openFunction {position : Position} {cs : List Char} (h : '(' ∉ cs) :
    ∀ l ∈ lexemesFrom position cs, ∀ name, l.lexeme ≠ .openFunction name := by
  induction position, cs using lexemesFrom.induct with
  | case1 =>
      rw [lexemesFrom]
      exact fun l hl => (List.not_mem_nil hl).elim
  | case2 position c cs s ih =>
      intro l hl name hopen
      rw [lexemesFrom, List.mem_append] at hl
      rcases hl with hhere | hlater
      · obtain ⟨lexeme, hlexeme, rfl⟩ := List.mem_map.mp hhere
        obtain rfl : lexeme = .openFunction name := hopen
        exact h (bracket_mem_of_scan hlexeme)
      · have hrest : '(' ∉ cs.drop s.more := fun hrest =>
          h (List.mem_cons_of_mem c (List.mem_of_mem_drop hrest))
        exact ih hrest l hlater name hopen

/-- **A tree holds a function only where the text has its bracket.** -/
theorem bracket_mem_of_function {cs : List Char} {p : Position} {name : List Char}
    {arguments : List Node} (h : .function p name arguments ∈ parse cs) : '(' ∈ cs := by
  refine Decidable.byContradiction fun hnone => ?_
  have huniform : '(' ∉ uniform cs := by
    intro hmem
    obtain ⟨xs, ys, hxs⟩ := List.append_of_mem hmem
    have hinfix : ['('] <:+: uniform cs := ⟨xs, ys, by rw [hxs, List.append_assoc]; rfl⟩
    have hretouched : Text.Retouched (· == '(') (uniform cs) cs :=
      uniform_retouched (by decide) (by decide) cs
    have hword : ∀ c ∈ ['('], (c == '(') = true := List.all_eq_true.mp rfl
    exact hnone ((hretouched.contains hword hinfix).subset List.mem_cons_self)
  cases isFunction_nest (not_openFunction huniform) _ h

end TokenCatalog.Css
