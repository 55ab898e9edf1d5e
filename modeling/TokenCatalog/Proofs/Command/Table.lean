import Mathlib.Data.List.Forall2
import TokenCatalog.Command.Terminal
import TokenCatalog.Proofs.Text.Pieces

/-!
# Tables as columns of text

A table has forgotten its cells: it is lines of text, each trimmed at its end. The widths of the
columns are greatest widths, so every cell has room in its column, and the padding can be told from
the cells, which do not end in a blank. Main statements:

* `plain_append`: no escape sequence goes on past the end of a cell;
* `Fits.exists_line`: what is trimmed off a line is padding;
* `Fits.cutAt_layout`: a line cut where its columns begin gives back its cells;
* `table_in_columns`: the same of all lines of a table, at the same places.
-/

namespace TokenCatalog.Command

open Text (OnLine EndsFirm isBlank collapse dropRightWhile)

/-! ## Escape sequences -/

/-- Nothing is written that is not in the text. -/
theorem plainFrom_sublist (skipped : Nat) (cs : List Char) : (plainFrom skipped cs).Sublist cs := by
  induction skipped, cs using plainFrom.induct with
  | case1 skipped => rw [plainFrom]
  | case2 skipped c cs ih =>
      rw [plainFrom]
      exact ih.cons c
  | case3 c cs rest hrest ih =>
      rw [plainFrom, hrest]
      exact ih.cons c
  | case4 c cs hrest ih =>
      rw [plainFrom, hrest]
      exact ih.cons_cons c

theorem plain_cons_iff {c : Char} {cs : List Char} :
    plain (c :: cs) = c :: cs ↔
      (c = escapeChar → afterSequence? cs = none) ∧ plain cs = cs := by
  rw [plain, plainFrom, plain]
  constructor
  · intro h
    split at h
    · -- a sequence that is left out is missing in what is written
      next rest hrest =>
        have hlength := (plainFrom_sublist (cs.length - rest.length) cs).length_le
        rw [h, List.length_cons] at hlength
        omega
    · next hnone =>
        refine ⟨fun hc => ?_, (List.cons.inj h).2⟩
        rwa [if_pos hc] at hnone
  · rintro ⟨hc, hcs⟩
    have hnone : (if c = escapeChar then afterSequence? cs else none) = none := by
      split
      · next hescape => exact hc hescape
      · rfl
    rw [hnone, hcs]

/-- What is no escape sequence does not become one by what follows a space. -/
theorem afterSequence?_append {cs rest : List Char} (h : afterSequence? cs = none)
    (hrest : ∀ c ∈ rest.head?, c = ' ') : afterSequence? (cs ++ rest) = none := by
  have hspace : rest.dropWhile isSequenceChar = rest := by
    cases rest with
    | nil => rfl
    | cons c rest =>
        obtain rfl := hrest c rfl
        rfl
  -- a sequence ends with a letter, and neither a space nor the end of the text is one
  have hnone : ∀ xs : List Char,
      (∀ c ∈ (xs.dropWhile isSequenceChar).head?, c = ' ' ∨ c.isAlpha = false) →
      afterSequence? ('[' :: xs) = none := by
    intro xs hxs
    rw [afterSequence?]
    cases hdrop : xs.dropWhile isSequenceChar with
    | nil => rfl
    | cons c more =>
        rw [hdrop] at hxs
        refine if_neg ?_
        rcases hxs c rfl with rfl | hc
        · decide
        · rw [hc]
          decide
  cases cs with
  | nil =>
      cases rest with
      | nil => rfl
      | cons c rest =>
          obtain rfl := hrest c rfl
          rfl
  | cons c cs =>
      by_cases hc : c = '['
      · subst hc
        rw [afterSequence?] at h
        rw [List.cons_append]
        refine hnone _ fun d hd => ?_
        rw [List.dropWhile_append, hspace] at hd
        split at hd
        · exact .inl (hrest d hd)
        · cases hdrop : cs.dropWhile isSequenceChar with
          | nil =>
              rw [hdrop] at hd
              exact .inl (hrest d hd)
          | cons e es =>
              rw [hdrop] at h hd
              obtain rfl : e = d := Option.some.inj hd
              refine .inr (Bool.eq_false_iff.mpr fun halpha => ?_)
              have h : (if e.isAlpha then some es else none) = none := h
              rw [if_pos halpha] at h
              cases h
      · rw [List.cons_append]
        exact afterSequence?.eq_2 _ fun tail heq => hc (List.cons.inj heq).1

/-- **No escape sequence goes on past a space.** -/
theorem plain_append {cs rest : List Char} (h : plain cs = cs) (hrest : ∀ c ∈ rest.head?, c = ' ')
    (hplain : plain rest = rest) : plain (cs ++ rest) = cs ++ rest := by
  induction cs with
  | nil => exact hplain
  | cons c cs ih =>
      obtain ⟨hc, hcs⟩ := plain_cons_iff.mp h
      rw [List.cons_append, plain_cons_iff]
      exact ⟨fun hescape => afterSequence?_append (hc hescape) hrest, ih hcs⟩

/-- What is an escape sequence stays one, whatever follows it. -/
theorem afterSequence?_append_of_eq_some {cs after : List Char} (h : afterSequence? cs = some after)
    (rest : List Char) : afterSequence? (cs ++ rest) = some (after ++ rest) := by
  cases cs with
  | nil => cases h
  | cons c cs =>
      by_cases hc : c = '['
      · subst hc
        rw [afterSequence?] at h
        rw [List.cons_append, afterSequence?, List.dropWhile_append]
        cases hdrop : cs.dropWhile isSequenceChar with
        | nil =>
            rw [hdrop] at h
            cases h
        | cons e es =>
            rw [hdrop] at h
            have h : (if e.isAlpha then some es else none) = some after := h
            show (if e.isAlpha then some (es ++ rest) else none) = some (after ++ rest)
            split at h
            · next halpha => rw [if_pos halpha, Option.some.inj h]
            · cases h
      · rw [afterSequence?.eq_2 _ fun tail heq => hc (List.cons.inj heq).1] at h
        cases h

theorem plain_of_append {cs rest : List Char} (h : plain (cs ++ rest) = cs ++ rest) :
    plain cs = cs := by
  induction cs with
  | nil => rfl
  | cons c cs ih =>
      obtain ⟨hc, hcs⟩ := plain_cons_iff.mp h
      refine plain_cons_iff.mpr ⟨fun hescape => ?_, ih hcs⟩
      cases hafter : afterSequence? cs with
      | none => rfl
      | some after =>
          cases (afterSequence?_append_of_eq_some hafter rest).symm.trans (hc hescape)

theorem plain_of_not_mem {cs : List Char} (h : escapeChar ∉ cs) : plain cs = cs := by
  induction cs with
  | nil => rfl
  | cons c cs ih =>
      rw [List.mem_cons, not_or] at h
      exact plain_cons_iff.mpr ⟨fun hc => absurd hc.symm h.1, ih h.2⟩

/-! ## Cells and their room -/

/-- What a table shows of a cell: its text with blanks collapsed, if that has at most sixty
characters, and otherwise the first fifty-seven of them and three points. -/
inductive Shows (cell : List Char) : List Char → Prop
  | whole (h : (collapse cell).length ≤ 60) : Shows cell (collapse cell)
  | cut (h : 60 < (collapse cell).length) : Shows cell ((collapse cell).take 57 ++ ['.', '.', '.'])

theorem shows_fitCell (cell : List Char) : Shows cell (fitCell cell) := by
  unfold fitCell
  dsimp only
  split
  · next h => exact .whole h
  · next h => exact .cut (Nat.lt_of_not_le h)

theorem Shows.eq_fitCell {cell shown : List Char} (h : Shows cell shown) :
    shown = fitCell cell := by
  cases h with
  | whole h => exact (if_pos h).symm
  | cut h => exact (if_neg (Nat.not_le_of_lt h)).symm

theorem Shows.endsFirm {cell shown : List Char} (h : Shows cell shown) : EndsFirm shown := by
  cases h with
  | whole => exact Text.endsFirm_collapse cell
  | cut =>
      refine Text.EndsFirm.append (fun c hc => ?_) (by decide) _
      cases hc
      decide

/-- A cell shows no character of its own but points and spaces. -/
theorem Shows.mem {cell shown : List Char} (h : Shows cell shown) {c : Char} (hc : c ∈ shown) :
    c = '.' ∨ c = ' ' ∨ c ∈ cell ∧ isBlank c = false := by
  cases h with
  | whole => exact .inr (Text.mem_collapse hc)
  | cut =>
      rcases List.mem_append.mp hc with hc | hc
      · exact .inr (Text.mem_collapse (List.mem_of_mem_take hc))
      · left
        simpa using hc

theorem Shows.onLine {cell shown : List Char} (h : Shows cell shown) : OnLine shown := by
  refine Text.onLine_of_blanks fun c hc hblank => ?_
  rcases h.mem hc with rfl | rfl | ⟨-, hfirm⟩
  · revert hblank
    decide
  · rfl
  · rw [hfirm] at hblank
    cases hblank

theorem Shows.escapeChar_not_mem {cell shown : List Char} (h : Shows cell shown)
    (hcell : escapeChar ∉ cell) : escapeChar ∉ shown := by
  intro hmem
  rcases h.mem hmem with hpoint | hspace | ⟨hin, -⟩
  · revert hpoint
    decide
  · revert hspace
    decide
  · exact hcell hin

/-- Cells that fit into columns and end where their last character stands. -/
def Fits (widths : List Nat) (cells : List (List Char)) : Prop :=
  List.Forall₂ (fun width cell => cell.length ≤ width ∧ EndsFirm cell) widths cells

theorem le_foldl_max (xs : List Nat) (least : Nat) :
    least ≤ xs.foldl max least ∧ ∀ x ∈ xs, x ≤ xs.foldl max least := by
  induction xs generalizing least with
  | nil => exact ⟨Nat.le_refl least, nofun⟩
  | cons x xs ih =>
      obtain ⟨hleast, hxs⟩ := ih (max least x)
      refine ⟨(Nat.le_max_left _ _).trans hleast, ?_⟩
      exact List.forall_mem_cons.mpr ⟨(Nat.le_max_right _ _).trans hleast, hxs⟩

theorem length_columnWidths (rows : List (List (List Char))) (headers : List (List Char)) :
    (columnWidths rows headers).length = headers.length := by
  induction headers generalizing rows with
  | nil => rfl
  | cons header headers ih => rw [columnWidths, List.length_cons, List.length_cons, ih]

theorem fits_headers (rows : List (List (List Char))) {headers : List (List Char)}
    (h : ∀ header ∈ headers, EndsFirm header) : Fits (columnWidths rows headers) headers := by
  induction headers generalizing rows with
  | nil => exact .nil
  | cons header headers ih =>
      obtain ⟨hheader, hheaders⟩ := List.forall_mem_cons.mp h
      exact .cons ⟨(le_foldl_max _ _).1, hheader⟩ (ih _ hheaders)

theorem fits_row {rows : List (List (List Char))} {headers row : List (List Char)}
    (hrow : row ∈ rows) (hlength : row.length = headers.length) (h : ∀ cell ∈ row, EndsFirm cell) :
    Fits (columnWidths rows headers) row := by
  induction headers generalizing rows row with
  | nil =>
      obtain rfl := List.length_eq_zero_iff.mp hlength
      exact .nil
  | cons header headers ih =>
      cases row with
      | nil => cases hlength
      | cons cell row =>
          obtain ⟨hcell, hcells⟩ := List.forall_mem_cons.mp h
          have hwidth := (le_foldl_max (rows.map fun row => (row.head?.getD []).length)
            header.length).2 _ (List.mem_map_of_mem hrow)
          refine .cons ⟨hwidth, hcell⟩ (ih ?_ (Nat.succ.inj hlength) hcells)
          exact List.mem_map_of_mem (f := List.drop 1) hrow

/-! ## Lines -/

def layout (widths : List Nat) (cells : List (List Char)) : List Char :=
  Text.joinWith [' ', ' '] (widths.zipWith leftAligned cells)

theorem layout_singleton (width : Nat) (cell : List Char) :
    layout [width] [cell] = leftAligned width cell := by
  simp [layout, Text.joinWith]

theorem layout_cons {width width' : Nat} {widths : List Nat} {cell cell' : List Char}
    {cells : List (List Char)} :
    layout (width :: width' :: widths) (cell :: cell' :: cells) =
      leftAligned width cell ++ ([' ', ' '] ++ layout (width' :: widths) (cell' :: cells)) :=
  rfl

def AreSpaces (cs : List Char) : Prop :=
  ∀ c ∈ cs, c = ' '

theorem areSpaces_gap : AreSpaces [' ', ' '] := by
  simp [AreSpaces]

theorem AreSpaces.blank {cs : List Char} (h : AreSpaces cs) : ∀ c ∈ cs, isBlank c = true := by
  intro c hc
  rw [h c hc]
  decide

theorem exists_leftAligned (width : Nat) (cell : List Char) :
    ∃ spaces, AreSpaces spaces ∧ leftAligned width cell = cell ++ spaces :=
  ⟨_, fun _ hc => List.eq_of_mem_replicate hc, rfl⟩

theorem length_leftAligned {width : Nat} {cell : List Char} (h : cell.length ≤ width) :
    (leftAligned width cell).length = width := by
  rw [leftAligned, List.length_append, List.length_replicate]
  omega

/-- **What is trimmed off a line is padding.** -/
theorem Fits.exists_line {widths : List Nat} {cells : List (List Char)} (h : Fits widths cells) :
    ∃ spaces, AreSpaces spaces ∧ EndsFirm (tableLine widths cells) ∧
      layout widths cells = tableLine widths cells ++ spaces := by
  suffices hcore : ∃ core spaces, AreSpaces spaces ∧ EndsFirm core ∧
      layout widths cells = core ++ spaces by
    obtain ⟨core, spaces, hspaces, hfirm, hlayout⟩ := hcore
    have hline : tableLine widths cells = core := by
      show dropRightWhile isBlank (layout widths cells) = core
      rw [hlayout, Text.dropRightWhile_append hspaces.blank, Text.dropRightWhile_eq_self hfirm]
    exact ⟨spaces, hspaces, hline ▸ hfirm, hline ▸ hlayout⟩
  induction h with
  | nil => exact ⟨[], [], nofun, nofun, rfl⟩
  | @cons width cell widths cells hcell hcells ih =>
      obtain ⟨padding, hpadding, haligned⟩ := exists_leftAligned width cell
      cases hcells with
      | nil => exact ⟨cell, padding, hpadding, hcell.2, by rw [layout_singleton, haligned]⟩
      | cons hnext hrest =>
          obtain ⟨core, spaces, hspaces, hfirm, hlayout⟩ := ih
          rw [layout_cons, hlayout, haligned]
          cases core with
          -- all cells behind this one are empty, and the line ends with it
          | nil =>
              refine ⟨cell, padding ++ ([' ', ' '] ++ spaces), ?_, hcell.2, by simp⟩
              simp only [AreSpaces, List.forall_mem_append]
              exact ⟨hpadding, areSpaces_gap, hspaces⟩
          | cons c core =>
              refine ⟨cell ++ (padding ++ ([' ', ' '] ++ c :: core)), spaces, hspaces, ?_, by simp⟩
              rw [← List.append_assoc, ← List.append_assoc]
              exact hfirm.append (List.cons_ne_nil _ _) _

theorem onLine_tableLine {widths : List Nat} {cells : List (List Char)}
    (h : ∀ cell ∈ cells, OnLine cell) : OnLine (tableLine widths cells) := by
  have hspace : Text.isLineBreak ' ' = false := by decide
  have hlayout : OnLine (layout widths cells) := by
    refine Text.forall_mem_joinWith (by simp [hspace]) fun part hpart => ?_
    obtain ⟨i, hi, rfl⟩ := List.getElem_of_mem hpart
    rw [List.getElem_zipWith]
    refine Text.OnLine.append (h _ (List.getElem_mem _)) fun c hc => ?_
    rw [List.eq_of_mem_replicate hc]
    exact hspace
  refine fun c hc => hlayout c (List.mem_reverse.mp ?_)
  exact (List.dropWhile_sublist _).subset (List.mem_reverse.mp hc)

/-- Spaces in front of a text begin no escape sequence. -/
theorem plain_spaces_append {spaces rest : List Char} (hspaces : AreSpaces spaces)
    (h : plain rest = rest) : plain (spaces ++ rest) = spaces ++ rest := by
  induction spaces with
  | nil => exact h
  | cons space spaces ih =>
      obtain ⟨rfl, hmore⟩ := List.forall_mem_cons.mp hspaces
      exact plain_cons_iff.mpr ⟨fun hc => absurd hc (by decide), ih hmore⟩

theorem Fits.plain_layout {widths : List Nat} {cells : List (List Char)} (h : Fits widths cells)
    (hcells : ∀ cell ∈ cells, plain cell = cell) :
    plain (layout widths cells) = layout widths cells := by
  induction h with
  | nil => rfl
  | @cons width cell widths cells hcell hrest ih =>
      obtain ⟨hplain, hcells⟩ := List.forall_mem_cons.mp hcells
      obtain ⟨padding, hpadding, haligned⟩ := exists_leftAligned width cell
      cases hrest with
      | nil =>
          rw [layout_singleton, haligned]
          refine plain_append hplain (fun c hc => hpadding c (List.mem_of_mem_head? hc)) ?_
          exact plain_of_not_mem fun hmem => absurd (hpadding _ hmem) (by decide)
      | cons hnext hrest =>
          rw [layout_cons, haligned, List.append_assoc]
          refine plain_append hplain ?_ (plain_spaces_append hpadding ?_)
          · intro c hc
            cases padding with
            | nil => exact (Option.some.inj hc).symm
            | cons space padding => exact Option.some.inj hc ▸ hpadding _ List.mem_cons_self
          · exact plain_spaces_append areSpaces_gap (ih hcells)

/-- **A line of cells without escape sequences has none.** -/
theorem Fits.plain_line {widths : List Nat} {cells : List (List Char)} (h : Fits widths cells)
    (hcells : ∀ cell ∈ cells, plain cell = cell) :
    plain (tableLine widths cells) = tableLine widths cells := by
  obtain ⟨spaces, -, -, hlayout⟩ := h.exists_line
  exact plain_of_append (hlayout ▸ h.plain_layout hcells)

/-! ## Columns -/

/-- Where columns of these widths begin, the first one at the given place. -/
def columnStarts (start : Nat) : List Nat → List Nat
  | [] => []
  | width :: widths => start :: columnStarts (start + width + 2) widths

/-- The pieces of a line that begin at the given places, without the spaces at their ends. -/
def cutAt (line : List Char) : List Nat → List (List Char)
  | [] => []
  | [start] => [dropRightWhile (· == ' ') (line.drop start)]
  | start :: next :: starts =>
    dropRightWhile (· == ' ') ((line.take next).drop start) :: cutAt line (next :: starts)

/-- Cells that begin at the given places and have two spaces or more between them. -/
inductive Apart : List Nat → List (List Char) → Prop
  | nil : Apart [] []
  | last (start : Nat) (cell : List Char) : Apart [start] [cell]
  | cons {start next : Nat} {starts : List Nat} {cell : List Char} {cells : List (List Char)}
      (hgap : start + cell.length + 2 ≤ next) (hrest : Apart (next :: starts) cells) :
      Apart (start :: next :: starts) (cell :: cells)

/-- A line that holds the cells at the given places and nothing else. -/
structure Aligned (starts : List Nat) (cells : List (List Char)) (line : List Char) : Prop where
  apart : Apart starts cells
  cut : cutAt line starts = cells
  endsFirm : EndsFirm line

theorem length_columnStarts (start : Nat) (widths : List Nat) :
    (columnStarts start widths).length = widths.length := by
  induction widths generalizing start with
  | nil => rfl
  | cons width widths ih => rw [columnStarts, List.length_cons, List.length_cons, ih]

theorem dropRightWhile_spaces {cs spaces : List Char} (h : EndsFirm cs)
    (hspaces : AreSpaces spaces) :
    dropRightWhile (· == ' ') (cs ++ spaces) = cs := by
  rw [Text.dropRightWhile_append fun c hc => beq_iff_eq.mpr (hspaces c hc)]
  refine Text.dropRightWhile_eq_self fun c hc => beq_eq_false_iff_ne.mpr ?_
  rintro rfl
  exact absurd (h _ hc) (by decide)

/-- Cutting does not see what was trimmed. -/
theorem cutAt_append_spaces {spaces : List Char} (h : AreSpaces spaces) (line : List Char)
    (starts : List Nat) : cutAt (line ++ spaces) starts = cutAt line starts := by
  have hdrop {xs : List Char} (hxs : AreSpaces xs) (cs : List Char) (n : Nat) :
      dropRightWhile (· == ' ') ((cs ++ xs).drop n) = dropRightWhile (· == ' ') (cs.drop n) := by
    rw [List.drop_append, Text.dropRightWhile_append fun c hc => ?_]
    exact beq_iff_eq.mpr (hxs c (List.mem_of_mem_drop hc))
  induction starts using cutAt.induct with
  | case1 => rfl
  | case2 start => rw [cutAt, cutAt, hdrop h]
  | case3 start next starts ih =>
      rw [cutAt, cutAt, ih, List.take_append, hdrop fun c hc => h c (List.mem_of_mem_take hc)]

/-- **A line cut where its columns begin gives back its cells.** -/
theorem Fits.cutAt_layout {widths : List Nat} {cells : List (List Char)} (h : Fits widths cells)
    (front : List Char) :
    cutAt (front ++ layout widths cells) (columnStarts front.length widths) = cells := by
  induction h generalizing front with
  | nil => rfl
  | @cons width cell widths cells hcell hrest ih =>
      obtain ⟨padding, hpadding, haligned⟩ := exists_leftAligned width cell
      cases hrest with
      | nil =>
          rw [layout_singleton, columnStarts, columnStarts, cutAt, List.drop_left, haligned,
            dropRightWhile_spaces hcell.2 hpadding]
      | @cons width' cell' widths cells hnext hrest =>
          have hgap : AreSpaces (padding ++ [' ', ' ']) :=
            List.forall_mem_append.mpr ⟨hpadding, areSpaces_gap⟩
          -- the column and the gap behind it stand in front of all other columns
          have hfront : (front ++ (cell ++ (padding ++ [' ', ' ']))).length
              = front.length + width + 2 := by
            have hwidth := length_leftAligned hcell.1
            rw [haligned] at hwidth
            simp only [List.length_append, List.length_cons, List.length_nil] at hwidth ⊢
            omega
          have hlayout : front ++ layout (width :: width' :: widths) (cell :: cell' :: cells) =
              (front ++ (cell ++ (padding ++ [' ', ' ']))) ++
                layout (width' :: widths) (cell' :: cells) := by
            rw [layout_cons, haligned]
            simp only [List.append_assoc]
          have hcells := ih (front ++ (cell ++ (padding ++ [' ', ' '])))
          rw [← hlayout, hfront, columnStarts] at hcells
          rw [columnStarts, columnStarts, cutAt, hcells]
          congr 1
          rw [hlayout, ← hfront, List.take_left, List.drop_left,
            dropRightWhile_spaces hcell.2 hgap]

theorem Fits.apart {widths : List Nat} {cells : List (List Char)} (h : Fits widths cells)
    (start : Nat) : Apart (columnStarts start widths) cells := by
  induction h generalizing start with
  | nil => exact .nil
  | @cons width cell widths cells hcell hrest ih =>
      cases hrest with
      | nil => exact .last start cell
      | cons hnext hrest => exact .cons (by have := hcell.1; omega) (ih _)

theorem Fits.aligned {widths : List Nat} {cells : List (List Char)} (h : Fits widths cells) :
    Aligned (columnStarts 0 widths) cells (tableLine widths cells) := by
  obtain ⟨spaces, hspaces, hfirm, hlayout⟩ := h.exists_line
  have hcut := h.cutAt_layout []
  rw [List.nil_append, hlayout, cutAt_append_spaces hspaces] at hcut
  exact ⟨h.apart 0, hcut, hfirm⟩

/-! ## Tables -/

theorem forall₂_shows (row : List (List Char)) : List.Forall₂ Shows row (row.map fitCell) :=
  List.forall₂_map_right_iff.mpr (List.forall₂_same.mpr fun cell _ => shows_fitCell cell)

theorem tableFault?_eq_none {columns : Nat} {rows : List (List (List Char))}
    (h : ∀ row ∈ rows, row.length = columns) : tableFault? columns rows = none := by
  have hshort : rows.any (·.length < columns) = false := by
    rw [List.any_eq_false]
    intro row hrow
    simp [h row hrow]
  have hlong : rows.any (columns < ·.length) = false := by
    rw [List.any_eq_false]
    intro row hrow
    simp [h row hrow]
  simp [tableFault?, hshort, hlong]

/-- A line for the headers and a line for each row. -/
theorem Terminal.table_eq {t : Terminal} (hcolor : t.color = false) (hquiet : t.quiet = false)
    (headers : List (List Char)) (rows : List (List (List Char))) :
    t.table headers rows =
      ((headers :: rows.map (·.map fitCell)).map fun cells =>
        plain (tableLine (columnWidths (rows.map (·.map fitCell)) headers) cells)).map fun line =>
          (.out, line ++ ['\n']) := by
  have hline (cs : List Char) : t.line cs = [(.out, plain cs ++ ['\n'])] := by
    simp [line, written, hcolor, hquiet]
  simp only [table, hline, style, hcolor, List.map_cons, List.map_map, ← List.map_eq_flatMap]
  rfl

theorem Output.on_map_out (lines : List (List Char)) :
    Output.on .out (lines.map fun line => (.out, line ++ ['\n'])) = lines.flatMap (· ++ ['\n']) ∧
      Output.on .err (lines.map fun line => (.out, line ++ ['\n'])) = [] := by
  induction lines with
  | nil => exact ⟨rfl, rfl⟩
  | cons line lines ih => exact ⟨congrArg ((line ++ ['\n']) ++ ·) ih.1, ih.2⟩

/-- **Tables are columns of text that hold what their cells show.** The columns of a table begin at
the same places in all lines, and a line cut there gives back what the cells of its row show. The
headers are shown as they are, but only where no escape sequence is taken out of them: their room is
counted with it. -/
theorem table_in_columns {t : Terminal} (hcolor : t.color = false) (hquiet : t.quiet = false)
    {headers : List (List Char)} {rows : List (List (List Char))}
    (hheaders : ∀ header ∈ headers, header ≠ [] ∧ OnLine header ∧ Text.strip header = header)
    (hrows : ∀ row ∈ rows, row.length = headers.length ∧ ∀ cell ∈ row, escapeChar ∉ cell) :
    tableFault? headers.length rows = none ∧
      ∃ starts first others, starts.length = headers.length ∧
        (t.table headers rows).on .err = [] ∧
        (t.table headers rows).on .out = (first :: others).flatMap (· ++ ['\n']) ∧
        Text.lines ((t.table headers rows).on .out) = first :: others ∧
        others.length = rows.length ∧
        List.Forall₂ (fun row line =>
          ∃ cells, List.Forall₂ Shows row cells ∧ Aligned starts cells line) rows others ∧
        ((∀ header ∈ headers, plain header = header) → Aligned starts headers first) := by
  refine ⟨tableFault?_eq_none fun row hrow => (hrows row hrow).1, ?_⟩
  have hfirm : ∀ header ∈ headers, EndsFirm header := fun header hheader =>
    Text.endsFirm_of_strip (hheaders header hheader).2.2
  have hfits : Fits (columnWidths (rows.map (·.map fitCell)) headers) headers :=
    fits_headers _ hfirm
  have hfitsRow : ∀ row ∈ rows, Fits (columnWidths (rows.map (·.map fitCell)) headers)
      (row.map fitCell) := by
    intro row hrow
    refine fits_row (List.mem_map_of_mem hrow) (by rw [List.length_map, (hrows row hrow).1]) ?_
    exact List.forall_mem_map.mpr fun cell _ => (shows_fitCell cell).endsFirm
  -- the cells have no escape character, so that no line loses anything but in the headers
  have hplainRow : ∀ row ∈ rows, ∀ cell ∈ row.map fitCell, plain cell = cell := by
    intro row hrow
    refine List.forall_mem_map.mpr fun cell hcell => plain_of_not_mem ?_
    exact (shows_fitCell cell).escapeChar_not_mem ((hrows row hrow).2 cell hcell)
  have hlength := length_columnWidths (rows.map (·.map fitCell)) headers
  generalize hwidths : columnWidths (rows.map (·.map fitCell)) headers = widths
    at hfits hfitsRow hlength
  have htable := Terminal.table_eq hcolor hquiet headers rows
  rw [hwidths, List.map_cons, List.map_map] at htable
  have hout := Output.on_map_out (plain (tableLine widths headers) ::
    rows.map ((fun cells => plain (tableLine widths cells)) ∘ (·.map fitCell)))
  rw [← htable] at hout
  refine ⟨columnStarts 0 widths, _, _, (length_columnStarts 0 widths).trans hlength, hout.2,
    hout.1, ?_, List.length_map _, ?_, ?_⟩
  · rw [hout.1]
    refine Text.lines_flatMap_feed (List.forall_mem_cons.mpr ⟨?_, List.forall_mem_map.mpr ?_⟩)
    · have hline := @onLine_tableLine widths headers fun header hheader =>
        (hheaders header hheader).2.1
      exact fun c hc => hline c ((plainFrom_sublist 0 _).subset hc)
    · intro row hrow
      have hline := @onLine_tableLine widths (row.map fitCell)
        (List.forall_mem_map.mpr fun cell _ => (shows_fitCell cell).onLine)
      exact fun c hc => hline c ((plainFrom_sublist 0 _).subset hc)
  · refine List.forall₂_map_right_iff.mpr (List.forall₂_same.mpr fun row hrow => ?_)
    refine ⟨row.map fitCell, forall₂_shows row, ?_⟩
    rw [Function.comp_apply, (hfitsRow row hrow).plain_line (hplainRow row hrow)]
    exact (hfitsRow row hrow).aligned
  · intro hplain
    rw [hfits.plain_line hplain]
    exact hfits.aligned

/-- Cells may be empty, and blanks of any kind may stand in them. -/
theorem table_in_columns_emptyCell :
    ∃ starts, Aligned starts ["Name".toList, "Kind".toList] "Name  Kind".toList ∧
      Aligned starts ["a b".toList, []] "a b".toList := by
  have htable := @table_in_columns { color := false } rfl rfl ["Name".toList, "Kind".toList]
    [["\ta\nb".toList, []]] (by decide) (by decide)
  obtain ⟨-, starts, first, others, -, -, -, hlines, -, hrows, hheaders⟩ := htable
  have hout : first :: others = ["Name  Kind".toList, "a b".toList] := hlines.symm.trans (by decide)
  obtain ⟨rfl, rfl⟩ := List.cons.inj hout
  obtain _ | ⟨⟨cells, hcells, hrow⟩, -⟩ := hrows
  obtain _ | ⟨hname, _ | ⟨hkind, _ | _⟩⟩ := hcells
  obtain rfl := hname.eq_fitCell
  obtain rfl := hkind.eq_fitCell
  exact ⟨starts, hheaders (by decide), hrow⟩

/-- The room of a header is counted with the escape sequences that are taken out of it afterwards,
and then no places fit both lines. -/
theorem escapedHeader_not_in_columns :
    let headers := ["\x1b[1mA".toList, "B".toList]
    let row := ["x".toList, "y".toList]
    (∀ header ∈ headers, header ≠ [] ∧ OnLine header ∧ Text.strip header = header) ∧
      (∀ cell ∈ row, escapeChar ∉ cell) ∧
      (({ color := false } : Terminal).table headers [row]).on .out = "A  B\nx      y\n".toList ∧
      ¬ ∃ starts, Aligned starts row "x      y".toList ∧
        (Aligned starts headers "A  B".toList ∨
          Aligned starts (headers.map plain) "A  B".toList) := by
  refine ⟨by decide, by decide, by decide, ?_⟩
  rintro ⟨starts, ⟨hapart, hrow, -⟩, hheader⟩
  cases hapart with
  | @cons _ second _ _ _ _ hrest =>
      obtain _ | _ | ⟨_, ⟨⟩⟩ := hrest
      have hy : dropRightWhile (· == ' ') ("x      y".toList.drop second) = ['y'] :=
        (List.cons.inj (List.cons.inj hrow).2).1
      have hB : dropRightWhile (· == ' ') ("A  B".toList.drop second) = ['B'] := by
        rcases hheader with ⟨-, h, -⟩ | ⟨-, h, -⟩ <;>
          exact (List.cons.inj (List.cons.inj h).2).1
      have hsecond : second < 8 := by
        refine Nat.lt_of_not_le fun hle => ?_
        rw [List.drop_eq_nil_of_le (show "x      y".toList.length ≤ second from hle)] at hy
        cases hy
      have hnone : ∀ n < 8, dropRightWhile (· == ' ') ("x      y".toList.drop n) = ['y'] →
          dropRightWhile (· == ' ') ("A  B".toList.drop n) ≠ ['B'] := by decide
      exact hnone second hsecond hy hB

end TokenCatalog.Command
