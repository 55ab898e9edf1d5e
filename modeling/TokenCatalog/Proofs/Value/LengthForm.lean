import TokenCatalog.Proofs.Css.Respaced
import TokenCatalog.Proofs.Css.Row
import TokenCatalog.Proofs.Value.FunctionalColor
import TokenCatalog.Proofs.Value.HexColor
import TokenCatalog.Proofs.Value.Hint

/-!
# The normal form of lengths

The normal form of one to four lengths is their text in lower case with single spaces. It is read as
the same lengths again, so it is its own normal form. Main statements:

* `Measure`: the tokens that are lengths, with the numerals that they hold;
* `Measure.separate`: a length is read as a whole in front of a space;
* `Measure.of_parse`: every length of a text is such a token;
* `lengths_settled`: what the normal form of lengths holds, and that it is classified as itself.
-/

namespace TokenCatalog.Value

open TokenCatalog.Css (Node Leaf Numeral ColorFault IsNumeral EndsNumeral EndsName Delimits Separate
  significant splitCommas)

/-! ## Lengths as tokens -/

/-- A leaf that is a length, a percentage or a bare zero, with a numeral that can be read. -/
inductive Measure : Leaf → Prop
  | dimension {n : Numeral} {unit : List Char} (h : IsNumeral n.text)
      (hunit : isUnitOf lengthUnits unit = true) : Measure (.dimension n unit)
  | percentage {n : Numeral} (h : IsNumeral n.text) : Measure (.percentage n)
  | zero {n : Numeral} (h : IsNumeral n.text) (hzero : n.value.isZero = true) : Measure (.number n)

def lowerNumeral (n : Numeral) : Numeral :=
  ⟨Text.asciiLower n.text⟩

/-- A leaf with its numeral and its unit in lower case. -/
def lowerLeaf : Leaf → Leaf
  | .number n => .number (lowerNumeral n)
  | .percentage n => .percentage (lowerNumeral n)
  | .dimension n unit => .dimension (lowerNumeral n) (Text.asciiLower unit)
  | leaf => leaf

theorem value_lowerNumeral (n : Numeral) : (lowerNumeral n).value = n.value := by
  rw [Numeral.value, Numeral.value, lowerNumeral, Css.read_asciiLower]

theorem isUnitOf_asciiLower (units : List String) (unit : List Char) :
    isUnitOf units (Text.asciiLower unit) = isUnitOf units unit := by
  rw [isUnitOf, isUnitOf, Text.asciiLower_asciiLower]

theorem Measure.lower {leaf : Leaf} (h : Measure leaf) : Measure (lowerLeaf leaf) := by
  cases h with
  | dimension h hunit => exact .dimension h.lower ((isUnitOf_asciiLower _ _).trans hunit)
  | percentage h => exact .percentage h.lower
  | zero h hzero => exact .zero h.lower (by rw [value_lowerNumeral, hzero])

/-! ## Units -/

/-- A unit of a length: two or more letters. -/
structure IsUnit (unit : List Char) : Prop where
  letter : ∀ c ∈ unit, c.isAlpha = true
  long : 2 ≤ unit.length

theorem isUnit_of_isUnitOf {unit : List Char} (h : isUnitOf lengthUnits unit = true) :
    IsUnit unit := by
  obtain ⟨u, hu, hlower⟩ := List.any_eq_true.mp h
  have hlower : Text.asciiLower unit = u.toList := of_decide_eq_true hlower
  have hknown : lengthUnits.all (fun u => u.toList.all Char.isAlpha && 2 ≤ u.toList.length) =
      true := by
    decide
  have hletters := List.all_eq_true.mp hknown u hu
  rw [Bool.and_eq_true, List.all_eq_true, decide_eq_true_eq] at hletters
  obtain ⟨hletter, hlong⟩ := hletters
  rw [← hlower] at hletter hlong
  constructor
  · intro c hc
    have hlow := hletter c.toLower (List.mem_map_of_mem hc)
    rw [Text.isAlpha_iff] at hlow ⊢
    rcases Text.toLower_cases c with ⟨hrange, -⟩ | ⟨-, hsame⟩
    · exact .inl hrange
    · rwa [hsame] at hlow
  · rwa [Text.asciiLower, List.length_map] at hlong

theorem isNameStart_of_isAlpha {c : Char} (h : c.isAlpha = true) : Css.isNameStart c = true := by
  rw [Css.isNameStart, h]
  rfl

theorem isNameChar_of_isAlpha {c : Char} (h : c.isAlpha = true) : Css.isNameChar c = true :=
  Css.isNameChar_of_isNameStart (isNameStart_of_isAlpha h)

/-- A unit is written as it is: its second character is no hyphen. -/
theorem IsUnit.write_eq {unit : List Char} (h : IsUnit unit) : Css.writeUnit unit = unit := by
  obtain ⟨hletter, hlong⟩ := h
  match unit, hletter, hlong with
  | c :: d :: cs, hletter, _ =>
      have hhyphen : d ≠ '-' := by
        rintro rfl
        exact absurd (hletter '-' (by simp)) (by decide)
      rw [List.forall_mem_cons] at hletter
      have hident := Css.writeIdent_start (isNameStart_of_isAlpha hletter.1)
        fun e he => isNameChar_of_isAlpha (hletter.2 e he)
      unfold Css.writeUnit
      split
      · next h => cases h
      · next h => exact absurd (List.cons.inj (List.cons.inj h).2).1 hhyphen
      · exact hident

/-- Neither a digit nor an exponent begins with a unit. -/
theorem IsUnit.endsNumeral {unit : List Char} (h : IsUnit unit) (rest : List Char) :
    EndsNumeral (unit ++ rest) := by
  obtain ⟨hletter, hlong⟩ := h
  match unit, hletter, hlong with
  | c :: d :: cs, hletter, _ =>
      have hne : ∀ {e : Char}, e ∈ c :: d :: cs → isDigit e = false ∧ e ≠ '.' ∧ e ≠ '+' ∧
          e ≠ '-' := by
        intro e he
        have halpha := Text.isAlpha_iff.mp (hletter e he)
        refine ⟨?_, ?_, ?_, ?_⟩
        · rw [← Bool.not_eq_true, Text.isDigit_iff]
          omega
        all_goals
          rintro rfl
          revert halpha
          decide
      obtain ⟨hdigit, hpoint, -, -⟩ := hne List.mem_cons_self
      obtain ⟨hdigit', -, hplus, hminus⟩ := hne (e := d) (by simp)
      refine ⟨?_, ?_, ?_⟩
      · rintro e ⟨⟩
        exact hdigit
      · rw [List.cons_append, Css.takeFraction_cons, if_neg hpoint]
      · have hsign : Css.leadingSign (d :: (cs ++ rest)) = [] := by
          rw [Css.leadingSign_cons, if_neg hplus, if_neg hminus]
        rw [List.cons_append, List.cons_append, Css.takeExponent_cons, hsign, List.length_nil,
          List.drop_zero, List.takeWhile_cons_of_neg (by rw [hdigit']; decide)]
        simp

/-! ## Reading a length -/

theorem endsNumeral_of_delimits {rest : List Char} (h : Delimits rest) : EndsNumeral rest := by
  cases rest with
  | nil => exact ⟨nofun, rfl, rfl⟩
  | cons c cs =>
      rcases h c rfl with rfl | rfl
      · exact ⟨by rintro c ⟨⟩; decide, rfl, rfl⟩
      · exact ⟨by rintro c ⟨⟩; decide, rfl, rfl⟩

theorem startsIdent_of_delimits {rest : List Char} (h : Delimits rest) :
    Css.startsIdent rest = false := by
  cases rest with
  | nil => rfl
  | cons c cs => rcases h c rfl with rfl | rfl <;> rfl

/-- A text that begins with a numeral is scanned as one, with what follows. -/
theorem scan_numeral {c : Char} {cs : List Char} (h : IsNumeral (c :: cs)) :
    Css.isSpace c = false ∧ ∀ rest, EndsNumeral rest →
      Css.scan c (cs ++ rest) = Css.scanNumeric (c :: cs) rest := by
  have hnumeral : ∀ rest, EndsNumeral rest →
      Css.takeNumeral (c :: (cs ++ rest)) = c :: cs := fun rest hrest => h.takeNumeral_append hrest
  have hne : ∀ rest, EndsNumeral rest → Css.takeNumeral (c :: (cs ++ rest)) ≠ [] := by
    intro rest hrest
    rw [hnumeral rest hrest]
    exact List.cons_ne_nil c cs
  constructor
  · exact Css.not_isSpace (Css.isBlank_of_quantity (hne [] (endsNumeral_of_delimits nofun)))
  · intro rest hrest
    rw [(Css.scan_of_numeral (hne rest hrest)).2, hnumeral rest hrest, ← List.cons_append,
      List.drop_left]

theorem IsUnit.startsIdent {unit : List Char} (h : IsUnit unit) (rest : List Char) :
    Css.startsIdent (unit ++ rest) = true := by
  obtain ⟨hletter, hlong⟩ := h
  match unit, hletter, hlong with
  | c :: cs, hletter, _ =>
      have hstart := isNameStart_of_isAlpha (hletter c List.mem_cons_self)
      have hhyphen : c ≠ '-' := by
        rintro rfl
        cases hstart
      rw [List.cons_append, Css.startsIdent_cons, if_neg hhyphen, hstart, Bool.true_or]

theorem endsNumeral_percent (rest : List Char) : EndsNumeral ('%' :: rest) :=
  ⟨by rintro c ⟨⟩; decide, rfl, rfl⟩

/-- **A length is read as a whole in front of a space.** -/
theorem Measure.separate {leaf : Leaf} (h : Measure leaf) : Separate [⟨leaf.write, leaf⟩] := by
  cases h with
  | @dimension n unit h hunit =>
      have hunit := isUnit_of_isUnitOf hunit
      obtain ⟨text⟩ := n
      obtain ⟨c, cs, rfl⟩ := List.exists_cons_of_ne_nil h.ne_nil
      obtain ⟨hfirm, hscan⟩ := scan_numeral h
      rw [Leaf.write, hunit.write_eq, List.cons_append]
      refine Css.separate_token hfirm fun rest hrest => ?_
      have hname := Css.takeName_append (fun c hc => isNameChar_of_isAlpha (hunit.letter c hc))
        (Css.endsName_of_delimits hrest)
      rw [List.append_assoc, hscan _ (hunit.endsNumeral rest), Css.scanNumeric,
        if_pos (hunit.startsIdent rest), hname, List.length_append, List.length_cons]
      simp only [Css.Scan.one, Css.Scan.mk.injEq, true_and]
      omega
  | @percentage n h =>
      obtain ⟨text⟩ := n
      obtain ⟨c, cs, rfl⟩ := List.exists_cons_of_ne_nil h.ne_nil
      obtain ⟨hfirm, hscan⟩ := scan_numeral h
      rw [Leaf.write, List.cons_append]
      refine Css.separate_token hfirm fun rest hrest => ?_
      rw [List.append_assoc, List.singleton_append, hscan _ (endsNumeral_percent rest),
        Css.scanNumeric, Css.startsIdent_percent, List.length_append]
      rfl
  | @zero n h hzero =>
      obtain ⟨text⟩ := n
      obtain ⟨c, cs, rfl⟩ := List.exists_cons_of_ne_nil h.ne_nil
      obtain ⟨hfirm, hscan⟩ := scan_numeral h
      refine Css.separate_token hfirm fun rest hrest => ?_
      have hpercent : rest.head? ≠ some '%' := by
        intro hhead
        rcases hrest _ hhead with h | h <;> cases h
      rw [hscan rest (endsNumeral_of_delimits hrest), Css.scanNumeric,
        startsIdent_of_delimits hrest, if_neg (by decide), if_neg hpercent]
      rfl

/-! ## Lower case -/

/-- A length in lower case is written as its text in lower case. -/
theorem Measure.write_lower {leaf : Leaf} (h : Measure leaf) :
    (lowerLeaf leaf).write = Text.asciiLower leaf.write := by
  cases h with
  | @dimension n unit h hunit =>
      have hlower := isUnit_of_isUnitOf ((isUnitOf_asciiLower lengthUnits unit).trans hunit)
      rw [lowerLeaf, Leaf.write, Leaf.write, hlower.write_eq, (isUnit_of_isUnitOf hunit).write_eq,
        Text.asciiLower_append]
      rfl
  | @percentage n h =>
      rw [lowerLeaf, Leaf.write, Leaf.write, Text.asciiLower_append]
      rfl
  | zero h hzero => rfl

/-! ## The lengths of a text -/

/-- A length is a dimension, a percentage or a number. -/
theorem cases_of_isLength {P : Node → Prop}
    (hdimension : ∀ p n unit, P (.leaf p (.dimension n unit)))
    (hpercentage : ∀ p n, P (.leaf p (.percentage n))) (hnumber : ∀ p n, P (.leaf p (.number n)))
    {node : Node} (h : isLength node = true) : P node :=
  match node, h with
  | .leaf p (.dimension n unit), _ => hdimension p n unit
  | .leaf p (.percentage n), _ => hpercentage p n
  | .leaf p (.number n), _ => hnumber p n

theorem Measure.of_scan {c : Char} {cs : List Char} {p : Css.Position} {leaf : Leaf} {more : Nat}
    (hscan : Css.scan c cs = .one leaf more) (h : isLength (.leaf p leaf) = true) :
    Measure leaf := by
  cases leaf with
  | dimension n unit => exact .dimension (Css.isNumeral_of_scan hscan rfl) h
  | percentage n => exact .percentage (Css.isNumeral_of_scan hscan rfl)
  | number n => exact .zero (Css.isNumeral_of_scan hscan rfl) h
  | _ => cases h

/-- What stands among lengths: lengths, blanks and comments. -/
theorem mem_cases {nodes : List Node} (h : ∀ node ∈ significant nodes, isLength node = true)
    {node : Node} (hnode : node ∈ nodes) : node.isFiller = true ∨ isLength node = true := by
  cases hfiller : node.isFiller with
  | true => exact .inl rfl
  | false => exact .inr (h node (List.mem_filter.mpr ⟨hnode, by rw [hfiller]; rfl⟩))

theorem firstFault?_of_lengths {nodes : List Node}
    (h : ∀ node ∈ significant nodes, isLength node = true) : Css.firstFault? nodes = none := by
  refine Css.firstFault?_of_forall fun node hnode => ?_
  rcases mem_cases h hnode with hfiller | hlength
  · match node, hfiller with
    | .leaf _ (.whitespace _), _ => rfl
    | .leaf _ (.comment _), _ => rfl
  · exact cases_of_isLength (P := (Node.firstFault? · = none)) (fun _ _ _ => rfl) (fun _ _ => rfl)
      (fun _ _ => rfl) hlength

/-- **The lengths of a text hold numerals.** -/
theorem Measure.of_parse {cs : List Char}
    (h : ∀ node ∈ significant (Css.parse cs), isLength node = true) :
    ∃ leaves, Css.AreLeaves (significant (Css.parse cs)) leaves ∧ ∀ leaf ∈ leaves,
      Measure leaf := by
  obtain ⟨q, hspans⟩ := Css.parse_spans (firstFault?_of_lengths h)
  refine Css.exists_areLeaves fun node hnode => ?_
  have hlength := h node hnode
  cases node with
  | leaf p leaf =>
      obtain ⟨c, cs, more, hscan, -⟩ := hspans.exists_scan (List.filter_sublist.subset hnode)
      exact ⟨p, leaf, rfl, .of_scan hscan hlength⟩
  | function => cases hlength
  | block => cases hlength

/-! ## What lengths are recognized as -/

section

variable {nodes : List Node} (h : ∀ node ∈ significant nodes, isLength node = true)

include h

theorem isGradient_of_lengths : isGradient nodes = .ok false := by
  refine isGradient_of_forall fun node hnode => ?_
  rcases mem_cases h hnode with hfiller | hlength
  · cases node with
    | leaf => rfl
    | _ => cases hfiller
  · cases node with
    | leaf => rfl
    | _ => cases hlength

theorem splitCommas_of_lengths : splitCommas nodes = [nodes] := by
  refine Css.splitCommas_of_no_comma fun node hnode => ?_
  rcases mem_cases h hnode with hfiller | hlength
  · exact Css.isLiteral_of_isFiller hfiller _
  · exact cases_of_isLength (P := fun node => node.isLiteral [','] = false) (fun _ _ _ => rfl)
      (fun _ _ => rfl) (fun _ _ => rfl) hlength

theorem isShadow_of_lengths : isShadow nodes = .ok false := by
  have hcolor : ∀ node ∈ significant nodes, isColorNode node = .ok false := by
    intro node hnode
    exact cases_of_isLength (P := (isColorNode · = .ok false)) (fun _ _ _ => rfl) (fun _ _ => rfl)
      (fun _ _ => rfl) (h node hnode)
  have hlayer : isShadowLayer nodes = .ok false := by
    unfold isShadowLayer
    split
    · rfl
    · next first rest hrow =>
        have hsub : first :: rest ⊆ significant nodes := hrow ▸ List.filter_sublist.subset
        rw [hcolor _ (hsub (List.getLast_mem _)), hcolor _ (hsub List.mem_cons_self)]
        rfl
  rw [isShadow, splitCommas_of_lengths h, areShadowLayers, hlayer]
  rfl

theorem recognizeNodes_of_lengths {name : List Char} {c : Classified}
    (hlengths : lengths? nodes name = some c) (candidate : List Char) :
    recognizeNodes candidate name nodes = .ok (some c) := by
  have hfamilies : families? nodes name = none := by
    rw [families?_eq]
    cases hparts : (splitCommas nodes).mapM family? with
    | none => rfl
    | some families =>
        rw [lengths?_of_families hparts] at hlengths
        cases hlengths
  rw [recognizeNodes, isGradient_of_lengths h, isShadow_of_lengths h, hfamilies, ← hlengths]
  rfl

end

/-! ## The characters of lengths -/

def isLengthChar (c : Char) : Bool :=
  c.isAlpha || isDigit c || ['+', '-', '.', '%'].contains c

theorem isLengthChar_of_digits {cs : List Char} (h : ∀ c ∈ cs, isDigit c = true) :
    ∀ c ∈ cs, isLengthChar c = true := by
  intro c hc
  rw [isLengthChar, h c hc, Bool.or_true, Bool.true_or]

theorem isLengthChar_of_sign {sign : List Char} (h : Css.IsSign sign) :
    ∀ c ∈ sign, isLengthChar c = true := by
  rcases h with rfl | rfl | rfl
  · exact List.forall_mem_nil _
  · exact List.forall_mem_singleton.mpr rfl
  · exact List.forall_mem_singleton.mpr rfl

theorem isLengthChar_of_numeral {text : List Char} (h : IsNumeral text) :
    ∀ c ∈ text, isLengthChar c = true := by
  cases h with
  | parts hsign hwhole hfraction hdigits hexponent =>
      simp only [List.forall_mem_append]
      refine ⟨isLengthChar_of_sign hsign, isLengthChar_of_digits hwhole, ?_, ?_⟩
      · cases hfraction with
        | none => exact nofun
        | point h => exact List.forall_mem_cons.mpr ⟨by decide, isLengthChar_of_digits h.digit⟩
      · cases hexponent with
        | none => exact nofun
        | letter he hsign h =>
            rw [List.forall_mem_cons, List.forall_mem_append]
            refine ⟨?_, isLengthChar_of_sign hsign, isLengthChar_of_digits h.digit⟩
            rcases he with rfl | rfl <;> decide

theorem Measure.isLengthChar {leaf : Leaf} (h : Measure leaf) :
    ∀ c ∈ leaf.write, isLengthChar c = true := by
  cases h with
  | @dimension n unit h hunit =>
      have hunit := isUnit_of_isUnitOf hunit
      rw [Leaf.write, hunit.write_eq, List.forall_mem_append]
      refine ⟨isLengthChar_of_numeral h, fun c hc => ?_⟩
      rw [Value.isLengthChar, hunit.letter c hc, Bool.true_or, Bool.true_or]
  | percentage h =>
      rw [Leaf.write, List.forall_mem_append]
      exact ⟨isLengthChar_of_numeral h, List.forall_mem_singleton.mpr rfl⟩
  | zero h => exact isLengthChar_of_numeral h

/-- The characters of lengths are ASCII characters above the space, the exclamation mark and the
hash. -/
theorem toNat_of_isLengthChar {c : Char} (h : isLengthChar c = true) :
    36 < c.toNat ∧ c.toNat < 123 := by
  rw [isLengthChar, Bool.or_eq_true, Bool.or_eq_true, Text.isAlpha_iff, Text.isDigit_iff] at h
  rcases h with (h | h) | h
  · omega
  · omega
  · simp only [List.contains_eq_mem, List.mem_cons, List.not_mem_nil, or_false,
      decide_eq_true_eq] at h
    rcases h with rfl | rfl | rfl | rfl <;> decide

/-! ## The normal form -/

theorem normalColor?_of_lengths {cs name : List Char} (hname : isColorName name = false)
    (hhash : cs.head? ≠ some '#')
    (h : ∀ node ∈ significant (Css.parse cs), isLength node = true) :
    normalColor? cs name = .ok none := by
  have hdigits : colorDigits? cs name = none := by
    have hnone : hashDigits? cs = none := by
      unfold hashDigits?
      split
      · exact absurd rfl hhash
      · rfl
    rw [colorDigits?, hnone, hname]
    rfl
  have hcolor : Css.color? cs = .ok none := by
    unfold Css.color? Css.parseOne?
    split
    · next node hone =>
        split at hone
        · next only honly =>
            cases hone
            rw [honly] at h
            exact cases_of_isLength (P := (Node.color? · = .ok none)) (fun _ _ _ => rfl)
              (fun _ _ => rfl) (fun _ _ => rfl) (h node List.mem_cons_self)
        · cases hone
    · rfl
  rw [normalColor?_eq, hdigits, hcolor]
  rfl

theorem Measure.isLength {leaf : Leaf} (h : Measure leaf) (p : Css.Position) :
    isLength (.leaf p leaf) = true := by
  cases h with
  | dimension h hunit => exact hunit
  | percentage h => rfl
  | zero h hzero => exact hzero

theorem isBareNumber_lower {xs ys : List Node} {leaves : List Leaf} (hx : Css.AreLeaves xs leaves)
    (hy : Css.AreLeaves ys (leaves.map lowerLeaf)) : isBareNumber ys = isBareNumber xs := by
  cases hx with
  | nil =>
      cases hy
      rfl
  | cons p leaf hx =>
      cases hy with
      | cons q lower hy =>
          cases hx with
          | nil =>
              cases hy
              cases leaf <;> rfl
          | cons =>
              cases hy
              cases leaf <;> rfl

/-- Lengths have the same kind and the same normal form in lower case. -/
theorem lengths?_lower {xs ys : List Node} {leaves : List Leaf}
    (hx : Css.AreLeaves (significant xs) leaves)
    (hy : Css.AreLeaves (significant ys) (leaves.map lowerLeaf))
    (hleaves : ∀ leaf ∈ leaves, Measure leaf) (name : List Char) :
    lengths? ys name = lengths? xs name := by
  have hlength : (significant ys).length = (significant xs).length := by
    rw [hx.length_eq, hy.length_eq, List.length_map]
  have htext : (significant ys).map (fun node => Text.asciiLower node.write) =
      (significant xs).map fun node => Text.asciiLower node.write := by
    rw [hx.map_eq (g := fun leaf => Text.asciiLower leaf.write) fun _ _ => rfl,
      hy.map_eq (g := fun leaf => Text.asciiLower leaf.write) fun _ _ => rfl, List.map_map]
    refine List.map_congr_left fun leaf hleaf => ?_
    rw [Function.comp_apply, (hleaves leaf hleaf).write_lower, Text.asciiLower_asciiLower]
  have hall : ∀ {nodes measures}, Css.AreLeaves nodes measures →
      (∀ leaf ∈ measures, Measure leaf) → nodes.all isLength = true := by
    intro nodes measures hnodes hmeasures
    refine List.all_eq_true.mpr fun node hnode => ?_
    obtain ⟨p, leaf, hleaf, rfl⟩ := hnodes.exists_mem hnode
    exact (hmeasures leaf hleaf).isLength p
  have hlower : ∀ leaf ∈ leaves.map lowerLeaf, Measure leaf := by
    rw [List.forall_mem_map]
    exact fun leaf hleaf => (hleaves leaf hleaf).lower
  unfold lengths?
  dsimp only
  rw [htext, hlength, hall hx hleaves, hall hy hlower, isBareNumber_lower hx hy]

/-- Two leaves are the same length: the same number, and the same unit up to letter case. -/
inductive SameLength : Leaf → Leaf → Prop
  | dimension {m n : Numeral} {u v : List Char} (h : Decimal.read m.text = Decimal.read n.text)
      (hunit : Text.asciiLower u = Text.asciiLower v) : SameLength (.dimension m u) (.dimension n v)
  | percentage {m n : Numeral} (h : Decimal.read m.text = Decimal.read n.text) :
      SameLength (.percentage m) (.percentage n)
  | number {m n : Numeral} (h : Decimal.read m.text = Decimal.read n.text) :
      SameLength (.number m) (.number n)

theorem Measure.sameLength_lower {leaf : Leaf} (h : Measure leaf) :
    SameLength leaf (lowerLeaf leaf) := by
  have hread : ∀ n : Numeral, Decimal.read n.text = Decimal.read (lowerNumeral n).text :=
    fun n => (Css.read_asciiLower n.text).symm
  cases h with
  | dimension => exact .dimension (hread _) (Text.asciiLower_asciiLower _).symm
  | percentage => exact .percentage (hread _)
  | zero => exact .number (hread _)

/-- The characters of lengths with single spaces. -/
theorem forall_mem_spaced {P : Char → Prop} (hblank : P ' ')
    (hchar : ∀ c, isLengthChar c = true → P c)
    {leaves : List Leaf} (h : ∀ leaf ∈ leaves, Measure leaf) :
    ∀ c ∈ Css.rowText (Css.spaced leaves), P c := by
  rw [Css.rowText_spaced]
  refine Text.forall_mem_joinWith (List.forall_mem_singleton.mpr hblank) ?_
  rw [List.forall_mem_map]
  exact fun leaf hleaf c hc => hchar c ((h leaf hleaf).isLengthChar c hc)

/-- **The tree of lengths with single spaces.** -/
theorem parse_spaced {leaves : List Leaf} (hne : leaves ≠ []) (h : ∀ leaf ∈ leaves, Measure leaf) :
    Css.AreLeaves (Css.parse (Css.rowText (Css.spaced leaves)))
      (leaves.intersperse (.whitespace [' '])) := by
  have hseparate := Css.separate_spaced hne fun leaf hleaf => (h leaf hleaf).separate
  have hclean : ∀ c ∈ Css.rowText (Css.spaced leaves), Css.IsClean c := by
    refine forall_mem_spaced ⟨by decide, by decide, by decide⟩ (fun c hc => ?_) h
    have hrange := toNat_of_isLengthChar hc
    refine ⟨?_, ?_, ?_⟩ <;>
      · rintro rfl
        revert hrange
        decide
  rw [(hseparate.reads [] nofun).parse_eq (Css.uniform_of_clean hclean), ← Css.leaves_spaced]
  exact Css.areLeaves_placed _ _

/-- The lengths in a text of lengths with single spaces are these. -/
theorem significant_spaced {leaves : List Leaf} (hne : leaves ≠ [])
    (h : ∀ leaf ∈ leaves, Measure leaf) :
    Css.AreLeaves (significant (Css.parse (Css.rowText (Css.spaced leaves)))) leaves := by
  have hleaves := (parse_spaced hne h).significant
  rwa [Css.filter_intersperse rfl] at hleaves
  intro leaf hleaf
  cases h leaf hleaf <;> rfl

theorem Measure.write_ne_nil {leaf : Leaf} (h : Measure leaf) : leaf.write ≠ [] := by
  cases h with
  | dimension h =>
      rw [Leaf.write]
      exact List.append_ne_nil_of_left_ne_nil h.ne_nil _
  | percentage h =>
      rw [Leaf.write]
      exact List.append_ne_nil_of_left_ne_nil h.ne_nil _
  | zero h => exact h.ne_nil

/-- No blank and no flag stands around lengths with single spaces. -/
theorem bareText_spaced {leaves : List Leaf} (hne : leaves ≠ [])
    (h : ∀ leaf ∈ leaves, Measure leaf) :
    bareText (Css.rowText (Css.spaced leaves)) = Css.rowText (Css.spaced leaves) := by
  have hblank : ∀ c, isLengthChar c = true → Text.isBlank c = false := by
    intro c hc
    have hrange := toNat_of_isLengthChar hc
    rw [← Bool.not_eq_true]
    intro hblank
    have hcases := Text.isBlank_cases hblank
    omega
  have hstrip : Text.strip (Css.rowText (Css.spaced leaves)) = Css.rowText (Css.spaced leaves) := by
    rw [Css.rowText_spaced]
    refine Text.strip_of_ends ?_ ?_
    · obtain ⟨leaf, leaves, rfl⟩ := List.exists_cons_of_ne_nil hne
      rw [List.forall_mem_cons] at h
      obtain ⟨c, cs, hwrite⟩ := List.exists_cons_of_ne_nil h.1.write_ne_nil
      obtain ⟨more, hmore⟩ := Text.exists_append_joinWith [' '] leaf.write (leaves.map Leaf.write)
      rw [List.map_cons, hmore, hwrite]
      exact Text.firm_cons.mpr (hblank c (h.1.isLengthChar c (hwrite ▸ List.mem_cons_self)))
    · obtain ⟨leaf, hlast⟩ := Option.ne_none_iff_exists'.mp (mt List.getLast?_eq_none_iff.mp hne)
      have hleaf := h leaf (List.mem_of_getLast? hlast)
      obtain ⟨before, hbefore⟩ : ∃ before,
          Text.joinWith [' '] (leaves.map Leaf.write) = before ++ leaf.write :=
        Text.exists_joinWith_append (by rw [List.getLast?_map, hlast]; rfl)
      intro c hc
      rw [hbefore, List.getLast?_append_of_ne_nil _ hleaf.write_ne_nil] at hc
      exact hblank c (hleaf.isLengthChar c (List.mem_of_getLast? hc))
  have hmark : ∀ c ∈ Css.rowText (Css.spaced leaves), c ≠ '!' := by
    refine forall_mem_spaced (by decide) (fun c hc => ?_) h
    rintro rfl
    cases hc
  rw [bareText, hstrip,
    stripFlags_of_bare hstrip (not_endsInFlag_of_not_mem fun hmem => hmark _ hmem rfl)]

/-- **Lengths with single spaces are classified by their tokens.** -/
theorem classify_spaced {leaves : List Leaf} (hne : leaves ≠ []) (h : ∀ leaf ∈ leaves, Measure leaf)
    {name : Option (List Char)} (hhint : ¬ NamesColor name) {c : Classified}
    (hlengths : lengths? (Css.parse (Css.rowText (Css.spaced leaves)))
      (Text.asciiLower (name.getD [])) = some c) :
    classify (Css.rowText (Css.spaced leaves)) name = .ok c := by
  have hall : ∀ node ∈ significant (Css.parse (Css.rowText (Css.spaced leaves))),
      isLength node = true := by
    intro node hnode
    obtain ⟨p, leaf, hleaf, rfl⟩ := (significant_spaced hne h).exists_mem hnode
    exact (h leaf hleaf).isLength p
  have hname : isColorName (Text.asciiLower (name.getD [])) = false := by
    rwa [← Bool.not_eq_true, isColorName_iff]
  have hhash : ∀ c ∈ Css.rowText (Css.spaced leaves), c ≠ '#' := by
    refine forall_mem_spaced (by decide) (fun c hc => ?_) h
    rintro rfl
    cases hc
  have htext : Css.rowText (Css.spaced leaves) ≠ [] := by
    intro hnil
    have hempty : Css.parse [] = [] := Css.Reads.nil.parse_eq rfl
    have hlength := (significant_spaced hne h).length_eq
    rw [hnil, hempty] at hlength
    exact hne (List.length_eq_zero_iff.mp hlength.symm)
  rw [classify_eq, bareText_spaced hne h, recognize, List.isEmpty_eq_false_iff.mpr htext,
    normalColor?_of_lengths hname (fun hhead => hhash _ (List.mem_of_head? hhead) rfl) hall]
  show (recognizeNodes _ _ _).map _ = .ok c
  rw [recognizeNodes_of_lengths hall hlengths]
  rfl

/-- What the lengths of a text say of its normal form. -/
structure LengthsOf (nodes : List Node) (c : Classified) : Prop where
  one_le : 1 ≤ (significant nodes).length
  le_four : (significant nodes).length ≤ 4
  all : ∀ node ∈ significant nodes, isLength node = true
  value : c.value.toList =
    Text.joinWith [' '] ((significant nodes).map fun node => Text.asciiLower node.write)

theorem lengthsOf {nodes : List Node} {name : List Char} {c : Classified}
    (h : lengths? nodes name = some c) : LengthsOf nodes c := by
  unfold lengths? at h
  dsimp only at h
  split at h
  · next hfit =>
      rw [Bool.and_eq_true, Bool.and_eq_true, decide_eq_true_eq, decide_eq_true_eq,
        List.all_eq_true] at hfit
      cases h
      exact ⟨hfit.1.1, hfit.1.2, hfit.2, String.toList_ofList⟩
  · cases h

theorem lengths?_of_classify {raw : List Char} {name : Option (List Char)} {c : Classified}
    (h : classify raw name = .ok c) (hkind : c.kind = .spacing ∨ c.kind = .fontSize) :
    lengths? (Css.parse (bareText raw)) (Text.asciiLower (name.getD [])) = some c := by
  obtain ⟨-, hcases⟩ := recognizes_of_classify h (by rcases hkind with h | h <;> rw [h] <;> decide)
    (by rcases hkind with h | h <;> rw [h] <;> decide)
  generalize hresult : Except.ok (some c) = result at hcases
  cases hcases with
  | gradientFault => cases hresult
  | shadowFault => cases hresult
  | gradient => cases hresult; rcases hkind with h | h <;> cases h
  | shadow => cases hresult; rcases hkind with h | h <;> cases h
  | families => cases hresult; rcases hkind with h | h <;> cases h
  | lengths => exact (Except.ok.inj hresult).symm

/-- **Length normal forms are fixed points.** The normal form of one to four lengths is their text
in lower case with single spaces and no comments. It is read as the same lengths, and classified as
itself.
-/
theorem lengths_settled {raw : List Char} {name : Option (List Char)} {c : Classified}
    (hhint : ¬ NamesColor name) (h : classify raw name = .ok c)
    (hkind : c.kind = .spacing ∨ c.kind = .fontSize) :
    ∃ lengths : List Leaf,
      Css.AreLeaves (significant (Css.parse (bareText raw))) lengths ∧
      1 ≤ lengths.length ∧ lengths.length ≤ 4 ∧
      c.value.toList = Text.joinWith [' '] (lengths.map fun leaf => Text.asciiLower leaf.write) ∧
      (∀ d ∈ c.value.toList, d.toLower = d ∧ d.toNat < 128) ∧
      Css.AreLeaves (Css.parse c.value.toList)
        ((lengths.map lowerLeaf).intersperse (.whitespace [' '])) ∧
      (∀ leaf ∈ lengths, SameLength leaf (lowerLeaf leaf)) ∧
      classify c.value.toList name = .ok c := by
  have hlengths := lengths?_of_classify h hkind
  obtain ⟨hone, hfour, hall, hvalue⟩ := lengthsOf hlengths
  obtain ⟨lengths, hleaves, hmeasures⟩ := Measure.of_parse hall
  have hlower : ∀ leaf ∈ lengths.map lowerLeaf, Measure leaf := by
    rw [List.forall_mem_map]
    exact fun leaf hleaf => (hmeasures leaf hleaf).lower
  rw [hleaves.length_eq] at hone hfour
  rw [hleaves.map_eq (g := fun leaf => Text.asciiLower leaf.write) fun _ _ => rfl] at hvalue
  have htext : c.value.toList = Css.rowText (Css.spaced (lengths.map lowerLeaf)) := by
    rw [hvalue, Css.rowText_spaced, List.map_map]
    congr 1
    exact List.map_congr_left fun leaf hleaf => (hmeasures leaf hleaf).write_lower.symm
  have hne : lengths.map lowerLeaf ≠ [] := by
    rw [ne_eq, List.map_eq_nil_iff, ← List.length_eq_zero_iff]
    omega
  refine ⟨lengths, hleaves, hone, hfour, hvalue, ?_, ?_,
    fun leaf hleaf => (hmeasures leaf hleaf).sameLength_lower, ?_⟩
  · rw [hvalue]
    refine Text.forall_mem_joinWith (List.forall_mem_singleton.mpr (by decide)) ?_
    rw [List.forall_mem_map]
    intro leaf hleaf d hd
    obtain ⟨e, -, rfl⟩ := List.mem_map.mp hd
    rw [← (hmeasures leaf hleaf).write_lower] at hd
    have hrange := toNat_of_isLengthChar ((hmeasures leaf hleaf).lower.isLengthChar _ hd)
    exact ⟨Text.toLower_toLower e, by omega⟩
  · rw [htext]
    exact parse_spaced hne hlower
  · rw [htext]
    refine classify_spaced hne hlower hhint ?_
    rwa [lengths?_lower hleaves (significant_spaced hne hlower) hmeasures]

/-- Two adjacent lengths with an exponent, a capital unit, a comment and a percentage without a
whole part. -/
theorem lengths_settled_mixedNotation :
    ¬ NamesColor (some "gap".toList) ∧
      classify "1E3PX/**/.5% ".toList (some "gap".toList) = .ok ⟨.spacing, "1e3px .5%"⟩ ∧
      classify "1e3px .5%".toList (some "gap".toList) = .ok ⟨.spacing, "1e3px .5%"⟩ := by
  have hhint : ¬ NamesColor (some "gap".toList) := mt isColorName_iff.mpr (by decide)
  have hclass : classify "1E3PX/**/.5% ".toList (some "gap".toList) =
      .ok ⟨.spacing, "1e3px .5%"⟩ := by
    decide +kernel
  obtain ⟨lengths, -, -, -, -, -, -, -, hagain⟩ := lengths_settled hhint hclass (.inl rfl)
  exact ⟨hhint, hclass, hagain⟩

end TokenCatalog.Value
