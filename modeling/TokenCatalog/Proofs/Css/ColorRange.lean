import TokenCatalog.Css.Color
import TokenCatalog.Proofs.Number.Binary64
import TokenCatalog.Proofs.Text.Digit

/-!
# The range of colour channels

Channels are fractions of one, but nothing limits them to it. How large a colour function can make
them is told by the numbers in it. Main statements:

* `Numeral.Moderate`: a number of at most ten to the power of 150, as it is written;
* `functionColor?_inRange`: a colour function with moderate numbers has a value, and its channels
  are far below the end of the format;
* `hashColor?_inRange` and `keywordColor?_inRange`: so it is always with hash colours and keywords.
-/

namespace TokenCatalog.Css

open Binary64 (AtMost AtLeastOne)

/-! ## Moderate numerals -/

/-- A number of at most ten to the power of 150, as it is written. -/
def Numeral.Moderate (n : Numeral) : Prop :=
  ((Decimal.read n.text).digits : ℚ) * 10 ^ (Decimal.read n.text).exponent ≤ 10 ^ 150

theorem ten_pow_le_two_pow : (10 : ℚ) ^ 150 ≤ 2 ^ 500 := by
  calc (10 : ℚ) ^ 150 = (10 ^ 3) ^ 50 := pow_mul 10 3 50
    _ ≤ (2 ^ 10) ^ 50 := pow_le_pow_left₀ (by norm_num) (by norm_num) 50
    _ = 2 ^ 500 := (pow_mul 2 10 50).symm

theorem Numeral.Moderate.value {n : Numeral} (h : n.Moderate) : n.value.AtMost 500 :=
  Binary64.atMost_ofDecimal _ (by decide) (h.trans ten_pow_le_two_pow)

/-- What is left of a numeral without a point and an exponent holds neither. -/
theorem readExponent_of_integer {cs : List Char} (h : ∀ c ∈ cs, c ≠ 'e' ∧ c ≠ 'E') :
    readExponent cs = 0 := by
  cases cs with
  | nil => rfl
  | cons c cs =>
      obtain ⟨hsmall, hcapital⟩ := h c List.mem_cons_self
      rw [readExponent, if_neg (by simp [hsmall, hcapital])]

theorem exponent_of_isInteger {n : Numeral} (h : n.isInteger = true) :
    (Decimal.read n.text).exponent = 0 := by
  rw [Numeral.isInteger, List.all_eq_true] at h
  have hplain : ∀ c ∈ n.text, c ≠ '.' ∧ c ≠ 'e' ∧ c ≠ 'E' := by
    intro c hc
    simpa [and_assoc] using h c hc
  have hsign : ∀ cs : List Char, (readSign cs).2 ⊆ cs := by
    intro cs
    unfold readSign
    split
    · exact List.subset_cons_self _ _
    · exact List.subset_cons_self _ _
    · exact List.Subset.refl _
  have hrest : (readSign n.text).2.dropWhile isDigit ⊆ n.text :=
    List.Subset.trans (List.dropWhile_sublist _).subset (hsign n.text)
  unfold Decimal.read
  dsimp only
  generalize (readSign n.text).2.dropWhile isDigit = rest at hrest
  split
  · exact absurd rfl (hplain _ (hrest List.mem_cons_self)).1
  · dsimp only
    rw [readExponent_of_integer fun c hc => (hplain c (hrest hc)).2]
    rfl

theorem natAbs_int_of_moderate {n : Numeral} (hinteger : n.isInteger = true) (h : n.Moderate) :
    (n.int.natAbs : ℚ) ≤ 2 ^ 500 := by
  have habs : n.int.natAbs = (Decimal.read n.text).digits := by
    unfold Numeral.int
    dsimp only
    split <;> simp
  rw [Numeral.Moderate, exponent_of_isInteger hinteger, zpow_zero, mul_one] at h
  rw [habs]
  exact h.trans ten_pow_le_two_pow

/-! ## Channels -/

/-- The channels of a colour other than its opacity are at most a power of two. -/
structure Rgba.InRange (k : Nat) (c : Rgba) : Prop where
  red : c.red.AtMost k
  green : c.green.AtMost k
  blue : c.blue.AtMost k

theorem Rgba.InRange.mono {j k : Nat} {c : Rgba} (h : c.InRange j) (hjk : j ≤ k) : c.InRange k :=
  ⟨h.red.mono hjk, h.green.mono hjk, h.blue.mono hjk⟩

theorem integerChannel_atMost {n : Int} {k : Nat} (hk : k ≤ 1023) (h : (n.natAbs : ℚ) ≤ 2 ^ k) :
    ∃ x, integerChannel n = .ok x ∧ x.AtMost k := by
  have hratio : (Binary64.ofRatio (n < 0) n.natAbs 255).AtMost k := by
    refine Binary64.atMost_ofRatio _ (by decide) hk (le_trans ?_ h)
    exact div_le_self (by positivity) (by norm_num)
  obtain ⟨s, m, e, hfinite⟩ := hratio.exists_finite
  refine ⟨_, ?_, hratio⟩
  rw [integerChannel, hfinite]

theorem percent_atMost {n : Numeral} (h : n.Moderate) : (percent n).AtMost 500 := by
  refine Binary64.atMost_div h.value ?_ (by decide)
  have hhundred : Binary64.ofInt 100 = .finite false (25 * 2 ^ 48) (-46) := by decide +kernel
  rw [hhundred, AtLeastOne]
  norm_num

theorem degrees_atMost {n : Numeral} (h : n.Moderate) :
    (n.value.div (.ofInt 360)).AtMost 500 := by
  refine Binary64.atMost_div h.value ?_ (by decide)
  have hcircle : Binary64.ofInt 360 = .finite false (45 * 2 ^ 47) (-44) := by decide +kernel
  rw [hcircle, AtLeastOne]
  norm_num

/-! ## Hues -/

theorem one_atMost (k : Nat) : Binary64.one.AtMost k :=
  (Binary64.atMost_ofInt (k := 0) (by decide) (by decide)).mono (Nat.zero_le k)

section

variable {low high hue saturation lightness : Binary64}

/-- The channel at a hue, given the bounds of the two extremes. -/
theorem hueChannel_atMost {j : Nat} (hlow : low.AtMost 1002) (hhigh : high.AtMost 1002)
    (hhue : hue.AtMost j) : (hueChannel low high hue).AtMost 1009 := by
  have hfraction : hue.fraction.AtMost 1 := Binary64.atMost_fraction hhue
  have hrange : (high.sub low).AtMost 1003 := Binary64.atMost_sub hhigh hlow (by decide)
  have hsix : (Binary64.ofInt 6).AtMost 3 := Binary64.atMost_ofInt (by decide) (by decide)
  unfold hueChannel
  dsimp only
  split
  · have hpart := Binary64.atMost_mul hrange hfraction (by decide)
    have hstep := Binary64.atMost_mul hpart hsix (by decide)
    exact (Binary64.atMost_add (hlow.mono (by decide)) hstep (by decide)).mono (by decide)
  · split
    · exact hhigh.mono (by decide)
    · split
      · have hthirds : (Binary64.ofRatio false 2 3).AtMost 1 :=
          Binary64.atMost_ofRatio false (by decide) (by decide) (by norm_num)
        have hleft := Binary64.atMost_sub hthirds hfraction (by decide)
        have hpart := Binary64.atMost_mul hrange hleft (by decide)
        have hstep := Binary64.atMost_mul hpart hsix (by decide)
        exact Binary64.atMost_add (hlow.mono (by decide)) hstep (by decide)
      · exact hlow.mono (by decide)

/-- **The colour of a moderate hue, saturation and lightness.** The two extremes of its channels are
products of two moderate numbers. -/
theorem ofHue_inRange (hhue : hue.AtMost 500) (hsaturation : saturation.AtMost 500)
    (hlightness : lightness.AtMost 500) (alpha : Binary64) :
    (ofHue hue saturation lightness alpha).InRange 1009 := by
  unfold ofHue
  split
  · have hgray := hlightness.mono (show 500 ≤ 1009 by decide)
    exact ⟨hgray, hgray, hgray⟩
  · dsimp only
    generalize hhighest : (if lightness.le (.ofRatio false 1 2) then
      lightness.mul (Binary64.one.add saturation)
      else (lightness.add saturation).sub (lightness.mul saturation)) = highest
    have htwo : (Binary64.ofInt 2).AtMost 1 := Binary64.atMost_ofInt (by decide) (by decide)
    have hthird : (Binary64.ofRatio false 1 3).AtMost 0 :=
      Binary64.atMost_ofRatio false (by decide) (by decide) (by norm_num)
    have hthird := hthird.mono (show 0 ≤ 500 by decide)
    have hhigh : highest.AtMost 1001 := by
      rw [← hhighest]
      split
      · have hsum := Binary64.atMost_add (one_atMost 500) hsaturation (by decide)
        exact (Binary64.atMost_mul hlightness hsum (by decide)).mono (by decide)
      · have hsum := Binary64.atMost_add hlightness hsaturation (by decide)
        have hproduct := Binary64.atMost_mul hlightness hsaturation (by decide)
        exact Binary64.atMost_sub (hsum.mono (by decide)) hproduct (by decide)
    have hdouble := Binary64.atMost_mul htwo hlightness (by decide)
    have hlow : (((Binary64.ofInt 2).mul lightness).sub highest).AtMost 1002 :=
      Binary64.atMost_sub (hdouble.mono (by decide)) hhigh (by decide)
    have hhigh := hhigh.mono (show 1001 ≤ 1002 by decide)
    exact ⟨hueChannel_atMost hlow hhigh (Binary64.atMost_add hhue hthird (by decide)),
      hueChannel_atMost hlow hhigh hhue,
      hueChannel_atMost hlow hhigh (Binary64.atMost_sub hhue hthird (by decide))⟩

end

/-! ## Colour functions -/

def Node.numeral? : Node → Option Numeral
  | .leaf _ (.number n) => some n
  | .leaf _ (.percentage n) => some n
  | _ => none

def ModerateRow (nodes : List Node) : Prop :=
  ∀ node ∈ nodes, ∀ n, node.numeral? = some n → n.Moderate

theorem ModerateRow.mono {nodes fewer : List Node} (h : ModerateRow nodes) (hsub : fewer ⊆ nodes) :
    ModerateRow fewer :=
  fun node hnode => h node (hsub hnode)

theorem commaSeparated_subset {nodes args : List Node} (h : commaSeparated nodes = some args) :
    args ⊆ nodes := by
  induction nodes using commaSeparated.induct generalizing args with
  | case1 => cases h
  | case2 node =>
      cases h
      exact List.Subset.refl _
  | case3 node comma nodes hcomma ih =>
      rw [commaSeparated, if_pos hcomma] at h
      obtain ⟨rest, hrest, rfl⟩ := Option.map_eq_some_iff.mp h
      refine List.cons_subset.mpr ⟨List.mem_cons_self, ?_⟩
      exact fun arg harg => List.mem_cons_of_mem _ (List.mem_cons_of_mem _ (ih hrest harg))
  | case4 node comma nodes hcomma =>
      rw [commaSeparated, if_neg hcomma] at h
      cases h

/-- A colour can be read, and its channels are far below the end of the format. -/
def ReadsInRange (result : Except ColorFault (Option Color)) : Prop :=
  ∃ color?, result = .ok color? ∧ ∀ c, color? = some (.concrete c) → c.InRange 1009

theorem readsInRange_none : ReadsInRange (.ok none) :=
  ⟨none, rfl, nofun⟩

theorem rgbColor?_inRange {args : List Node} (h : ModerateRow args) (alpha : Binary64) :
    ReadsInRange (rgbColor? alpha args) := by
  unfold rgbColor?
  split
  · next p r q g o b =>
      obtain ⟨hr, hg, hb⟩ : r.Moderate ∧ g.Moderate ∧ b.Moderate := by
        simpa [ModerateRow, Node.numeral?] using h
      split
      · next hinteger =>
          rw [Bool.and_eq_true, Bool.and_eq_true] at hinteger
          obtain ⟨⟨hrint, hgint⟩, hbint⟩ := hinteger
          obtain ⟨red, hred, hredle⟩ :=
            integerChannel_atMost (by decide) (natAbs_int_of_moderate hrint hr)
          obtain ⟨green, hgreen, hgreenle⟩ :=
            integerChannel_atMost (by decide) (natAbs_int_of_moderate hgint hg)
          obtain ⟨blue, hblue, hbluele⟩ :=
            integerChannel_atMost (by decide) (natAbs_int_of_moderate hbint hb)
          rw [hred, hgreen, hblue]
          refine ⟨_, rfl, fun c hc => ?_⟩
          cases hc
          exact Rgba.InRange.mono ⟨hredle, hgreenle, hbluele⟩ (by decide)
      · exact readsInRange_none
  · next p r q g o b =>
      obtain ⟨hr, hg, hb⟩ : r.Moderate ∧ g.Moderate ∧ b.Moderate := by
        simpa [ModerateRow, Node.numeral?] using h
      refine ⟨_, rfl, fun c hc => ?_⟩
      cases hc
      exact Rgba.InRange.mono ⟨percent_atMost hr, percent_atMost hg, percent_atMost hb⟩ (by decide)
  · exact readsInRange_none

theorem hslColor?_inRange {args : List Node} (h : ModerateRow args) (alpha : Binary64) :
    ReadsInRange (.ok (hslColor? alpha args)) := by
  unfold hslColor?
  split
  · next p hue q saturation o lightness =>
      obtain ⟨hh, hs, hl⟩ : hue.Moderate ∧ saturation.Moderate ∧ lightness.Moderate := by
        simpa [ModerateRow, Node.numeral?] using h
      refine ⟨_, rfl, fun c hc => ?_⟩
      cases hc
      exact ofHue_inRange (degrees_atMost hh) (percent_atMost hs) (percent_atMost hl) alpha
  · exact readsInRange_none

def colorFunctions : List String := ["rgb", "rgba", "hsl", "hsla"]

/-- **A colour function with moderate numbers has a value far below the end of the format.** -/
theorem functionColor?_inRange {name : List Char} {arguments : List Node}
    (h : ModerateRow arguments) : ReadsInRange (functionColor? name arguments) := by
  unfold functionColor?
  split
  · exact readsInRange_none
  · next args hargs =>
      have hmoderate : ModerateRow args :=
        h.mono (List.Subset.trans (commaSeparated_subset hargs) List.filter_sublist.subset)
      have hfirst : ModerateRow (args.take 3) := hmoderate.mono (List.take_subset 3 args)
      dsimp only
      split
      · exact rgbColor?_inRange hmoderate _
      · split
        · split
          · exact rgbColor?_inRange hfirst _
          · exact readsInRange_none
        · split
          · exact hslColor?_inRange hmoderate _
          · split
            · split
              · next node _ =>
                  cases alphaOf? node with
                  | none => exact readsInRange_none
                  | some alpha => exact hslColor?_inRange hfirst alpha
              · exact readsInRange_none
            · exact readsInRange_none

/-- A function of any other name makes no colour. -/
theorem functionColor?_eq_none {name : List Char} {arguments : List Node}
    (h : ∀ f ∈ colorFunctions, Text.asciiLower name ≠ f.toList) :
    functionColor? name arguments = .ok none := by
  unfold functionColor?
  split
  · rfl
  · dsimp only
    rw [if_neg (h "rgb" (by decide)), if_neg (h "rgba" (by decide)), if_neg (h "hsl" (by decide)),
      if_neg (h "hsla" (by decide))]

/-! ## Hashes and keywords -/

theorem channel_atMost {n : Nat} (h : n ≤ 255) : (channel n).AtMost 1009 := by
  have hle : (n : ℚ) ≤ 255 := by exact_mod_cast h
  refine (Binary64.atMost_ofRatio (k := 0) false (by decide) (by decide) ?_).mono (by decide)
  rw [pow_zero]
  exact div_le_one_of_le₀ hle (by norm_num)

theorem opaqueColor_inRange {red green blue : Nat} (hred : red ≤ 255) (hgreen : green ≤ 255)
    (hblue : blue ≤ 255) : (opaqueColor red green blue).InRange 1009 :=
  ⟨channel_atMost hred, channel_atMost hgreen, channel_atMost hblue⟩

/-- The colour of hexadecimal digits, its opacity included. -/
theorem digitsColor?_inRange {digits : List Nat} {c : Rgba} (hdigits : ∀ d ∈ digits, d < 16)
    (h : digitsColor? digits = some c) : c.InRange 1009 ∧ c.alpha.AtMost 1009 := by
  unfold digitsColor? at h
  split at h
  · next r g b =>
      obtain ⟨hr, hg, hb⟩ : r < 16 ∧ g < 16 ∧ b < 16 := by simpa using hdigits
      cases h
      exact ⟨opaqueColor_inRange (by omega) (by omega) (by omega), one_atMost 1009⟩
  · next r g b a =>
      obtain ⟨hr, hg, hb, ha⟩ : r < 16 ∧ g < 16 ∧ b < 16 ∧ a < 16 := by simpa using hdigits
      cases h
      exact ⟨⟨channel_atMost (by omega), channel_atMost (by omega), channel_atMost (by omega)⟩,
        channel_atMost (by omega)⟩
  · next r r' g g' b b' =>
      obtain ⟨hr, hr', hg, hg', hb, hb'⟩ :
          r < 16 ∧ r' < 16 ∧ g < 16 ∧ g' < 16 ∧ b < 16 ∧ b' < 16 := by
        simpa using hdigits
      cases h
      exact ⟨opaqueColor_inRange (by omega) (by omega) (by omega), one_atMost 1009⟩
  · next r r' g g' b b' a a' =>
      obtain ⟨hr, hr', hg, hg', hb, hb', ha, ha'⟩ :
          r < 16 ∧ r' < 16 ∧ g < 16 ∧ g' < 16 ∧ b < 16 ∧ b' < 16 ∧ a < 16 ∧ a' < 16 := by
        simpa using hdigits
      cases h
      exact ⟨⟨channel_atMost (by omega), channel_atMost (by omega), channel_atMost (by omega)⟩,
        channel_atMost (by omega)⟩
  · cases h

theorem hexValue?_lt {c : Char} {v : Nat} (h : Text.hexValue? c = some v) : v < 16 := by
  have hcases := Text.hexValue?_cases h
  omega

theorem wideHexValue?_lt {c : Char} {v : Nat} (h : Text.wideHexValue? c = some v) : v < 16 := by
  unfold Text.wideHexValue? at h
  cases hhex : Text.hexValue? c with
  | some v' =>
      rw [hhex] at h
      cases h
      exact hexValue?_lt hhex
  | none =>
      rw [hhex] at h
      obtain ⟨start, hstart, hvalue⟩ := Option.map_eq_some_iff.mp h
      have hrange := List.find?_some hstart
      rw [Bool.and_eq_true, decide_eq_true_eq, decide_eq_true_eq] at hrange
      omega

theorem forall_mem_of_mapM {α β : Type} {f : α → Option β} {p : β → Prop} {xs : List α}
    {ys : List β} (h : xs.mapM f = some ys) (hf : ∀ x y, f x = some y → p y) : ∀ y ∈ ys, p y := by
  induction xs generalizing ys with
  | nil =>
      cases h
      exact fun y hy => absurd hy List.not_mem_nil
  | cons x xs ih =>
      rw [List.mapM_cons] at h
      obtain ⟨y, hy, htail⟩ := Option.bind_eq_some_iff.mp h
      obtain ⟨rest, hrest, heq⟩ := Option.bind_eq_some_iff.mp htail
      cases heq
      exact List.forall_mem_cons.mpr ⟨hf x y hy, ih hrest⟩

theorem not_mem_of_mapM {α β : Type} {f : α → Option β} {xs : List α} {ys : List β} {x : α}
    (h : xs.mapM f = some ys) (hx : f x = none) : x ∉ xs := by
  induction xs generalizing ys with
  | nil => exact List.not_mem_nil
  | cons x' xs ih =>
      rw [List.mapM_cons] at h
      obtain ⟨y, hy, htail⟩ := Option.bind_eq_some_iff.mp h
      obtain ⟨rest, hrest, -⟩ := Option.bind_eq_some_iff.mp htail
      rw [List.mem_cons, not_or]
      refine ⟨?_, ih hrest⟩
      rintro rfl
      cases hx.symm.trans hy

/-- Only a line feed is dropped. -/
theorem mem_dropFinalNewline {c : Char} (hc : c ≠ '\n') {cs : List Char} (h : c ∈ cs) :
    c ∈ dropFinalNewline cs := by
  unfold dropFinalNewline
  split
  · next hlast =>
      obtain ⟨front, rfl⟩ := List.getLast?_eq_some_iff.mp hlast
      rw [List.dropLast_concat]
      exact (List.mem_append.mp h).resolve_right fun hline => hc (List.mem_singleton.mp hline)
  · exact h

theorem dropFinalNewline_subset (cs : List Char) : dropFinalNewline cs ⊆ cs := by
  unfold dropFinalNewline
  split
  · exact List.dropLast_subset cs
  · exact List.Subset.refl cs

theorem hashColor?_inRange {name : List Char} {c : Rgba}
    (h : hashColor? name = some (.concrete c)) : c.InRange 1009 := by
  unfold hashColor? at h
  obtain ⟨digits, hdigits, hcolor⟩ := Option.bind_eq_some_iff.mp h
  obtain ⟨c', hc', heq⟩ := Option.map_eq_some_iff.mp hcolor
  cases heq
  exact (digitsColor?_inRange (forall_mem_of_mapM hdigits fun _ _ => wideHexValue?_lt) hc').1

/-- Colour keywords are of letters, and not all of these are digits. -/
theorem letters_of_keywordColor? {name : List Char} (h : keywordColor? name ≠ none) :
    (Text.asciiLower name).all Char.isLower = true ∧
      (Text.asciiLower name).any (!Text.isHex ·) = true := by
  have hnames : colorNames.all (fun entry =>
      entry.1.toList.all Char.isLower && entry.1.toList.any (!Text.isHex ·)) = true := by
    decide +kernel
  unfold keywordColor? at h
  dsimp only at h
  split at h
  · next hname =>
      rw [hname]
      decide
  · split at h
    · next hname =>
        rw [hname]
        decide
    · obtain ⟨color, hcolor⟩ := Option.ne_none_iff_exists'.mp h
      obtain ⟨channels, hchannels, -⟩ := Option.map_eq_some_iff.mp hcolor
      obtain ⟨entry, hentry, -⟩ := Option.map_eq_some_iff.mp hchannels
      have hname := List.find?_some hentry
      rw [decide_eq_true_eq] at hname
      rw [← hname]
      exact Bool.and_eq_true_iff.mp (List.all_eq_true.mp hnames entry
        (List.mem_of_find?_eq_some hentry))

theorem keywordColor?_inRange {name : List Char} {c : Rgba}
    (h : keywordColor? name = some (.concrete c)) : c.InRange 1009 := by
  have hnamed : ∀ entry ∈ colorNames, entry.2.1 ≤ 255 ∧ entry.2.2.1 ≤ 255 ∧ entry.2.2.2 ≤ 255 := by
    decide +kernel
  unfold keywordColor? at h
  dsimp only at h
  split at h
  · cases h
  · split at h
    · cases h
      have hzero := Binary64.atMost_zero 1009 false Binary64.minExponent
      exact ⟨hzero, hzero, hzero⟩
    · obtain ⟨channels, hchannels, heq⟩ := Option.map_eq_some_iff.mp h
      cases heq
      obtain ⟨entry, hentry, rfl⟩ := Option.map_eq_some_iff.mp hchannels
      obtain ⟨hred, hgreen, hblue⟩ := hnamed entry (List.mem_of_find?_eq_some hentry)
      exact opaqueColor_inRange hred hgreen hblue

end TokenCatalog.Css
