import TokenCatalog.Proofs.Css.CollapsedColor
import TokenCatalog.Proofs.Css.Opening
import TokenCatalog.Proofs.Except
import TokenCatalog.Proofs.Number.Nearest
import TokenCatalog.Proofs.Value.HexColor

/-!
# Functional colours

A colour function keeps its notation while it is partly transparent, and is written by its channels
where it is opaque. Nothing limits the channels, so that the hash has six digits only where each of
them is a byte. Main statements:

* `not_endsInFlag_collapse`: collapsing a text brings no flag about;
* `classify_collapse`: a partly transparent colour function, collapsed, is classified as itself;
* `RoundsTo`: the whole number that a channel is rounded to;
* `isByte_iff` and `isShortHash_iff`: it is written in two hexadecimal digits exactly if it is a
  byte, and an opaque colour in six exactly if all its channels are.
-/

namespace TokenCatalog.Value

open Text (isBlank)
open TokenCatalog.Css (Node ColorFault Rgba Color)

/-! ## Collapsing and flags -/

/-- What is squeezed to blanks is blank. -/
theorem blank_of_squeeze {cs : List Char} (h : ∀ c ∈ Text.squeeze cs, isBlank c = true) :
    ∀ c ∈ cs, isBlank c = true := by
  intro c hc
  cases hblank : isBlank c with
  | true => rfl
  | false => exact hblank.symm.trans (h c ((Text.mem_squeeze hblank).mpr hc))

/-- **Collapsing brings no flag about.** -/
theorem not_endsInFlag_collapse {cs : List Char} (htrimmed : Text.strip cs = cs)
    (h : ¬ EndsInFlag cs) : ¬ EndsInFlag (Text.collapse cs) := by
  rw [Text.collapse_eq_squeeze htrimmed]
  rintro ⟨front, f, heq⟩
  obtain ⟨word, hword, hspelled⟩ := f.isWord
  have hletters := isBlank_of_spells hword hspelled
  obtain ⟨s, spelled, hcons⟩ := List.exists_cons_of_ne_nil f.spelled_ne_nil
  have hs : isBlank s = false := (hletters s (hcons ▸ List.mem_cons_self)).1
  rw [Flag.text, Flag.tail, ← List.append_assoc] at heq
  -- the exclamation mark and the word stand in the text too, with blanks between and behind
  obtain ⟨us, vs, rfl, -, hvs⟩ := Text.exists_of_squeeze_eq (by decide) heq
  rw [hcons, List.append_assoc, List.cons_append] at hvs
  obtain ⟨between, ws, rfl, hbetween, hws⟩ := Text.exists_of_squeeze_eq hs hvs
  have hspelledLetters : spelled.any isBlank = false := List.any_eq_false.mpr fun c hc hblank => by
    cases hblank.symm.trans (hletters c (hcons ▸ List.mem_cons_of_mem s hc)).1
  obtain ⟨after, rfl, hafter⟩ := Text.exists_of_squeeze_append hspelledLetters hws
  refine h ⟨us, ⟨[], between, s :: spelled, after, fun c hc => ?_, word, hword, hcons ▸ hspelled⟩,
    ?_⟩
  · rw [List.nil_append, List.mem_append] at hc
    rcases hc with hc | hc
    · exact blank_of_squeeze (hbetween ▸ f.blank_between) c hc
    · exact blank_of_squeeze (hafter ▸ f.blank_after) c hc
  · simp [Flag.text, Flag.tail]

theorem strip_bareText (raw : List Char) : Text.strip (bareText raw) = bareText raw :=
  Text.strip_strip _

theorem bareText_collapse (raw : List Char) :
    bareText (Text.collapse (bareText raw)) = Text.collapse (bareText raw) := by
  have hflags : ¬ EndsInFlag (bareText raw) := bareText_eq raw ▸ not_endsInFlag_stripFlags raw
  rw [bareText_eq]
  exact stripFlags_of_bare (Text.strip_collapse (strip_bareText raw))
    (not_endsInFlag_collapse (strip_bareText raw) hflags)

/-! ## Colour functions -/

section

variable {cs : List Char} {p : Css.Position} {fname : List Char} {args : List Node}
  (hone : Css.parseOne? cs = some (.function p fname args))

include hone

theorem bracket_mem_of_parseOne? : '(' ∈ cs := by
  refine Css.bracket_mem_of_function (?_ : .function p fname args ∈ Css.parse cs)
  have hmem : Node.function p fname args ∈ Css.significant (Css.parse cs) := by
    rw [Css.significant_eq_of_parseOne? hone]
    exact List.mem_cons_self
  exact (List.mem_filter.mp hmem).1

/-- The normal form of a colour function is made of its channels, or of its notation. -/
theorem normalColor?_of_function (name : List Char) :
    normalColor? cs name = Css.functionColor? fname args >>= formOf? cs := by
  rw [normalColor?_eq, colorDigits?_eq_none (bracket_mem_of_parseOne? hone), Css.color?, hone]
  rfl

end

/-- A colour function is never the colour of the surrounding text. -/
theorem functionColor?_ne_current (name : List Char) (args : List Node) :
    Css.functionColor? name args ≠ .ok (some .current) := by
  have hrgb : ∀ alpha args, Css.rgbColor? alpha args ≠ .ok (some .current) := by
    intro alpha args h
    unfold Css.rgbColor? at h
    split at h
    · split at h
      · obtain ⟨red, -, h⟩ := exists_of_bind_eq_ok h
        obtain ⟨green, -, h⟩ := exists_of_bind_eq_ok h
        obtain ⟨blue, -, h⟩ := exists_of_bind_eq_ok h
        cases h
      · cases h
    · cases h
    · cases h
  have hhsl : ∀ alpha args, Css.hslColor? alpha args ≠ some .current := by
    intro alpha args h
    unfold Css.hslColor? at h
    split at h <;> cases h
  intro h
  rw [Css.functionColor?_eq] at h
  split at h
  · cases h
  · split at h
    · exact hrgb _ _ h
    · split at h
      · split at h
        · exact hrgb _ _ h
        · cases h
      · split at h
        · exact hhsl _ _ (Except.ok.inj h)
        · split at h
          · obtain ⟨alpha, -, h⟩ := Option.bind_eq_some_iff.mp (Except.ok.inj h)
            exact hhsl _ _ h
          · cases h

theorem isLetters_of_bracket {cs : List Char} (h : '(' ∈ cs) : isLetters cs = false := by
  have hnot : (Css.dropFinalNewline cs).all Char.isAlpha = false :=
    List.all_eq_false.mpr ⟨'(', Css.mem_dropFinalNewline (by decide) h, by decide⟩
  rw [isLetters, hnot, Bool.and_false]

/-- **A partly transparent colour function, collapsed, is classified as itself.** -/
theorem classify_collapse {raw fname : List Char} {p : Css.Position} {args : List Node} {c : Rgba}
    (hone : Css.parseOne? (bareText raw) = some (.function p fname args))
    (hcolor : Css.functionColor? fname args = .ok (some (.concrete c)))
    (hfull : isOpaque c = false) :
    rgba? (Text.collapse (bareText raw)) = .ok (some c) ∧
      ∀ name, classify (Text.collapse (bareText raw)) name =
        .ok ⟨.color, String.ofList (Text.collapse (bareText raw))⟩ := by
  have htrimmed := strip_bareText raw
  have hread := Css.color?_collapse htrimmed hone hcolor
  have hbracket : '(' ∈ Text.collapse (bareText raw) := by
    rw [Text.collapse_eq_squeeze htrimmed, Text.mem_squeeze (by decide)]
    exact bracket_mem_of_parseOne? hone
  have hdigits := colorDigits?_eq_none hbracket
  constructor
  · have hhash : hashDigits? (Text.collapse (bareText raw)) = none := by
      have hnone := hdigits []
      cases hhash : hashDigits? (Text.collapse (bareText raw)) with
      | none => rfl
      | some digits =>
          rw [colorDigits?, hhash] at hnone
          cases hnone
    rw [rgba?, Text.strip_collapse htrimmed, hhash, hread]
    rfl
  · intro name
    have hnormal : normalColor? (Text.collapse (bareText raw)) (Text.asciiLower (name.getD [])) =
        .ok (some (Text.collapse (bareText raw))) := by
      rw [normalColor?_eq, hdigits, hread]
      show (normalForm _ (.concrete c)).map some = _
      rw [normalForm, hfull, isLetters_of_bracket hbracket, Text.collapse_collapse htrimmed]
      rfl
    rw [classify_eq, bareText_collapse,
      recognize_of_normalColor? (List.ne_nil_of_mem hbracket) hnormal]
    rfl

/-! ## Opaque colours -/

/-- A channel, times 255, is nearest to a whole number. -/
def RoundsTo (x : Binary64) (n : Int) : Prop :=
  ∃ q, (x.mul (.ofInt 255)).toRat? = some q ∧ NearestEven n q

theorem exists_of_writeChannel {x : Binary64} {cs : List Char} (h : writeChannel x = .ok cs) :
    ∃ n, RoundsTo x n ∧ cs = hexPair n := by
  unfold writeChannel at h
  split at h
  · cases h
  · cases h
  · next y hnan hinfinite =>
      cases hproduct : x.mul (.ofInt 255) with
      | nan => exact absurd hproduct hnan
      | infinite s => exact absurd hproduct (hinfinite s)
      | finite s m e =>
          obtain ⟨n, hn⟩ := Binary64.exists_round? s m e
          rw [hproduct, hn] at h
          cases h
          obtain ⟨q, hq, hnearest⟩ := Binary64.round?_nearest hn
          refine ⟨n, ⟨q, ?_, hnearest⟩, rfl⟩
          rw [hproduct, hq]

theorem exists_of_writeHash {c : Rgba} {cs : List Char} (h : writeHash c = .ok cs) :
    ∃ r g b, RoundsTo c.red r ∧ RoundsTo c.green g ∧ RoundsTo c.blue b ∧
      cs = '#' :: (hexPair r ++ hexPair g ++ hexPair b) := by
  rw [writeHash] at h
  obtain ⟨red, hred, h⟩ := exists_of_bind_eq_ok h
  obtain ⟨green, hgreen, h⟩ := exists_of_bind_eq_ok h
  obtain ⟨blue, hblue, h⟩ := exists_of_bind_eq_ok h
  cases h
  obtain ⟨r, hr, rfl⟩ := exists_of_writeChannel hred
  obtain ⟨g, hg, rfl⟩ := exists_of_writeChannel hgreen
  obtain ⟨b, hb, rfl⟩ := exists_of_writeChannel hblue
  exact ⟨r, g, b, hr, hg, hb, rfl⟩

/-- A whole number is a byte. -/
def IsByte (n : Int) : Prop :=
  0 ≤ n ∧ n ≤ 255

/-- A text is a hash and exactly six lower-case hexadecimal digits. -/
def IsShortHash (cs : List Char) : Prop :=
  ∃ digits, cs = '#' :: digits ∧ digits.length = 6 ∧
    ∀ c ∈ digits, c ∈ "0123456789abcdef".toList

theorem exists_fin_of_isByte {n : Int} (h : IsByte n) : ∃ m : Fin 256, n = (m : Nat) := by
  obtain ⟨hzero, hlast⟩ := h
  obtain ⟨m, rfl⟩ := Int.eq_ofNat_of_zero_le hzero
  exact ⟨⟨m, by omega⟩, rfl⟩

theorem hexPair_byte : ∀ m : Fin 256, hexPair (m : Nat) = byteText m := by
  decide +kernel

theorem digits_byteText (m : Fin 256) : ∀ c ∈ byteText m, c ∈ "0123456789abcdef".toList := by
  have hdigits : ∀ m : Fin 256, (byteText m).all ("0123456789abcdef".toList.contains ·) = true := by
    decide +kernel
  exact fun c hc => List.contains_iff_mem.mp (List.all_eq_true.mp (hdigits m) c hc)

theorem length_hexFilled (width n : Nat) :
    (Text.hexFilled width n).length = max width (Nat.toDigits 16 n).length := by
  rw [Text.hexFilled, List.length_append, List.length_replicate]
  omega

theorem two_le_length_hexPair (n : Int) : 2 ≤ (hexPair n).length := by
  unfold hexPair
  split
  · rw [List.length_cons, length_hexFilled]
    omega
  · rw [length_hexFilled]
    omega

/-- **A channel is written in two hexadecimal digits exactly if it is a byte.** -/
theorem isByte_iff {n : Int} :
    IsByte n ↔ (hexPair n).length = 2 ∧ ∀ c ∈ hexPair n, c ∈ "0123456789abcdef".toList := by
  constructor
  · intro h
    obtain ⟨m, rfl⟩ := exists_fin_of_isByte h
    rw [hexPair_byte]
    exact ⟨rfl, digits_byteText m⟩
  · rintro ⟨hlength, hdigits⟩
    unfold hexPair at hlength hdigits
    split at hlength
    · next hnegative =>
        rw [if_pos hnegative] at hdigits
        exact absurd (hdigits '-' List.mem_cons_self) (by decide)
    · next hnonnegative =>
        rw [length_hexFilled] at hlength
        have hshort : (Nat.toDigits 16 n.natAbs).length ≤ 2 := by omega
        rw [Nat.length_toDigits_le_iff (by decide) (by decide)] at hshort
        constructor <;> omega

/-- **Only bytes make a hash of six digits.** -/
theorem isShortHash_iff {r g b : Int} :
    IsShortHash ('#' :: (hexPair r ++ hexPair g ++ hexPair b)) ↔ IsByte r ∧ IsByte g ∧
      IsByte b := by
  rw [isByte_iff, isByte_iff, isByte_iff]
  have hr := two_le_length_hexPair r
  have hg := two_le_length_hexPair g
  have hb := two_le_length_hexPair b
  constructor
  · rintro ⟨digits, heq, hlength, hdigits⟩
    obtain rfl := (List.cons.inj heq).2
    simp only [List.length_append] at hlength
    simp only [List.mem_append, or_imp, forall_and] at hdigits
    exact ⟨⟨by omega, hdigits.1.1⟩, ⟨by omega, hdigits.1.2⟩, by omega, hdigits.2⟩
  · rintro ⟨⟨hrlength, hr⟩, ⟨hglength, hg⟩, hblength, hb⟩
    refine ⟨_, rfl, ?_, ?_⟩
    · simp only [List.length_append]
      omega
    · simp only [List.mem_append, or_imp, forall_and]
      exact ⟨⟨hr, hg⟩, hb⟩

/-- Opaque bytes in their normal form. -/
theorem text_of_bytes {r g b : Int} (hr : IsByte r) (hg : IsByte g) (hb : IsByte b) :
    ∃ bytes : Channels, (bytes.red : Nat) = r ∧ (bytes.green : Nat) = g ∧ (bytes.blue : Nat) = b ∧
      bytes.alpha = 255 ∧ bytes.text = '#' :: (hexPair r ++ hexPair g ++ hexPair b) := by
  obtain ⟨red, rfl⟩ := exists_fin_of_isByte hr
  obtain ⟨green, rfl⟩ := exists_fin_of_isByte hg
  obtain ⟨blue, rfl⟩ := exists_fin_of_isByte hb
  refine ⟨⟨red, green, blue, 255⟩, rfl, rfl, rfl, rfl, ?_⟩
  rw [Channels.text, if_pos rfl, List.append_nil, hexPair_byte, hexPair_byte, hexPair_byte]

/-! ## Normal forms -/

/-- **The normal form of a colour function.** Where it is opaque, it is a hash with each channel,
times 255 and rounded to the nearest whole number, in at least two hexadecimal characters. That is
six lower-case digits exactly if every rounded channel is a byte, since nothing limits them, and
then the normal form has exactly these bytes as its channels and is classified as itself. Where it
is partly transparent, the normal form is its notation with single spaces, which has exactly the
same channels and is classified as itself. -/
theorem normal_form_of_function {raw fname : List Char} {p : Css.Position} {args : List Node}
    {name : Option (List Char)} {normal : String}
    (hone : Css.parseOne? (bareText raw) = some (.function p fname args))
    (hclass : classify raw name = .ok ⟨.color, normal⟩) :
    ∃ c, Css.functionColor? fname args = .ok (some (.concrete c)) ∧
      (isOpaque c = true → ∃ r g b,
        RoundsTo c.red r ∧ RoundsTo c.green g ∧ RoundsTo c.blue b ∧
          normal.toList = '#' :: (hexPair r ++ hexPair g ++ hexPair b) ∧
          (IsShortHash normal.toList ↔ IsByte r ∧ IsByte g ∧ IsByte b) ∧
          (IsByte r ∧ IsByte g ∧ IsByte b →
            (∃ bytes : Channels, (bytes.red : Nat) = r ∧ (bytes.green : Nat) = g ∧
              (bytes.blue : Nat) = b ∧ bytes.alpha = 255 ∧
              rgba? normal.toList = .ok (some bytes.color)) ∧
            ∀ other, classify normal.toList other = .ok ⟨.color, normal⟩)) ∧
      (isOpaque c = false →
        normal.toList = Text.collapse (bareText raw) ∧ rgba? normal.toList = .ok (some c) ∧
          ∀ other, classify normal.toList other = .ok ⟨.color, normal⟩) := by
  rw [classify_eq] at hclass
  obtain ⟨found, hfound, horOther⟩ := exists_of_map_eq_ok hclass
  obtain rfl : found = some ⟨.color, normal⟩ := by
    cases found with
    | none => cases horOther
    | some c => exact congrArg some horOther
  obtain ⟨text, htext, hnormal⟩ := normalColor?_of_recognize hfound rfl
  obtain rfl : normal = String.ofList text := (Classified.mk.inj hnormal).2
  rw [normalColor?_of_function hone] at htext
  obtain ⟨color?, hcolor, hform⟩ := exists_of_bind_eq_ok htext
  cases color? with
  | none => cases hform
  | some color =>
      cases color with
      | current => exact absurd hcolor (functionColor?_ne_current _ _)
      | concrete c =>
          obtain ⟨text', hform, heq⟩ := exists_of_map_eq_ok hform
          cases heq
          rw [String.toList_ofList]
          refine ⟨c, hcolor, fun hfull => ?_, fun hfull => ?_⟩
          · rw [normalForm, if_pos hfull] at hform
            obtain ⟨r, g, b, hr, hg, hb, rfl⟩ := exists_of_writeHash hform
            refine ⟨r, g, b, hr, hg, hb, rfl, isShortHash_iff, ?_⟩
            rintro ⟨hrbyte, hgbyte, hbbyte⟩
            obtain ⟨bytes, hred, hgreen, hblue, halpha, hbytes⟩ :=
              text_of_bytes hrbyte hgbyte hbbyte
            rw [← hbytes]
            exact ⟨⟨bytes, hred, hgreen, hblue, halpha, bytes.rgba?_text⟩, bytes.classify_text⟩
          · have hletters := isLetters_of_bracket (bracket_mem_of_parseOne? hone)
            rw [normalForm, hfull, hletters] at hform
            cases hform
            obtain ⟨hread, hagain⟩ := classify_collapse hone hcolor hfull
            exact ⟨rfl, hread, hagain⟩

theorem exists_function {node? : Option Node} (h : node?.any Node.isFunction = true) :
    ∃ p fname args, node? = some (.function p fname args) := by
  match node?, h with
  | some (.function p fname args), _ => exact ⟨p, fname, args, rfl⟩

/-- A red channel of 300 is no byte and takes three digits; a partly transparent colour keeps its
notation, also with blanks in it. -/
theorem normal_form_of_function_beyondByte :
    (classify "rgb(300, 0, 0)".toList none = .ok ⟨.color, "#12c0000"⟩ ∧
      ∃ r g b, "#12c0000".toList = '#' :: (hexPair r ++ hexPair g ++ hexPair b) ∧
        ¬ (IsByte r ∧ IsByte g ∧ IsByte b)) ∧
      classify "rgba( 9,0,\n 0, .5)".toList none = .ok ⟨.color, "rgba( 9,0, 0, .5)"⟩ ∧
      classify "rgba( 9,0, 0, .5)".toList none = .ok ⟨.color, "rgba( 9,0, 0, .5)"⟩ := by
  have hred : classify "rgb(300, 0, 0)".toList none = .ok ⟨.color, "#12c0000"⟩ := by decide +kernel
  have hkept : classify "rgba( 9,0,\n 0, .5)".toList none = .ok ⟨.color, "rgba( 9,0, 0, .5)"⟩ := by
    decide +kernel
  refine ⟨⟨hred, ?_⟩, hkept, ?_⟩
  · obtain ⟨p, fname, args, hone⟩ :
        ∃ p fname args, Css.parseOne? (bareText "rgb(300, 0, 0)".toList) =
          some (.function p fname args) :=
      exists_function (by decide +kernel)
    obtain ⟨c, -, hfull, hclear⟩ := normal_form_of_function hone hred
    cases hc : isOpaque c with
    | false => exact absurd (hclear hc).1 (by decide +kernel)
    | true =>
        obtain ⟨r, g, b, -, -, -, htext, hshort, -⟩ := hfull hc
        refine ⟨r, g, b, htext, fun hbytes => ?_⟩
        obtain ⟨digits, hdigits, hlength, -⟩ := hshort.mpr hbytes
        have hlong : digits = "12c0000".toList := (List.cons.inj hdigits).2.symm
        rw [hlong] at hlength
        exact absurd hlength (by decide)
  · obtain ⟨p, fname, args, hone⟩ :
        ∃ p fname args, Css.parseOne? (bareText "rgba( 9,0,\n 0, .5)".toList) =
          some (.function p fname args) :=
      exists_function (by decide +kernel)
    obtain ⟨c, -, hfull, hclear⟩ := normal_form_of_function hone hkept
    cases hc : isOpaque c with
    | false => exact (hclear hc).2.2 none
    | true =>
        obtain ⟨r, g, b, -, -, -, htext, -, -⟩ := hfull hc
        cases (List.cons.inj htext).1

end TokenCatalog.Value
