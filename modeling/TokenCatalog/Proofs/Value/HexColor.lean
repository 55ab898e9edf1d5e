import TokenCatalog.Proofs.Value.Flag

/-!
# Hexadecimal colours

Three, four, six or eight digits, in any letter case, denote four bytes, and the normal form is the
one short spelling of these bytes. Main statements:

* `Channels.color_injective`: bytes survive as fractions of one;
* `HexText` and `HexText.channels`: the digits of a hash colour, and the bytes that they denote;
* `Channels.literal_hexText` and `Channels.channels_hexText`: the normal form of bytes is itself a
  hash colour of the same bytes;
* `HexText.classify_eq`: a text that is read as hexadecimal digits takes the normal form of their
  bytes.
-/

namespace TokenCatalog.Value

open TokenCatalog.Css (ColorFault Rgba channel)

/-! ## Bytes -/

def byteText (n : Fin 256) : List Char :=
  [Text.hexDigit (n / 16), Text.hexDigit (n % 16)]

/-- A byte as a fraction of one is written as the same byte. -/
theorem writeChannel_channel : ∀ n : Fin 256, writeChannel (channel n) = .ok (byteText n) := by
  decide +kernel

/-- A byte survives the division by 255 and the rounding back. -/
theorem round_channel : ∀ n : Fin 256,
    ((channel n).mul (.ofInt 255)).round? = some ((n : Nat) : Int) := by
  decide +kernel

theorem one_le_channel : ∀ n : Fin 256, Binary64.one.le (channel n) = decide (n = 255) := by
  decide +kernel

theorem channel_last : channel (255 : Fin 256) = .one := by
  decide +kernel

theorem channel_injective {m n : Fin 256} (h : channel m = channel n) : m = n := by
  have hround := (round_channel m).symm.trans (h ▸ round_channel n)
  exact Fin.ext (Int.ofNat.inj (Option.some.inj hround))

/-- Red, green, blue and opacity as bytes. -/
structure Channels where
  red : Fin 256
  green : Fin 256
  blue : Fin 256
  alpha : Fin 256
  deriving DecidableEq

namespace Channels

/-- The colour of bytes. -/
def color (c : Channels) : Rgba :=
  ⟨channel c.red, channel c.green, channel c.blue, channel c.alpha⟩

/-- The normal form of bytes: two digits each, and none for the opacity of an opaque colour. -/
def text (c : Channels) : List Char :=
  '#' :: (byteText c.red ++ byteText c.green ++ byteText c.blue ++
    if c.alpha = 255 then [] else byteText c.alpha)

theorem color_injective {c d : Channels} (h : c.color = d.color) : c = d := by
  obtain ⟨hr, hg, hb, ha⟩ := Rgba.mk.inj h
  rw [mk.injEq]
  exact ⟨channel_injective hr, channel_injective hg, channel_injective hb, channel_injective ha⟩

theorem writeHash_color (c : Channels) :
    writeHash c.color = .ok ('#' :: (byteText c.red ++ byteText c.green ++ byteText c.blue)) := by
  rw [writeHash, color, writeChannel_channel, writeChannel_channel, writeChannel_channel]
  rfl

theorem isOpaque_color (c : Channels) : isOpaque c.color = decide (c.alpha = 255) :=
  one_le_channel c.alpha

theorem normalHash_color (c : Channels) : normalHash c.color = .ok c.text := by
  rw [normalHash, writeHash_color, isOpaque_color, text]
  by_cases hfull : c.alpha = 255
  · simp [hfull, bind, Except.bind]
  · have halpha : writeChannel c.color.alpha = .ok (byteText c.alpha) :=
      writeChannel_channel c.alpha
    simp [hfull, halpha, bind, Except.bind]

end Channels

/-! ## Digits -/

abbrev HexDigit := { c : Char // Text.isHex c = true }

/-- The value of a digit. -/
def HexDigit.value (d : HexDigit) : Fin 16 :=
  ⟨(Text.hexValue? d.1).get d.2, Css.hexValue?_lt (Option.some_get d.2).symm⟩

theorem HexDigit.hexValue?_eq (d : HexDigit) : Text.hexValue? d.1 = some (d.value : Nat) :=
  (Option.some_get d.2).symm

def HexDigit.twice (d : HexDigit) : Fin 256 :=
  ⟨d.value * 17, by omega⟩

def HexDigit.pair (d e : HexDigit) : Fin 256 :=
  ⟨d.value * 16 + e.value, by omega⟩

/-- Three, four, six or eight hexadecimal digits. -/
inductive HexText where
  | three (r g b : HexDigit)
  | four (r g b a : HexDigit)
  | six (r r' g g' b b' : HexDigit)
  | eight (r r' g g' b b' a a' : HexDigit)

namespace HexText

def row : HexText → List HexDigit
  | three r g b => [r, g, b]
  | four r g b a => [r, g, b, a]
  | six r r' g g' b b' => [r, r', g, g', b, b']
  | eight r r' g g' b b' a a' => [r, r', g, g', b, b', a, a']

/-- The text of the digits. -/
def digits (h : HexText) : List Char := h.row.map (·.1)

/-- The digits behind a hash. -/
def literal (h : HexText) : List Char := '#' :: h.digits

/-- The bytes that digits denote. Without digits for it, the opacity is full. -/
def channels : HexText → Channels
  | three r g b => ⟨r.twice, g.twice, b.twice, 255⟩
  | four r g b a => ⟨r.twice, g.twice, b.twice, a.twice⟩
  | six r r' g g' b b' => ⟨r.pair r', g.pair g', b.pair b', 255⟩
  | eight r r' g g' b b' a a' => ⟨r.pair r', g.pair g', b.pair b', a.pair a'⟩

/-- Digits that are a colour also without a hash, under a name that says so. -/
def IsBare (h : HexText) : Prop :=
  h.digits.length ≠ 4 ∧ ∃ c ∈ h.digits, c.isAlpha = true

/-- Every text of that many digits is one of these. -/
theorem exists_digits {cs : List Char} (hdigits : ∀ c ∈ cs, Text.isHex c = true)
    (hlength : cs.length ∈ [3, 4, 6, 8]) : ∃ h : HexText, h.digits = cs := by
  obtain ⟨row, rfl⟩ : ∃ row : List HexDigit, row.map (·.1) = cs :=
    ⟨cs.pmap Subtype.mk hdigits, by rw [List.map_pmap, List.pmap_eq_map, List.map_id']⟩
  rw [List.length_map] at hlength
  match row, hlength with
  | [r, g, b], _ => exact ⟨three r g b, rfl⟩
  | [r, g, b, a], _ => exact ⟨four r g b a, rfl⟩
  | [r, r', g, g', b, b'], _ => exact ⟨six r r' g g' b b', rfl⟩
  | [r, r', g, g', b, b', a, a'], _ => exact ⟨eight r r' g g' b b' a a', rfl⟩
  | [], h | [_], h | [_, _], h | [_, _, _, _, _], h | [_, _, _, _, _, _, _], h => simp at h
  | _ :: _ :: _ :: _ :: _ :: _ :: _ :: _ :: _ :: _, h => simp at h

/-! ## Reading digits -/

def values (h : HexText) : List Nat := h.row.map fun d => d.value

theorem mapM_row (row : List HexDigit) :
    (row.map (·.1)).mapM Text.hexValue? = some (row.map fun d => (d.value : Nat)) := by
  induction row with
  | nil => rfl
  | cons d row ih =>
      rw [List.map_cons, List.mapM_cons, d.hexValue?_eq, ih]
      rfl

theorem isHex_of_mem {h : HexText} {c : Char} (hc : c ∈ h.digits) : Text.isHex c = true := by
  obtain ⟨d, -, rfl⟩ := List.mem_map.mp hc
  exact d.2

theorem length_values (h : HexText) : [3, 4, 6, 8].contains h.values.length = true := by
  cases h <;> rfl

theorem hexDigits?_digits (h : HexText) : hexDigits? h.digits = some h.values := by
  have hline : Css.dropFinalNewline h.digits = h.digits := by
    rw [Css.dropFinalNewline, if_neg]
    intro hlast
    have hhex := isHex_of_mem (List.mem_of_getLast? hlast)
    cases hhex
  rw [hexDigits?, hline, digits, mapM_row]
  exact if_pos h.length_values

theorem digitsColor?_values (h : HexText) : Css.digitsColor? h.values = some h.channels.color := by
  cases h <;>
    simp only [values, row, List.map_cons, List.map_nil, Css.digitsColor?, Css.opaqueColor,
      channels, Channels.color, HexDigit.twice, HexDigit.pair, channel_last]

end HexText

/-! ## The normal form as a hash colour -/

def HexDigit.ofValue (n : Fin 16) : HexDigit :=
  ⟨Text.hexDigit n, by revert n; decide⟩

@[simp] theorem HexDigit.value_ofValue : ∀ n : Fin 16, (HexDigit.ofValue n).value = n := by
  decide

def highHalf (n : Fin 256) : Fin 16 := ⟨n / 16, by omega⟩

def lowHalf (n : Fin 256) : Fin 16 := ⟨n % 16, by omega⟩

theorem pair_halves (n : Fin 256) :
    (HexDigit.ofValue (highHalf n)).pair (.ofValue (lowHalf n)) = n := by
  refine Fin.ext ?_
  simp only [HexDigit.pair, HexDigit.value_ofValue, highHalf, lowHalf]
  omega

namespace Channels

def hexText (c : Channels) : HexText :=
  let digit (n : Fin 16) := HexDigit.ofValue n
  if c.alpha = 255 then
    .six (digit (highHalf c.red)) (digit (lowHalf c.red)) (digit (highHalf c.green))
      (digit (lowHalf c.green)) (digit (highHalf c.blue)) (digit (lowHalf c.blue))
  else
    .eight (digit (highHalf c.red)) (digit (lowHalf c.red)) (digit (highHalf c.green))
      (digit (lowHalf c.green)) (digit (highHalf c.blue)) (digit (lowHalf c.blue))
      (digit (highHalf c.alpha)) (digit (lowHalf c.alpha))

/-- **The normal form is itself a hash colour.** -/
theorem literal_hexText (c : Channels) : c.hexText.literal = c.text := by
  unfold hexText text
  dsimp only
  split <;> rfl

/-- **It denotes the same bytes.** -/
theorem channels_hexText (c : Channels) : c.hexText.channels = c := by
  unfold hexText
  dsimp only
  split
  · next hfull =>
      obtain ⟨r, g, b, a⟩ := c
      subst hfull
      simp only [HexText.channels, pair_halves]
  · simp only [HexText.channels, pair_halves]

end Channels

/-! ## Plain texts -/

/-- A text without blanks and exclamation marks is classified as it stands. -/
theorem bareText_of_plain {cs : List Char} (h : ∀ c ∈ cs, Text.isBlank c = false ∧ c ≠ '!') :
    bareText cs = cs := by
  rw [bareText_eq]
  refine stripFlags_of_bare (Text.strip_of_plain fun c hc => (h c hc).1) ?_
  rintro ⟨front, f, rfl⟩
  exact (h '!' (by simp [Flag.text])).2 rfl

namespace HexText

variable (h : HexText)

theorem plain_digits : ∀ c ∈ h.digits, Text.isBlank c = false ∧ c ≠ '!' := by
  intro c hc
  refine ⟨Text.isBlank_of_isHex (isHex_of_mem hc), ?_⟩
  rintro rfl
  cases isHex_of_mem hc

theorem plain_literal : ∀ c ∈ h.literal, Text.isBlank c = false ∧ c ≠ '!' :=
  List.forall_mem_cons.mpr ⟨by decide, h.plain_digits⟩

/-! ## Classification -/

theorem colorDigits?_literal (name : List Char) : colorDigits? h.literal name = some h.values := by
  have hhash : hashDigits? h.literal = some h.values := h.hexDigits?_digits
  rw [colorDigits?, hhash]
  rfl

theorem hashDigits?_digits : hashDigits? h.digits = none := by
  unfold hashDigits?
  split
  · next cs hcs =>
      have hmem : '#' ∈ h.digits := hcs ▸ List.mem_cons_self
      cases isHex_of_mem hmem
  · rfl

theorem colorDigits?_digits {name : List Char} (hbare : h.IsBare)
    (hname : isColorName name = true) :
    colorDigits? h.digits name = some h.values := by
  obtain ⟨hlength, c, hc, hletter⟩ := hbare
  have hlong : (h.values.length != 4) = true := by
    rw [digits, List.length_map] at hlength
    rw [values, List.length_map]
    exact bne_iff_ne.mpr hlength
  have hletters : h.values.any (9 < ·) = true := by
    obtain ⟨d, hd, rfl⟩ := List.mem_map.mp hc
    refine List.any_eq_true.mpr ⟨d.value, List.mem_map.mpr ⟨d, hd, rfl⟩, ?_⟩
    exact decide_eq_true ((Text.isAlpha_iff_of_hexValue? d.hexValue?_eq).mp hletter)
  rw [colorDigits?, hashDigits?_digits, hname, bareDigits?, hexDigits?_digits]
  exact if_pos (by rw [hlong, hletters]; rfl)

theorem normalColor?_eq {cs name : List Char} (hdigits : colorDigits? cs name = some h.values) :
    normalColor? cs name = .ok (some h.channels.text) := by
  rw [Value.normalColor?_eq, hdigits, Option.bind_some, digitsColor?_values]
  exact congrArg (Except.map some) h.channels.normalHash_color

/-- **A text that is read as hexadecimal digits takes the normal form of their bytes.** -/
theorem classify_eq {cs : List Char} {name : Option (List Char)}
    (hplain : ∀ c ∈ cs, Text.isBlank c = false ∧ c ≠ '!') (hne : cs ≠ [])
    (hdigits : colorDigits? cs (Text.asciiLower (name.getD [])) = some h.values) :
    classify cs name = .ok ⟨.color, String.ofList h.channels.text⟩ := by
  rw [Value.classify_eq, bareText_of_plain hplain,
    recognize_of_normalColor? hne (h.normalColor?_eq hdigits)]
  rfl

theorem classify_literal (name : Option (List Char)) :
    classify h.literal name = .ok ⟨.color, String.ofList h.channels.text⟩ :=
  h.classify_eq h.plain_literal (List.cons_ne_nil _ _) (h.colorDigits?_literal _)

theorem rgba?_literal : rgba? h.literal = .ok (some h.channels.color) := by
  have hhash : hashDigits? h.literal = some h.values := h.hexDigits?_digits
  rw [rgba?, Text.strip_of_plain fun c hc => (h.plain_literal c hc).1, hhash, Option.bind_some,
    digitsColor?_values]

end HexText

/-- **The normal form of bytes is classified as itself.** -/
theorem Channels.classify_text (c : Channels) (name : Option (List Char)) :
    classify c.text name = .ok ⟨.color, String.ofList c.text⟩ := by
  have hclassify := c.hexText.classify_literal name
  rwa [literal_hexText, channels_hexText] at hclassify

theorem Channels.rgba?_text (c : Channels) : rgba? c.text = .ok (some c.color) := by
  have hrgba := c.hexText.rgba?_literal
  rwa [literal_hexText, channels_hexText] at hrgba

theorem Channels.text_injective {c d : Channels} (h : c.text = d.text) : c = d := by
  have hcolor := c.rgba?_text.symm.trans (h ▸ d.rgba?_text)
  exact color_injective (Option.some.inj (Except.ok.inj hcolor))

/-! ## Hash colours -/

/-- A declared name says that it holds a colour, in any letter case. -/
def NamesColor (name : Option (List Char)) : Prop :=
  "color".toList <:+: Text.asciiLower (name.getD []) ∨
    "colour".toList <:+: Text.asciiLower (name.getD [])

theorem isColorName_iff {name : Option (List Char)} :
    isColorName (Text.asciiLower (name.getD [])) = true ↔ NamesColor name := by
  rw [isColorName, Bool.or_eq_true, Text.occursIn_iff, Text.occursIn_iff, NamesColor]

/-- **Hexadecimal colours have one normal form.** Three, four, six or eight digits in any letter
case behind a hash are a colour; so are they without it under a colour's name, if there are not four
of them and one is a letter. The normal form is that of the four bytes that they denote: `#` and two
lower-case digits for each, the opacity left out where it is full. Text and normal form have exactly
the same channels, the normal form is classified as itself, and two such texts have the same normal
form exactly if they have the same channels. -/
theorem hex_colors_canonical {digits : List Char} (hdigits : ∀ c ∈ digits, Text.isHex c = true)
    (hlength : digits.length ∈ [3, 4, 6, 8]) :
    ∃ h : HexText, h.digits = digits ∧
      (∀ name, classify ('#' :: digits) name = .ok ⟨.color, String.ofList h.channels.text⟩) ∧
      (∀ name, NamesColor name → digits.length ≠ 4 → (∃ c ∈ digits, c.isAlpha = true) →
        classify digits name = .ok ⟨.color, String.ofList h.channels.text⟩) ∧
      rgba? ('#' :: digits) = .ok (some h.channels.color) ∧
      rgba? h.channels.text = .ok (some h.channels.color) ∧
      (∀ name, classify h.channels.text name = .ok ⟨.color, String.ofList h.channels.text⟩) ∧
      ∀ other : HexText, other.channels.text = h.channels.text ↔
        rgba? other.literal = rgba? ('#' :: digits) := by
  obtain ⟨h, rfl⟩ := HexText.exists_digits hdigits hlength
  have hrgba : rgba? ('#' :: h.digits) = .ok (some h.channels.color) := h.rgba?_literal
  refine ⟨h, rfl, h.classify_literal, fun name hname hlong hletter => ?_, hrgba,
    h.channels.rgba?_text, h.channels.classify_text, fun other => ?_⟩
  · have hne : h.digits ≠ [] := by
      intro hnil
      rw [hnil] at hlength
      exact absurd hlength (by decide)
    exact h.classify_eq h.plain_digits hne
      (h.colorDigits?_digits ⟨hlong, hletter⟩ (isColorName_iff.mpr hname))
  · rw [hrgba, other.rgba?_literal]
    constructor
    · intro htext
      rw [Channels.text_injective htext]
    · intro hcolor
      rw [Channels.color_injective (Option.some.inj (Except.ok.inj hcolor))]

/-- Six digits of mixed case without a hash, under a colour's name. -/
theorem hex_colors_canonical_mixedCase :
    ((∀ c ∈ "1A2b3c".toList, Text.isHex c = true) ∧ "1A2b3c".toList.length ∈ [3, 4, 6, 8] ∧
      NamesColor (some "brand-Color".toList)) ∧
      classify "1A2b3c".toList (some "brand-Color".toList) = .ok ⟨.color, "#1a2b3c"⟩ ∧
      classify "#1A2b3c".toList none = .ok ⟨.color, "#1a2b3c"⟩ := by
  have hdigits : ∀ c ∈ "1A2b3c".toList, Text.isHex c = true := List.all_eq_true.mp (by decide)
  have hlength : "1A2b3c".toList.length ∈ [3, 4, 6, 8] := by decide
  have hname : NamesColor (some "brand-Color".toList) := isColorName_iff.mp (by decide)
  obtain ⟨h, -, hliteral, hbare, hrgba, -⟩ := hex_colors_canonical hdigits hlength
  have hchannels : h.channels = ⟨26, 43, 60, 255⟩ := by
    have hread : rgba? "#1A2b3c".toList = .ok (some (Channels.mk 26 43 60 255).color) := by
      decide +kernel
    exact Channels.color_injective (Option.some.inj (Except.ok.inj (hrgba.symm.trans hread)))
  have htext : String.ofList h.channels.text = "#1a2b3c" := by
    rw [hchannels]
    decide +kernel
  refine ⟨⟨hdigits, hlength, hname⟩, ?_, ?_⟩
  · have hletter : ∃ c ∈ "1A2b3c".toList, c.isAlpha = true := List.any_eq_true.mp (by decide)
    rw [hbare _ hname (by decide) hletter, htext]
  · exact (hliteral none).trans (by rw [htext])

end TokenCatalog.Value
