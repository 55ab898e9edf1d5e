import TokenCatalog.Bytes.Base64
import Mathlib.Algebra.Group.Nat.Defs
import Mathlib.Data.List.Basic

/-!
# Base64 is exact

A base64 text says the bits of the bytes in groups of six, filled up with zeros to a whole letter,
and marks to a whole group of four. That is said here without an encoder or a decoder. Main
statements:

* `spells_encode`: what encoding gives spells the bytes;
* `Spells.unique`: a text spells one row of bytes at most;
* `decode?_encode`: decoding inverts encoding.
-/

namespace TokenCatalog.Base64

/-! ## Bits -/

def bits : Nat → Nat → List Bool
  | 0, _ => []
  | width + 1, n => bits width (n / 2) ++ [decide (n % 2 = 1)]

theorem length_bits (width n : Nat) : (bits width n).length = width := by
  induction width generalizing n with
  | zero => rfl
  | succ width ih => simp [bits, ih]

theorem bits_zero (width : Nat) : bits width 0 = List.replicate width false := by
  induction width with
  | zero => rfl
  | succ width ih => simp [bits, ih, List.replicate_succ']

/-- The bits of a number are those of its high part and those of its low part. -/
theorem bits_add (high low m n : Nat) (h : n < 2 ^ low) :
    bits (high + low) (m * 2 ^ low + n) = bits high m ++ bits low n := by
  induction low generalizing n with
  | zero =>
      obtain rfl : n = 0 := by simpa using h
      simp [bits]
  | succ low ih =>
      rw [Nat.pow_succ] at h
      have hhalf : n / 2 < 2 ^ low := by omega
      have hdiv : (m * 2 ^ (low + 1) + n) / 2 = m * 2 ^ low + n / 2 := by
        rw [Nat.pow_succ, ← Nat.mul_assoc]
        omega
      have hmod : (m * 2 ^ (low + 1) + n) % 2 = n % 2 := by
        rw [Nat.pow_succ, ← Nat.mul_assoc]
        omega
      rw [← Nat.add_assoc, bits, hdiv, hmod, ih _ hhalf, bits, List.append_assoc]

theorem bits_split (high low n : Nat) :
    bits (high + low) n = bits high (n / 2 ^ low) ++ bits low (n % 2 ^ low) := by
  rw [← bits_add _ _ _ _ (Nat.mod_lt _ (Nat.two_pow_pos low)), Nat.div_add_mod']

theorem bits_injective {width m n : Nat} (hm : m < 2 ^ width) (hn : n < 2 ^ width)
    (h : bits width m = bits width n) : m = n := by
  induction width generalizing m n with
  | zero => omega
  | succ width ih =>
      rw [Nat.pow_succ] at hm hn
      simp only [bits] at h
      obtain ⟨hhigh, hlow⟩ := List.append_inj h (by simp [length_bits])
      have hhalves := ih (by omega) (by omega) hhigh
      have hlast : m % 2 = 1 ↔ n % 2 = 1 := by simpa [eq_comm] using hlow
      omega

def bitsOf (bytes : List UInt8) : List Bool :=
  bytes.flatMap fun b => bits 8 b.toNat

theorem bitsOf_cons (b : UInt8) (bytes : List UInt8) :
    bitsOf (b :: bytes) = bits 8 b.toNat ++ bitsOf bytes :=
  rfl

theorem bitsOf_injective {xs ys : List UInt8} (h : bitsOf xs = bitsOf ys) : xs = ys := by
  have hlength : ∀ zs : List UInt8, (bitsOf zs).length = 8 * zs.length := by
    intro zs
    induction zs with
    | nil => rfl
    | cons z zs ih =>
        rw [bitsOf_cons, List.length_append, length_bits, ih, List.length_cons]
        omega
  induction xs generalizing ys with
  | nil =>
      have hys := congrArg List.length h
      rw [hlength, hlength, List.length_nil] at hys
      exact (List.eq_nil_of_length_eq_zero (by omega)).symm
  | cons x xs ih =>
      cases ys with
      | nil => simpa [hlength] using congrArg List.length h
      | cons y ys =>
          rw [bitsOf_cons, bitsOf_cons] at h
          obtain ⟨hbyte, hrest⟩ := List.append_inj h (by simp [length_bits])
          have hxy := bits_injective (x.toNat_lt) (y.toNat_lt) hbyte
          rw [UInt8.toNat_inj.mp hxy, ih hrest]

/-! ## Letters -/

/-- The value of a letter of the standard alphabet: capitals, small letters, digits and two
signs. -/
def sextet? (c : Char) : Option Nat :=
  if 'A' ≤ c ∧ c ≤ 'Z' then some (c.toNat - 'A'.toNat)
  else if 'a' ≤ c ∧ c ≤ 'z' then some (c.toNat - 'a'.toNat + 26)
  else if '0' ≤ c ∧ c ≤ '9' then some (c.toNat - '0'.toNat + 52)
  else if c = '+' then some 62
  else if c = '/' then some 63
  else none

set_option maxRecDepth 2000 in
theorem sextet?_letter : ∀ n < 64, sextet? (letter n) = some n := by
  decide

set_option maxRecDepth 2000 in
theorem value?_letter : ∀ n < 64, value? (letter n) = some n := by
  decide

set_option maxRecDepth 2000 in
theorem letter_ne_mark : ∀ n < 64, letter n ≠ '=' := by
  decide

/-! ## Spelling -/

/-- **A text spells bytes**: letters whose values have the bits of the bytes and then two zeros for
each filling mark, and less than three such marks, up to a multiple of four. -/
def Spells (text : List Char) (bytes : List UInt8) : Prop :=
  ∃ (letters : List Char) (values : List Nat) (marks : Nat),
    text = letters ++ List.replicate marks '=' ∧ marks < 3 ∧ 4 ∣ text.length ∧
    letters.map sextet? = values.map some ∧
    values.flatMap (bits 6) = bitsOf bytes ++ List.replicate (2 * marks) false

theorem mark_not_mem {letters : List Char} {values : List Nat}
    (h : letters.map sextet? = values.map some) : '=' ∉ letters := by
  intro hmark
  have hnone : (none : Option Nat) ∈ letters.map sextet? := List.mem_map.mpr ⟨'=', hmark, by decide⟩
  simp [h] at hnone

/-- **A text spells one row of bytes at most.** -/
theorem Spells.unique {text : List Char} {xs ys : List UInt8} (hx : Spells text xs)
    (hy : Spells text ys) : xs = ys := by
  obtain ⟨letters, values, marks, rfl, -, -, hvalues, hbits⟩ := hx
  obtain ⟨letters', values', marks', htext, -, -, hvalues', hbits'⟩ := hy
  have hletters : ∀ {cs : List Char} (n : Nat), '=' ∉ cs →
      (cs ++ List.replicate n '=').takeWhile (· != '=') = cs := by
    intro cs n hcs
    rw [List.takeWhile_append_of_pos]
    · cases n <;> simp [List.replicate_succ]
    · intro c hc
      have hne : c ≠ '=' := fun h => hcs (h ▸ hc)
      simpa using hne
  have hsame : letters = letters' := by
    rw [← hletters marks (mark_not_mem hvalues), htext, hletters marks' (mark_not_mem hvalues')]
  subst hsame
  obtain rfl : values = values' := by
    rw [hvalues] at hvalues'
    exact List.map_injective_iff.mpr (fun _ _ => Option.some.inj) hvalues'
  obtain rfl : marks = marks' := by simpa using congrArg List.length htext
  rw [hbits] at hbits'
  exact bitsOf_injective (List.append_cancel_right hbits')

/-! ## Encoding -/

/-- The bits of a byte: those that begin in one letter and those that go on in the next. -/
theorem bits_byte (b : UInt8) :
    bits 8 b.toNat = bits 6 (b.toNat / 4) ++ bits 2 (b.toNat % 4) ∧
      bits 8 b.toNat = bits 4 (b.toNat / 16) ++ bits 4 (b.toNat % 16) ∧
      bits 8 b.toNat = bits 2 (b.toNat / 64) ++ bits 6 (b.toNat % 64) :=
  ⟨bits_split 6 2 _, bits_split 4 4 _, bits_split 2 6 _⟩

/-- A letter that ends one byte and begins the next. -/
theorem bits_second (a b : UInt8) :
    bits 6 (a.toNat % 4 * 16 + b.toNat / 16) = bits 2 (a.toNat % 4) ++ bits 4 (b.toNat / 16) :=
  bits_add 2 4 _ _ (by have := b.toNat_lt; omega)

theorem bits_third (b c : UInt8) :
    bits 6 (b.toNat % 16 * 4 + c.toNat / 64) = bits 4 (b.toNat % 16) ++ bits 2 (c.toNat / 64) :=
  bits_add 4 2 _ _ (by have := c.toNat_lt; omega)

/-- The last letter of one byte or of two is filled with zeros. -/
theorem bits_filled (high low m : Nat) :
    bits (high + low) (m * 2 ^ low) = bits high m ++ List.replicate low false := by
  rw [← bits_zero, ← bits_add _ _ _ _ (Nat.two_pow_pos low), Nat.add_zero]

theorem sextet?_letters {values : List Nat} (h : ∀ n ∈ values, n < 64) :
    (values.map letter).map sextet? = values.map some := by
  rw [List.map_map]
  exact List.map_congr_left fun n hn => sextet?_letter n (h n hn)

/-- Four letters with the bits of three bytes may be put in front. -/
theorem Spells.group {text : List Char} {bytes : List UInt8} (h : Spells text bytes)
    (front : List Nat) (three : List UInt8) (hlength : front.length = 4) (hlt : ∀ n ∈ front, n < 64)
    (hbits : front.flatMap (bits 6) = bitsOf three) :
    Spells (front.map letter ++ text) (three ++ bytes) := by
  obtain ⟨letters, values, marks, rfl, hmarks, hwhole, hvalues, hrest⟩ := h
  refine ⟨front.map letter ++ letters, front ++ values, marks, by simp, hmarks, ?_, ?_, ?_⟩
  · rw [List.length_append, List.length_map, hlength]
    exact Nat.dvd_add (Nat.dvd_refl 4) hwhole
  · rw [List.map_append, List.map_append, sextet?_letters hlt, hvalues]
  · rw [List.flatMap_append, hbits, hrest, ← List.append_assoc]
    simp [bitsOf]

/-- **What encoding gives spells the bytes.** -/
theorem spells_encode (bytes : List UInt8) : Spells (encode bytes) bytes := by
  fun_induction encode bytes with
  | case1 => exact ⟨[], [], 0, rfl, by decide, by decide, rfl, rfl⟩
  | case2 a =>
      have ha := a.toNat_lt
      have hlt : ∀ n ∈ [a.toNat / 4, a.toNat % 4 * 16], n < 64 := by
        simp only [List.forall_mem_cons]
        exact ⟨by omega, by omega, nofun⟩
      have hlast : bits 6 (a.toNat % 4 * 16) = bits 2 (a.toNat % 4) ++ List.replicate 4 false :=
        bits_filled 2 4 _
      refine ⟨_, _, 2, rfl, by decide, ⟨1, rfl⟩, sextet?_letters hlt, ?_⟩
      simp [bitsOf, (bits_byte a).1, hlast]
  | case3 a b =>
      have ha := a.toNat_lt
      have hb := b.toNat_lt
      have hlt : ∀ n ∈ [a.toNat / 4, a.toNat % 4 * 16 + b.toNat / 16, b.toNat % 16 * 4],
          n < 64 := by
        simp only [List.forall_mem_cons]
        exact ⟨by omega, by omega, by omega, nofun⟩
      have hlast : bits 6 (b.toNat % 16 * 4) = bits 4 (b.toNat % 16) ++ List.replicate 2 false :=
        bits_filled 4 2 _
      refine ⟨_, _, 1, rfl, by decide, ⟨1, rfl⟩, sextet?_letters hlt, ?_⟩
      simp [bitsOf, (bits_byte a).1, (bits_byte b).2.1, bits_second, hlast]
  | case4 a b c rest ih =>
      have ha := a.toNat_lt
      have hb := b.toNat_lt
      have hc := c.toNat_lt
      refine ih.group [a.toNat / 4, a.toNat % 4 * 16 + b.toNat / 16,
        b.toNat % 16 * 4 + c.toNat / 64, c.toNat % 64] [a, b, c] rfl ?_ ?_
      · simp only [List.forall_mem_cons]
        exact ⟨by omega, by omega, by omega, by omega, nofun⟩
      · simp [bitsOf, (bits_byte a).1, (bits_byte b).2.1, (bits_byte c).2.2, bits_second,
          bits_third]

/-! ## Decoding -/

theorem ofNat_of_eq {b : UInt8} {n : Nat} (h : n = b.toNat) : UInt8.ofNat n = b := by
  rw [h, UInt8.ofNat_toNat]

/-- **Decoding inverts encoding.** -/
theorem decode?_encode (bytes : List UInt8) : decode? (encode bytes) = some bytes := by
  fun_induction encode bytes with
  | case1 => rfl
  | case2 a =>
      have ha := a.toNat_lt
      rw [decode?, value?_letter _ (by omega), value?_letter _ (by omega)]
      show (if a.toNat % 4 * 16 % 16 = 0 then some [_] else none) = _
      rw [if_pos (by omega), @ofNat_of_eq a _ (by omega)]
  | case3 a b =>
      have ha := a.toNat_lt
      have hb := b.toNat_lt
      rw [decode?, value?_letter _ (by omega), value?_letter _ (by omega),
        value?_letter _ (by omega)]
      · show (if b.toNat % 16 * 4 % 4 = 0 then some [_, _] else none) = _
        rw [if_pos (by omega), @ofNat_of_eq a _ (by omega), @ofNat_of_eq b _ (by omega)]
      · exact letter_ne_mark _ (by omega)
  | case4 a b c rest ih =>
      have ha := a.toNat_lt
      have hb := b.toNat_lt
      have hc := c.toNat_lt
      rw [decode?, value?_letter _ (by omega), value?_letter _ (by omega),
        value?_letter _ (by omega), value?_letter _ (by omega), ih]
      · show some (_ :: _ :: _ :: rest) = _
        rw [@ofNat_of_eq a _ (by omega), @ofNat_of_eq b _ (by omega), @ofNat_of_eq c _ (by omega)]
      · exact fun _ hmark _ => letter_ne_mark _ (by omega) hmark
      · exact fun hmark _ => letter_ne_mark _ (by omega) hmark

end TokenCatalog.Base64
