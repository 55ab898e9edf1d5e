import Mathlib.Data.UInt
import TokenCatalog.Bytes.Utf8

/-!
# Text as bytes and back

Main statements: `Utf8.decode_encode`, every text is decoded from its bytes; and
`Utf8.length_encode`, a text has as many bytes as a string of its characters has in memory.
-/

namespace TokenCatalog.Utf8

/-! ## Bytes by number -/

theorem toNat_ofNat {n : Nat} (h : n < 256) : (UInt8.ofNat n).toNat = n := by
  rw [UInt8.toNat_ofNat', Nat.mod_eq_of_lt h]

theorem toNat_continuation (n : Nat) : (continuation n).toNat = 128 + n % 64 :=
  toNat_ofNat (by omega)

theorem isContinuation_continuation (n : Nat) : isContinuation (continuation n) = true := by
  simp only [isContinuation, UInt8.le_iff_toNat_le, UInt8.lt_iff_toNat_lt, toNat_continuation,
    UInt8.reduceToNat, Bool.and_eq_true, decide_eq_true_eq]
  omega

theorem low6_continuation (n : Nat) : low6 (continuation n) = n % 64 := by
  rw [low6, toNat_continuation]
  omega

/-! ## Characters -/

theorem toNat_lt (c : Char) : c.toNat < 0x110000 :=
  c.valid.elim (fun h => Nat.lt_trans h (by decide)) And.right

theorem step_one {c : Char} (h : c.toNat < 0x80) (rest : List UInt8) :
    step (UInt8.ofNat c.toNat) rest = .char c rest := by
  have hlead := toNat_ofNat (n := c.toNat) (by omega)
  simp only [step, UInt8.lt_iff_toNat_lt, hlead, UInt8.reduceToNat, Char.ofNat_toNat]
  rw [if_pos h]

theorem step_two {c : Char} (hlow : 0x80 ≤ c.toNat) (hhigh : c.toNat < 0x800)
    (rest : List UInt8) :
    step (UInt8.ofNat (0xC0 + c.toNat / 64)) (continuation c.toNat :: rest) = .char c rest := by
  have hlead := toNat_ofNat (n := 0xC0 + c.toNat / 64) (by omega)
  have hcode : (0xC0 + c.toNat / 64) % 32 * 64 + c.toNat % 64 = c.toNat := by omega
  simp only [step, UInt8.lt_iff_toNat_lt, hlead, UInt8.reduceToNat, isContinuation_continuation,
    low6_continuation, hcode, Char.ofNat_toNat]
  rw [if_neg (by omega), if_neg (by simp; omega), if_pos (by omega), if_pos trivial]

/-- A code point of three bytes is no surrogate, so its second byte may follow its first. -/
theorem followsLead_three {n : Nat} (hlow : 0x800 ≤ n) (hhigh : n < 0x10000)
    (hvalid : n < 0xD800 ∨ 0xDFFF < n) :
    followsLead (UInt8.ofNat (0xE0 + n / 4096)) (continuation (n / 64)) = true := by
  have hlead := toNat_ofNat (n := 0xE0 + n / 4096) (by omega)
  simp only [followsLead, isContinuation_continuation, Bool.true_and, ← UInt8.toNat_inj,
    UInt8.le_iff_toNat_le, UInt8.lt_iff_toNat_lt, hlead, toNat_continuation, UInt8.reduceToNat]
  split
  · simp; omega
  split
  · simp; omega
  split
  · omega
  split
  · omega
  · rfl

theorem step_three {c : Char} (hlow : 0x800 ≤ c.toNat) (hhigh : c.toNat < 0x10000)
    (rest : List UInt8) :
    step (UInt8.ofNat (0xE0 + c.toNat / 4096))
      (continuation (c.toNat / 64) :: continuation c.toNat :: rest) = .char c rest := by
  -- characters are no surrogates, which keeps the second byte after 0xED in its range
  have hvalid : c.toNat < 0xD800 ∨ 0xDFFF < c.toNat := by
    exact c.valid.imp_right And.left
  have hlead := toNat_ofNat (n := 0xE0 + c.toNat / 4096) (by omega)
  have hcode : ((0xE0 + c.toNat / 4096) % 16 * 64 + c.toNat / 64 % 64) * 64 + c.toNat % 64 =
      c.toNat := by omega
  simp only [step, UInt8.lt_iff_toNat_lt, hlead, UInt8.reduceToNat, isContinuation_continuation,
    followsLead_three hlow hhigh hvalid, low6_continuation, hcode, Char.ofNat_toNat]
  rw [if_neg (by omega), if_neg (by simp; omega), if_neg (by omega), if_neg (by simp),
    if_neg (by simp), if_pos (by omega)]

/-- A code point of four bytes is not above the last one. -/
theorem followsLead_four {n : Nat} (hlow : 0x10000 ≤ n) (hhigh : n < 0x110000) :
    followsLead (UInt8.ofNat (0xF0 + n / 262144)) (continuation (n / 4096)) = true := by
  have hlead := toNat_ofNat (n := 0xF0 + n / 262144) (by omega)
  simp only [followsLead, isContinuation_continuation, Bool.true_and, ← UInt8.toNat_inj,
    UInt8.le_iff_toNat_le, UInt8.lt_iff_toNat_lt, hlead, toNat_continuation, UInt8.reduceToNat]
  split
  · omega
  split
  · omega
  split
  · simp; omega
  split
  · simp; omega
  · rfl

theorem step_four {c : Char} (hlow : 0x10000 ≤ c.toNat) (rest : List UInt8) :
    step (UInt8.ofNat (0xF0 + c.toNat / 262144))
      (continuation (c.toNat / 4096) :: continuation (c.toNat / 64) :: continuation c.toNat ::
        rest) = .char c rest := by
  have hhigh : c.toNat < 0x110000 := toNat_lt c
  have hlead := toNat_ofNat (n := 0xF0 + c.toNat / 262144) (by omega)
  have hcode : (((0xF0 + c.toNat / 262144) % 8 * 64 + c.toNat / 4096 % 64) * 64 +
      c.toNat / 64 % 64) * 64 + c.toNat % 64 = c.toNat := by omega
  simp only [step, UInt8.lt_iff_toNat_lt, hlead, UInt8.reduceToNat, isContinuation_continuation,
    followsLead_four hlow hhigh, low6_continuation, hcode, Char.ofNat_toNat]
  rw [if_neg (by omega), if_neg (by simp; omega), if_neg (by omega), if_neg (by simp),
    if_neg (by simp), if_neg (by omega), if_neg (by simp)]

/-- The bytes of a character are read as that character, whatever follows them. -/
theorem step_encodeChar (c : Char) : ∃ lead more, encodeChar c = lead :: more ∧
    ∀ rest, step lead (more ++ rest) = .char c rest := by
  rw [encodeChar]
  by_cases h1 : c.toNat < 0x80
  · exact ⟨_, _, if_pos h1, step_one h1⟩
  · by_cases h2 : c.toNat < 0x800
    · exact ⟨_, _, (if_neg h1).trans (if_pos h2), step_two (by omega) h2⟩
    · by_cases h3 : c.toNat < 0x10000
      · exact ⟨_, _, (if_neg h1).trans ((if_neg h2).trans (if_pos h3)), step_three (by omega) h3⟩
      · exact ⟨_, _, (if_neg h1).trans ((if_neg h2).trans (if_neg h3)), step_four (by omega)⟩

/-! ## Texts -/

theorem decodeFrom_encode (position : Nat) (cs : List Char) :
    decodeFrom position (encode cs) = .ok cs := by
  induction cs generalizing position with
  | nil => rw [encode, List.flatMap_nil, decodeFrom]
  | cons c cs ih =>
      obtain ⟨lead, more, hencode, hstep⟩ := step_encodeChar c
      have hbytes : encode (c :: cs) = lead :: (more ++ encode cs) := by
        rw [encode, List.flatMap_cons, hencode]
        rfl
      -- the first step takes exactly the bytes of the first character
      rw [hbytes, decodeFrom]
      split
      · next d rest h =>
          rw [hstep] at h
          cases h
          rw [ih]
          rfl
      · next count reason h =>
          rw [hstep] at h
          cases h

/-- **Every text is decoded from its bytes.** -/
theorem decode_encode (cs : List Char) : decode (encode cs) = .ok cs :=
  decodeFrom_encode 0 cs

/-! ## The bytes of strings -/

/-- A character has the bytes that it has in a string. -/
theorem encodeChar_eq (c : Char) : encodeChar c = String.utf8EncodeChar c := by
  have hcode := toNat_lt c
  unfold encodeChar String.utf8EncodeChar
  simp only [show c.val.toNat = c.toNat from rfl, continuation, Nat.add_comm 128]
  by_cases h1 : c.toNat < 0x80
  · rw [if_pos h1, if_pos (Nat.le_of_lt_succ h1)]
  · rw [if_neg h1, if_neg fun h => h1 (Nat.lt_succ_of_le h)]
    by_cases h2 : c.toNat < 0x800
    · have hlead : 0xC0 + c.toNat / 64 = c.toNat / 64 % 32 + 0xC0 := by omega
      rw [if_pos h2, if_pos (Nat.le_of_lt_succ h2), hlead]
    · rw [if_neg h2, if_neg fun h => h2 (Nat.lt_succ_of_le h)]
      by_cases h3 : c.toNat < 0x10000
      · have hlead : 0xE0 + c.toNat / 4096 = c.toNat / 4096 % 16 + 0xE0 := by omega
        rw [if_pos h3, if_pos (Nat.le_of_lt_succ h3), hlead]
      · have hlead : 0xF0 + c.toNat / 262144 = c.toNat / 262144 % 8 + 0xF0 := by omega
        rw [if_neg h3, if_neg fun h => h3 (Nat.lt_succ_of_le h), hlead]

theorem encode_toByteArray (cs : List Char) :
    (encode cs).toByteArray = (String.ofList cs).toByteArray := by
  rw [encode, funext encodeChar_eq]
  rfl

/-- A text has as many bytes as the string of its characters. -/
theorem length_encode (cs : List Char) : (encode cs).length = (String.ofList cs).utf8ByteSize := by
  rw [← String.size_toByteArray, ← encode_toByteArray, List.size_toByteArray]

end TokenCatalog.Utf8
