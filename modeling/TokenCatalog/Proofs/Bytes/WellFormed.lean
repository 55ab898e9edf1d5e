import TokenCatalog.Proofs.Bytes.Utf8
import TokenCatalog.Proofs.Except

/-!
# Well-formed bytes

Which bytes are UTF-8, said by their bits and without a decoder: a row of sequences, each of which
spells a code point in the shortest way. Main statements:

* `sound_iff`: a sequence is sound exactly if it is what some character is written as;
* `decode_eq_ok_iff`: decoding inverts encoding, and gives nothing else;
* `exists_decode_iff`: bytes can be decoded exactly if they are well formed.
-/

namespace TokenCatalog.Utf8

/-- A byte that goes on in a sequence: its two high bits are 10. -/
def GoesOn (b : UInt8) : Prop :=
  b.toNat / 64 = 2

/-- A sequence spells a number. The high bits of its first byte say how many bytes follow, and each
of those adds six bits. -/
inductive Spells : List UInt8 → Nat → Prop
  | one {a : UInt8} (ha : a.toNat < 0x80) : Spells [a] a.toNat
  | two {a b : UInt8} (ha : a.toNat / 32 = 6) (hb : GoesOn b) :
      Spells [a, b] (a.toNat % 32 * 64 + low6 b)
  | three {a b c : UInt8} (ha : a.toNat / 16 = 14) (hb : GoesOn b) (hc : GoesOn c) :
      Spells [a, b, c] ((a.toNat % 16 * 64 + low6 b) * 64 + low6 c)
  | four {a b c d : UInt8} (ha : a.toNat / 8 = 30) (hb : GoesOn b) (hc : GoesOn c) (hd : GoesOn d) :
      Spells [a, b, c, d] (((a.toNat % 8 * 64 + low6 b) * 64 + low6 c) * 64 + low6 d)

def leastOf : Nat → Nat
  | 2 => 0x80
  | 3 => 0x800
  | 4 => 0x10000
  | _ => 0

/-- A sequence is sound: it spells a code point that is no surrogate, in the shortest way. -/
structure Sound (sequence : List UInt8) (n : Nat) : Prop where
  spells : Spells sequence n
  shortest : leastOf sequence.length ≤ n
  notSurrogate : n < 0xD800 ∨ 0xDFFF < n
  bounded : n ≤ 0x10FFFF

/-- Bytes are UTF-8: sound sequences one after the other. -/
inductive WellFormed : List UInt8 → Prop
  | nil : WellFormed []
  | cons {sequence bytes : List UInt8} {n : Nat} (h : Sound sequence n) (hrest : WellFormed bytes) :
      WellFormed (sequence ++ bytes)

/-! ## One character -/

theorem goesOn_continuation (n : Nat) : GoesOn (continuation n) := by
  rw [GoesOn, toNat_continuation]
  omega

theorem goesOn_of_isContinuation {b : UInt8} (h : isContinuation b = true) : GoesOn b := by
  simp only [isContinuation, UInt8.le_iff_toNat_le, UInt8.lt_iff_toNat_lt, UInt8.reduceToNat,
    Bool.and_eq_true, decide_eq_true_eq] at h
  rw [GoesOn]
  omega

theorem toNat_of_goesOn {b : UInt8} (h : GoesOn b) : b.toNat = 0x80 + low6 b := by
  rw [low6]
  rw [GoesOn] at h
  omega

/-- A byte is told by the bits that say where it goes on and those it adds. -/
theorem eq_continuation {b : UInt8} {n : Nat} (h : GoesOn b) (hn : n % 64 = low6 b) :
    b = continuation n := by
  rw [← UInt8.toNat_inj, toNat_continuation, hn, toNat_of_goesOn h]

theorem eq_ofNat {b : UInt8} {n : Nat} (h : b.toNat = n) : b = UInt8.ofNat n := by
  rw [← h, UInt8.ofNat_toNat]

theorem low6_lt (b : UInt8) : low6 b < 64 :=
  Nat.mod_lt _ (by decide)

/-- What a character is written as is sound. -/
theorem sound_encodeChar (c : Char) : Sound (encodeChar c) c.toNat := by
  have hbounded : c.toNat ≤ 0x10FFFF := Nat.le_of_lt_succ (toNat_lt c)
  have hvalid : c.toNat < 0xD800 ∨ 0xDFFF < c.toNat := c.valid.imp_right And.left
  have hspelled : Spells (encodeChar c) c.toNat ∧ leastOf (encodeChar c).length ≤ c.toNat := by
    rw [encodeChar]
    by_cases h1 : c.toNat < 0x80
    · rw [if_pos h1]
      have hone := toNat_ofNat (n := c.toNat) (by omega)
      refine ⟨?_, Nat.zero_le _⟩
      have hspells := Spells.one (a := UInt8.ofNat c.toNat) (by omega)
      rwa [hone] at hspells
    rw [if_neg h1]
    by_cases h2 : c.toNat < 0x800
    · rw [if_pos h2]
      -- the length is the least that holds the code point, so that no shorter form was passed over
      have hlead := toNat_ofNat (n := 0xC0 + c.toNat / 64) (by omega)
      refine ⟨?_, Nat.le_of_not_lt h1⟩
      have hspells := Spells.two (a := UInt8.ofNat (0xC0 + c.toNat / 64)) (by omega)
        (goesOn_continuation c.toNat)
      rw [hlead, low6_continuation] at hspells
      rwa [show (0xC0 + c.toNat / 64) % 32 * 64 + c.toNat % 64 = c.toNat by omega] at hspells
    rw [if_neg h2]
    by_cases h3 : c.toNat < 0x10000
    · rw [if_pos h3]
      have hlead := toNat_ofNat (n := 0xE0 + c.toNat / 4096) (by omega)
      refine ⟨?_, Nat.le_of_not_lt h2⟩
      have hspells := Spells.three (a := UInt8.ofNat (0xE0 + c.toNat / 4096)) (by omega)
        (goesOn_continuation (c.toNat / 64)) (goesOn_continuation c.toNat)
      rw [hlead, low6_continuation, low6_continuation] at hspells
      rwa [show ((0xE0 + c.toNat / 4096) % 16 * 64 + c.toNat / 64 % 64) * 64 + c.toNat % 64 =
        c.toNat by omega] at hspells
    · rw [if_neg h3]
      have hlead := toNat_ofNat (n := 0xF0 + c.toNat / 262144) (by omega)
      refine ⟨?_, Nat.le_of_not_lt h3⟩
      have hspells := Spells.four (a := UInt8.ofNat (0xF0 + c.toNat / 262144)) (by omega)
        (goesOn_continuation (c.toNat / 4096)) (goesOn_continuation (c.toNat / 64))
        (goesOn_continuation c.toNat)
      rw [hlead, low6_continuation, low6_continuation, low6_continuation] at hspells
      rwa [show (((0xF0 + c.toNat / 262144) % 8 * 64 + c.toNat / 4096 % 64) * 64 +
        c.toNat / 64 % 64) * 64 + c.toNat % 64 = c.toNat by omega] at hspells
  exact ⟨hspelled.1, hspelled.2, hvalid, hbounded⟩

/-- A sound sequence is what its character is written as. -/
theorem Sound.eq_encodeChar {sequence : List UInt8} {c : Char} (h : Sound sequence c.toNat) :
    sequence = encodeChar c := by
  obtain ⟨hspells, hshortest, -, -⟩ := h
  rw [encodeChar]
  generalize c.toNat = n at hspells hshortest
  cases hspells with
  | one ha =>
      rw [if_pos ha, UInt8.ofNat_toNat]
  | @two a b ha hb =>
      have hlow := low6_lt b
      have hleast : 0x80 ≤ a.toNat % 32 * 64 + low6 b := hshortest
      rw [if_neg (by omega), if_pos (by omega)]
      rw [← eq_continuation hb (by omega)]
      rw [← eq_ofNat (b := a) (by omega)]
  | @three a b c ha hb hc =>
      have hlowb := low6_lt b
      have hlowc := low6_lt c
      have hleast : 0x800 ≤ (a.toNat % 16 * 64 + low6 b) * 64 + low6 c := hshortest
      rw [if_neg (by omega), if_neg (by omega), if_pos (by omega)]
      rw [← eq_continuation hb (by omega), ← eq_continuation hc (by omega)]
      rw [← eq_ofNat (b := a) (by omega)]
  | @four a b c d ha hb hc hd =>
      have hlowb := low6_lt b
      have hlowc := low6_lt c
      have hlowd := low6_lt d
      have hleast : 0x10000 ≤ ((a.toNat % 8 * 64 + low6 b) * 64 + low6 c) * 64 + low6 d := hshortest
      rw [if_neg (by omega), if_neg (by omega), if_neg (by omega)]
      rw [← eq_continuation hb (by omega), ← eq_continuation hc (by omega),
        ← eq_continuation hd (by omega)]
      rw [← eq_ofNat (b := a) (by omega)]

/-- **A sequence is sound exactly if some character is written so.** -/
theorem sound_iff {sequence : List UInt8} {n : Nat} :
    Sound sequence n ↔ ∃ c : Char, c.toNat = n ∧ sequence = encodeChar c := by
  constructor
  · intro h
    have hvalid : n.isValidChar := h.notSurrogate.imp_right fun hhigh =>
      ⟨hhigh, Nat.lt_succ_of_le h.bounded⟩
    have hn : (Char.ofNat n).toNat = n := by
      rw [Char.ofNat, dif_pos hvalid]
      rfl
    rw [← hn] at h
    exact ⟨Char.ofNat n, hn, h.eq_encodeChar⟩
  · rintro ⟨c, rfl, rfl⟩
    exact sound_encodeChar c

/-! ## Decoding -/

/-- The second byte of a long sequence goes on in it, and is in the range that its first byte
leaves. -/
theorem followsLead_eq_true {lead second : UInt8} (h : followsLead lead second = true) :
    GoesOn second ∧ (lead.toNat = 0xE0 → 0xA0 ≤ second.toNat) ∧
      (lead.toNat = 0xED → second.toNat < 0xA0) ∧ (lead.toNat = 0xF0 → 0x90 ≤ second.toNat) ∧
      (lead.toNat = 0xF4 → second.toNat < 0x90) := by
  rw [followsLead, Bool.and_eq_true] at h
  obtain ⟨hgoes, hrange⟩ := h
  simp only [← UInt8.toNat_inj, UInt8.le_iff_toNat_le, UInt8.lt_iff_toNat_lt,
    UInt8.reduceToNat] at hrange
  refine ⟨goesOn_of_isContinuation hgoes, ?_, ?_, ?_, ?_⟩
  all_goals
    intro hlead
    simpa [hlead] using hrange

section

variable {a b c d : UInt8}

theorem sound_one (ha : a.toNat < 0x80) : Sound [a] a.toNat :=
  ⟨.one ha, Nat.zero_le _, by omega, by omega⟩

/-- The first byte of two is at least C2: with less the number would have been spelled by one. -/
theorem sound_two (hleast : 0xC2 ≤ a.toNat) (hmost : a.toNat < 0xE0)
    (hb : isContinuation b = true) : Sound [a, b] (a.toNat % 32 * 64 + low6 b) := by
  have hlow := low6_lt b
  refine ⟨.two (by omega) (goesOn_of_isContinuation hb), ?_, ?_, ?_⟩
  · show 0x80 ≤ _
    omega
  · omega
  · omega

/-- With three bytes it is the second one that keeps the spelling short, and surrogates out. -/
theorem sound_three (hleast : 0xE0 ≤ a.toNat) (hmost : a.toNat < 0xF0)
    (hb : followsLead a b = true) (hc : isContinuation c = true) :
    Sound [a, b, c] ((a.toNat % 16 * 64 + low6 b) * 64 + low6 c) := by
  obtain ⟨hb, hE0, hED, -, -⟩ := followsLead_eq_true hb
  have hbits := toNat_of_goesOn hb
  have hlowb := low6_lt b
  have hlowc := low6_lt c
  refine ⟨.three (by omega) hb (goesOn_of_isContinuation hc), ?_, ?_, ?_⟩
  · show 0x800 ≤ _
    omega
  · omega
  · omega

/-- With four bytes it also keeps the number from going past the last code point. -/
theorem sound_four (hleast : 0xF0 ≤ a.toNat) (hmost : a.toNat ≤ 0xF4)
    (hb : followsLead a b = true) (hc : isContinuation c = true) (hd : isContinuation d = true) :
    Sound [a, b, c, d] (((a.toNat % 8 * 64 + low6 b) * 64 + low6 c) * 64 + low6 d) := by
  obtain ⟨hb, -, -, hF0, hF4⟩ := followsLead_eq_true hb
  have hbits := toNat_of_goesOn hb
  have hlowb := low6_lt b
  have hlowc := low6_lt c
  have hlowd := low6_lt d
  refine ⟨.four (by omega) hb (goesOn_of_isContinuation hc) (goesOn_of_isContinuation hd),
    ?_, ?_, ?_⟩
  · show 0x10000 ≤ _
    omega
  · omega
  · omega

end

/-- **A step that gives a character has read what it is written as.** -/
theorem eq_of_step {lead : UInt8} {bytes rest : List UInt8} {c : Char}
    (h : step lead bytes = .char c rest) : lead :: bytes = encodeChar c ++ rest := by
  -- it is enough to know which code point the bytes stand for, in any of the four lengths
  suffices hsound : ∃ sequence n, lead :: bytes = sequence ++ rest ∧ Sound sequence n ∧
      c = Char.ofNat n by
    obtain ⟨sequence, n, hbytes, hsound, rfl⟩ := hsound
    obtain ⟨d, rfl, rfl⟩ := sound_iff.mp hsound
    rw [hbytes, Char.ofNat_toNat]
  simp only [step, UInt8.lt_iff_toNat_lt, UInt8.reduceToNat] at h
  split at h
  · next hone =>
      cases h
      exact ⟨[lead], _, rfl, sound_one hone, rfl⟩
  split at h
  · cases h
  next hstart =>
  simp only [Bool.or_eq_true, decide_eq_true_eq, not_or, Nat.not_lt] at hstart
  obtain ⟨hfirst, hlast⟩ := hstart
  split at h
  · next htwo =>
      cases bytes with
      | nil => cases h
      | cons b bytes =>
          dsimp only at h
          split at h
          · next hb =>
              cases h
              exact ⟨[lead, b], _, rfl, sound_two hfirst htwo hb, rfl⟩
          · cases h
  next htwo =>
  rw [Nat.not_lt] at htwo
  cases bytes with
  | nil => cases h
  | cons b bytes =>
      dsimp only at h
      split at h
      · cases h
      next hb =>
      rw [Bool.not_eq_true', Bool.not_eq_false] at hb
      cases bytes with
      | nil => cases h
      | cons d bytes =>
          dsimp only at h
          split at h
          · cases h
          next hd =>
          rw [Bool.not_eq_true', Bool.not_eq_false] at hd
          split at h
          · next hthree =>
              cases h
              exact ⟨[lead, b, d], _, rfl, sound_three htwo hthree hb hd, rfl⟩
          next hthree =>
          rw [Nat.not_lt] at hthree
          cases bytes with
          | nil => cases h
          | cons e bytes =>
              dsimp only at h
              split at h
              · cases h
              next he =>
              rw [Bool.not_eq_true', Bool.not_eq_false] at he
              cases h
              exact ⟨[lead, b, d, e], _, rfl, sound_four hthree hlast hb hd he, rfl⟩

theorem eq_encode_of_decodeFrom {position : Nat} {bytes : List UInt8} {cs : List Char}
    (h : decodeFrom position bytes = .ok cs) : bytes = encode cs := by
  induction position, bytes using decodeFrom.induct generalizing cs with
  | case1 position =>
      rw [decodeFrom] at h
      cases h
      rfl
  | case2 position lead bytes c rest hstep hlength ih =>
      rw [decodeFrom] at h
      split at h
      · next c' rest' hstep' =>
          cases hstep.symm.trans hstep'
          obtain ⟨cs', hrest, rfl⟩ := exists_of_map_eq_ok h
          rw [eq_of_step hstep, ih hrest]
          rfl
      · cases h
  | case3 position lead bytes count reason hstep =>
      rw [decodeFrom] at h
      split at h
      · next hstep' => cases hstep.symm.trans hstep'
      · cases h

/-- **Decoding inverts encoding**: bytes are decoded to a text exactly if they are its bytes. -/
theorem decode_eq_ok_iff {bytes : List UInt8} {cs : List Char} :
    decode bytes = .ok cs ↔ bytes = encode cs := by
  constructor
  · exact eq_encode_of_decodeFrom
  · rintro rfl
    exact decode_encode cs

theorem wellFormed_iff {bytes : List UInt8} : WellFormed bytes ↔ ∃ cs, bytes = encode cs := by
  constructor
  · intro h
    induction h with
    | nil => exact ⟨[], rfl⟩
    | cons h hrest ih =>
        obtain ⟨c, -, rfl⟩ := sound_iff.mp h
        obtain ⟨cs, rfl⟩ := ih
        exact ⟨c :: cs, rfl⟩
  · rintro ⟨cs, rfl⟩
    induction cs with
    | nil => exact .nil
    | cons c cs ih => exact .cons (sound_encodeChar c) ih

/-- **Bytes can be decoded exactly if they are well formed.** -/
theorem exists_decode_iff {bytes : List UInt8} :
    (∃ cs, decode bytes = .ok cs) ↔ WellFormed bytes := by
  rw [wellFormed_iff]
  exact exists_congr fun cs => decode_eq_ok_iff

end TokenCatalog.Utf8
