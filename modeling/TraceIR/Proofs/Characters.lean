import TraceIR.Text.Utf8

/-!
# Characters and their bytes

* `Utf8.decode?_eq_some_iff` — a character is read exactly if its bytes stand in front.
* `Utf8.decode?_append` — what follows makes no difference if it begins with an ASCII byte, since no
  character goes on with one.
-/

namespace TraceIR.Utf8

private theorem isTail_iff (b : UInt8) : isTail b = true ↔ 0x80 ≤ b.toNat ∧ b.toNat ≤ 0xbf := by
  simp [isTail, UInt8.le_iff_toNat_le]

private theorem toNat_tailByte (n : Nat) : (tailByte n).toNat = 0x80 + n % 0x40 := by
  rw [tailByte, UInt8.toNat_ofNat', Nat.mod_eq_of_lt]
  omega

private theorem isTail_tailByte (n : Nat) : isTail (tailByte n) = true := by
  rw [isTail_iff, toNat_tailByte]
  omega

private theorem payload_tailByte (n : Nat) : payload (tailByte n) = n % 0x40 := by
  rw [payload, toNat_tailByte]
  omega

/-- A continuing byte is determined by its payload. -/
private theorem tailByte_eq {b : UInt8} {n : Nat} (h : isTail b = true)
    (hn : n % 0x40 = payload b) :
    tailByte n = b := by
  rw [isTail_iff] at h
  rw [payload] at hn
  apply UInt8.toNat_inj.mp
  rw [toNat_tailByte]
  omega

theorem toNat_leadByte {n : Nat} (h : n < 256) : (UInt8.ofNat n).toNat = n := by
  rw [UInt8.toNat_ofNat', Nat.mod_eq_of_lt h]

private theorem leadByte_eq {b : UInt8} {n : Nat} (h : n = b.toNat) : UInt8.ofNat n = b := by
  rw [h, UInt8.ofNat_toNat]

theorem isScalar_iff (c : Nat) :
    isScalar c = true ↔ c < 0xd800 ∨ 0xdfff < c ∧ c ≤ 0x10ffff := by
  simp [isScalar]

private theorem isSecondOfThree_iff (b0 b1 : UInt8) : isSecondOfThree b0 b1 = true ↔
    0x80 ≤ b1.toNat ∧ b1.toNat ≤ 0xbf ∧ (b0.toNat = 0xe0 → 0xa0 ≤ b1.toNat) ∧
      (b0.toNat = 0xed → b1.toNat ≤ 0x9f) := by
  rw [isSecondOfThree, Bool.and_eq_true, decide_eq_true_eq, decide_eq_true_eq]
  simp only [beq_iff_eq, ← UInt8.toNat_inj, UInt8.le_iff_toNat_le, UInt8.reduceToNat]
  split <;> split <;> simp only [UInt8.reduceToNat] <;> omega

private theorem isSecondOfFour_iff (b0 b1 : UInt8) : isSecondOfFour b0 b1 = true ↔
    0x80 ≤ b1.toNat ∧ b1.toNat ≤ 0xbf ∧ (b0.toNat = 0xf0 → 0x90 ≤ b1.toNat) ∧
      (b0.toNat = 0xf4 → b1.toNat ≤ 0x8f) := by
  rw [isSecondOfFour, Bool.and_eq_true, decide_eq_true_eq, decide_eq_true_eq]
  simp only [beq_iff_eq, ← UInt8.toNat_inj, UInt8.le_iff_toNat_le, UInt8.reduceToNat]
  split <;> split <;> simp only [UInt8.reduceToNat] <;> omega

/-- **Reading** what was written. -/
theorem decode?_encode {c : Nat} (h : isScalar c = true) (r : Bytes) :
    decode? (encode c ++ r) = some (c, r) := by
  rw [isScalar_iff] at h
  rw [encode]
  -- the first byte tells how many bytes there are, since their ranges do not meet
  split
  · next h1 =>
    have hlead := toNat_leadByte (n := c) (by omega)
    simp [decode?, UInt8.lt_iff_toNat_lt, hlead, h1]
  · next h1 =>
    split
    · next h2 =>
      have hlead := toNat_leadByte (n := 0xc0 + c / 0x40) (by omega)
      simp only [List.cons_append, List.nil_append, decode?, UInt8.lt_iff_toNat_lt,
        UInt8.le_iff_toNat_le, hlead, isTail_tailByte, payload_tailByte]
      rw [if_neg (by simp; omega), if_pos (by simp; omega)]
      simp only [if_true, Option.some.injEq, Prod.mk.injEq, and_true]
      omega
    · next h2 =>
      split
      · next h3 =>
        have hlead := toNat_leadByte (n := 0xe0 + c / 0x1000) (by omega)
        -- the second byte keeps out what is too long and what is a surrogate
        have hsecond : isSecondOfThree (UInt8.ofNat (0xe0 + c / 0x1000)) (tailByte (c / 0x40)) =
            true := by
          rw [isSecondOfThree_iff, hlead, toNat_tailByte]
          omega
        simp only [List.cons_append, List.nil_append, decode?, UInt8.lt_iff_toNat_lt,
          UInt8.le_iff_toNat_le, hlead, hsecond, isTail_tailByte, payload_tailByte]
        rw [if_neg (by simp; omega), if_neg (by simp; omega), if_pos (by simp; omega)]
        simp only [Bool.and_self, if_true, Option.some.injEq, Prod.mk.injEq, and_true]
        omega
      · next h3 =>
        have hlead := toNat_leadByte (n := 0xf0 + c / 0x40000) (by omega)
        -- and here what is beyond the last character
        have hsecond : isSecondOfFour (UInt8.ofNat (0xf0 + c / 0x40000)) (tailByte (c / 0x1000)) =
            true := by
          rw [isSecondOfFour_iff, hlead, toNat_tailByte]
          omega
        simp only [List.cons_append, List.nil_append, decode?, UInt8.lt_iff_toNat_lt,
          UInt8.le_iff_toNat_le, hlead, hsecond, isTail_tailByte, payload_tailByte]
        rw [if_neg (by simp; omega), if_neg (by simp; omega), if_neg (by simp; omega),
          if_pos (by simp; omega)]
        simp only [Option.some.injEq, Prod.mk.injEq, and_true]
        omega

/-- Two bytes that are read as one character. -/
private theorem encode_of_two {b0 b1 : UInt8} {c : Nat} (h0 : 0xc2 ≤ b0.toNat ∧ b0.toNat ≤ 0xdf)
    (h1 : isTail b1 = true) (hc : c = b0.toNat % 0x20 * 0x40 + payload b1) :
    isScalar c = true ∧ encode c = [b0, b1] := by
  have hpayload : payload b1 < 0x40 := Nat.mod_lt _ (by decide)
  rw [isScalar_iff, encode, if_neg (by omega), if_pos (by omega), tailByte_eq h1 (by omega),
    leadByte_eq (b := b0) (by omega)]
  exact ⟨by omega, rfl⟩

/-- Three bytes that are read as one character. -/
private theorem encode_of_three {b0 b1 b2 : UInt8} {c : Nat}
    (h0 : 0xe0 ≤ b0.toNat ∧ b0.toNat ≤ 0xef) (h1 : isSecondOfThree b0 b1 = true)
    (h2 : isTail b2 = true) (hc : c = (b0.toNat % 0x10 * 0x40 + payload b1) * 0x40 + payload b2) :
    isScalar c = true ∧ encode c = [b0, b1, b2] := by
  rw [isSecondOfThree_iff] at h1
  have htail : isTail b1 = true := (isTail_iff b1).mpr ⟨h1.1, h1.2.1⟩
  have hp1 : payload b1 = b1.toNat % 0x40 := rfl
  have hp2 : payload b2 < 0x40 := Nat.mod_lt _ (by decide)
  have hrange : 0x800 ≤ c ∧ c < 0x10000 ∧ (c < 0xd800 ∨ 0xdfff < c) := by omega
  rw [isScalar_iff, encode, if_neg (by omega), if_neg (by omega), if_pos (by omega),
    tailByte_eq (n := c) h2 (by omega), tailByte_eq (n := c / 0x40) htail (by omega),
    leadByte_eq (b := b0) (by omega)]
  exact ⟨by omega, rfl⟩

/-- Four bytes that are read as one character. -/
private theorem encode_of_four {b0 b1 b2 b3 : UInt8} {c : Nat}
    (h0 : 0xf0 ≤ b0.toNat ∧ b0.toNat ≤ 0xf4) (h1 : isSecondOfFour b0 b1 = true)
    (h2 : isTail b2 = true) (h3 : isTail b3 = true)
    (hc : c = ((b0.toNat % 8 * 0x40 + payload b1) * 0x40 + payload b2) * 0x40 + payload b3) :
    isScalar c = true ∧ encode c = [b0, b1, b2, b3] := by
  rw [isSecondOfFour_iff] at h1
  have htail : isTail b1 = true := (isTail_iff b1).mpr ⟨h1.1, h1.2.1⟩
  have hp1 : payload b1 = b1.toNat % 0x40 := rfl
  have hp2 : payload b2 < 0x40 := Nat.mod_lt _ (by decide)
  have hp3 : payload b3 < 0x40 := Nat.mod_lt _ (by decide)
  have hrange : 0x10000 ≤ c ∧ c ≤ 0x10ffff := by omega
  rw [isScalar_iff, encode, if_neg (by omega), if_neg (by omega), if_neg (by omega),
    tailByte_eq (n := c) h3 (by omega), tailByte_eq (n := c / 0x40) h2 (by omega),
    tailByte_eq (n := c / 0x1000) htail (by omega), leadByte_eq (b := b0) (by omega)]
  exact ⟨by omega, rfl⟩

/-- What is read was **written**. -/
theorem eq_encode_of_decode? {b r : Bytes} {c : Nat} (h : decode? b = some (c, r)) :
    isScalar c = true ∧ b = encode c ++ r := by
  -- one, two, three or four bytes in turn
  rcases b with _ | ⟨b0, r0⟩
  · cases h
  rw [decode?.eq_def] at h
  dsimp only at h
  by_cases h0 : b0 < 0x80
  · rw [if_pos h0] at h
    cases h
    rw [UInt8.lt_iff_toNat_lt] at h0
    change b0.toNat < 0x80 at h0
    rw [isScalar_iff, encode, if_pos h0, UInt8.ofNat_toNat]
    exact ⟨by omega, rfl⟩
  rw [if_neg h0] at h
  rcases r0 with _ | ⟨b1, r1⟩
  · cases h
  dsimp only at h
  by_cases h1 : (0xc2 ≤ b0 && b0 ≤ 0xdf) = true
  · rw [if_pos h1] at h
    simp only [Bool.and_eq_true, decide_eq_true_eq, UInt8.le_iff_toNat_le] at h1
    split at h
    · next htail =>
      cases h
      obtain ⟨hscalar, hencode⟩ := encode_of_two h1 htail rfl
      exact ⟨hscalar, by rw [hencode]; rfl⟩
    · cases h
  rw [if_neg h1] at h
  rcases r1 with _ | ⟨b2, r2⟩
  · cases h
  dsimp only at h
  by_cases h2 : (0xe0 ≤ b0 && b0 ≤ 0xef) = true
  · rw [if_pos h2] at h
    simp only [Bool.and_eq_true, decide_eq_true_eq, UInt8.le_iff_toNat_le] at h2
    split at h
    · next htails =>
      cases h
      rw [Bool.and_eq_true] at htails
      obtain ⟨hscalar, hencode⟩ := encode_of_three h2 htails.1 htails.2 rfl
      exact ⟨hscalar, by rw [hencode]; rfl⟩
    · cases h
  rw [if_neg h2] at h
  rcases r2 with _ | ⟨b3, r3⟩
  · cases h
  dsimp only at h
  split at h
  · next htails =>
    cases h
    simp only [Bool.and_eq_true, decide_eq_true_eq, UInt8.le_iff_toNat_le] at htails
    obtain ⟨⟨⟨h3, hsecond⟩, hthird⟩, hfourth⟩ := htails
    obtain ⟨hscalar, hencode⟩ := encode_of_four h3 hsecond hthird hfourth rfl
    exact ⟨hscalar, by rw [hencode]; rfl⟩
  · cases h

theorem decode?_eq_some_iff {b r : Bytes} {c : Nat} :
    decode? b = some (c, r) ↔ isScalar c = true ∧ b = encode c ++ r := by
  constructor
  · exact eq_encode_of_decode?
  · rintro ⟨hc, rfl⟩
    exact decode?_encode hc r

/-- The bytes of a character. All but the first are continuing bytes, and the first one is in ASCII
only if the character is. -/
theorem exists_encode (c : Nat) : ∃ x tail, encode c = x :: tail ∧ (∀ b ∈ tail, 0x80 ≤ b) ∧
    (Utf8.isScalar c = true → 0x80 ≤ c → 0x80 ≤ x) := by
  have htail : ∀ n, 0x80 ≤ tailByte n := by
    intro n
    rw [UInt8.le_iff_toNat_le, toNat_tailByte]
    exact Nat.le_add_right ..
  have hlead : ∀ {n}, 0x80 ≤ n → n < 256 → 0x80 ≤ UInt8.ofNat n := by
    intro n hn hlt
    rw [UInt8.le_iff_toNat_le, toNat_leadByte hlt]
    exact hn
  rw [encode, isScalar_iff]
  split
  · exact ⟨_, [], rfl, by simp, fun _ hc => by omega⟩
  · split
    · exact ⟨_, _, rfl, by simp [htail], fun _ _ => hlead (by omega) (by omega)⟩
    · split
      · exact ⟨_, _, rfl, by simp [htail], fun _ _ => hlead (by omega) (by omega)⟩
      · exact ⟨_, _, rfl, by simp [htail], fun _ _ => hlead (by omega) (by omega)⟩

/-- **What follows** a text does not belong to its characters if it begins with an ASCII byte. -/
theorem decode?_append {w r : Bytes} (hw : w ≠ []) (hr : ∀ b ∈ r.head?, b < 0x80) :
    decode? (w ++ r) = (decode? w).map fun p => (p.1, p.2 ++ r) := by
  cases hdecode : decode? w with
  | some p =>
    obtain ⟨hscalar, hencode⟩ := eq_encode_of_decode? hdecode
    rw [Option.map_some, decode?_eq_some_iff, ← List.append_assoc, ← hencode]
    exact ⟨hscalar, rfl⟩
  | none =>
    cases hlong : decode? (w ++ r) with
    | none => rfl
    | some p =>
      obtain ⟨c, r'⟩ := p
      obtain ⟨hscalar, hencode⟩ := eq_encode_of_decode? hlong
      -- the end of the text lies in the character or behind it
      rcases List.append_eq_append_iff.mp hencode with ⟨m, hm, rfl⟩ | ⟨m, hm, hr'⟩
      · obtain ⟨x, tail, hx, htail, -⟩ := exists_encode c
        obtain ⟨y, w', rfl⟩ := List.exists_cons_of_ne_nil hw
        rw [hx, List.cons_append, List.cons.injEq] at hm
        cases m with
        | nil =>
          rw [List.append_nil] at hm
          rw [← hm.1, ← hm.2, ← hx, ← List.append_nil (encode c), decode?_encode hscalar] at hdecode
          cases hdecode
        | cons z m =>
          -- the character would go on behind the text
          have hz : 0x80 ≤ z := htail z (by rw [hm.2]; simp)
          exact absurd (hr z rfl) (UInt8.not_lt.mpr hz)
      · -- the character would stand in the text itself
        rw [hm, decode?_encode hscalar] at hdecode
        cases hdecode

end TraceIR.Utf8
