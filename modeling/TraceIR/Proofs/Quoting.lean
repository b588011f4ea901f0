import TraceIR.Proofs.Characters
import TraceIR.Proofs.Digits
import TraceIR.Text.Quoted

/-!
# Quoted text reads back

* `Quoted.readBody?_writeChar` — one character, whichever way it is written.
* `Quoted.read?_write` — a written text is read as itself, also if it is no valid UTF-8. So two texts
  are never written alike (`Quoted.write_injective`).
* `Quoted.newline_notMem_write` — a written text stays on its line.
-/

namespace TraceIR.Quoted

variable {n w c : Nat} {b r : Bytes}

/-! ### Hexadecimal escapes -/

private theorem hexDigit?_digitByte : ∀ d < 16, hexDigit? (Bytes.digitByte d) = some d := by
  decide

private theorem readDigits?_digits (ds : List Nat) (hds : ∀ d ∈ ds, d < 16) (acc : Nat)
    (r : Bytes) :
    readDigits? hexDigit? 16 ds.length acc (ds.map Bytes.digitByte ++ r) =
      some (ds.foldl (fun acc d => acc * 16 + d) acc, r) := by
  induction ds generalizing acc with
  | nil => rfl
  | cons d ds ih =>
    have hd : hexDigit? (Bytes.digitByte d) = some d :=
      hexDigit?_digitByte d (hds d List.mem_cons_self)
    simp only [List.length_cons, List.map_cons, List.cons_append, readDigits?, hd, List.foldl_cons]
    exact ih (fun d hd => hds d (List.mem_cons_of_mem _ hd)) _

/-- The digits of a field, filled with zeros. -/
def fieldDigits (width n : Nat) : List Nat :=
  List.replicate (width - (Bytes.digits 16 n).length) 0 ++ Bytes.digits 16 n

private theorem fixedHex_eq (width n : Nat) :
    fixedHex width n = (fieldDigits width n).map Bytes.digitByte := by
  rw [fixedHex, Bytes.padLeft, Bytes.hex, List.length_map, fieldDigits, List.map_append,
    List.map_replicate]
  rfl

private theorem lt_of_mem_fieldDigits : ∀ d ∈ fieldDigits w n, d < 16 := by
  intro d hd
  rcases List.mem_append.mp hd with hd | hd
  · rw [List.eq_of_mem_replicate hd]
    decide
  · exact Bytes.lt_of_mem_digits (by decide) n d hd

private theorem length_fieldDigits (hw : 0 < w) (hn : n < Nat.pow 16 w) :
    (fieldDigits w n).length = w := by
  have hlength : (Bytes.digits 16 n).length ≤ w := by
    rw [Bytes.length_digits (by decide)]
    by_cases hzero : n = 0
    · rw [hzero, Nat.log_zero_right]
      exact hw
    · exact Nat.log_lt_of_lt_pow hzero hn
  rw [fieldDigits, List.length_append, List.length_replicate]
  omega

/-- A field that is wide enough reads back. -/
private theorem readDigits?_fixedHex (hw : 0 < w) (hn : n < Nat.pow 16 w) (r : Bytes) :
    readDigits? hexDigit? 16 w 0 (fixedHex w n ++ r) = some (n, r) := by
  have hread := readDigits?_digits (fieldDigits w n) lt_of_mem_fieldDigits 0 r
  have hzeros : ∀ k, (List.replicate k 0).foldl (fun acc d => acc * 16 + d) 0 = 0 := by
    intro k
    induction k with
    | zero => rfl
    | succ k ih => exact ih
  have hvalue : (fieldDigits w n).foldl (fun acc d => acc * 16 + d) 0 = n := by
    rw [fieldDigits, List.foldl_append, hzeros]
    exact Bytes.ofDigits_digits (by decide) n
  rw [length_fieldDigits hw hn, hvalue] at hread
  rw [fixedHex_eq]
  exact hread

/-! ### One character -/

private theorem readBody?_escape {out rest : Bytes} (h : readEscape? r = some (out, rest)) :
    readBody? (0x5c :: r) = (readBody? rest).map (out ++ ·) := by
  rw [readBody?, if_neg (by decide), if_neg (by decide), if_pos (by decide)]
  split
  · next out' rest' h' =>
    obtain ⟨rfl, rfl⟩ := Prod.mk.inj (Option.some.inj (h.symm.trans h'))
    rfl
  · next h' =>
    rw [h] at h'
    cases h'

private theorem readBody?_char {x : UInt8} {rest : Bytes} (hquote : x ≠ 0x22) (hnewline : x ≠ 0x0a)
    (hslash : x ≠ 0x5c) (h : Utf8.decode? (x :: r) = some (c, rest)) :
    readBody? (x :: r) = (readBody? rest).map (Utf8.encode c ++ ·) := by
  rw [readBody?, if_neg (by simpa using hquote), if_neg (by simpa using hnewline),
    if_neg (by simpa using hslash)]
  split
  · next c' rest' h' =>
    obtain ⟨rfl, rfl⟩ := Prod.mk.inj (Option.some.inj (h.symm.trans h'))
    rfl
  · next h' =>
    rw [h] at h'
    cases h'

private theorem encode_of_ascii (h : c < 0x80) : Utf8.encode c = [UInt8.ofNat c] := by
  rw [Utf8.encode, if_pos h]

/-- An escape with hexadecimal digits stands for the byte with that number. -/
private theorem readEscape?_byte (h : n < 256) (r : Bytes) :
    readEscape? (0x78 :: (fixedHex 2 n ++ r)) = some ([UInt8.ofNat n], r) := by
  simp only [readEscape?, readDigits?_fixedHex (w := 2) (by decide) h r, Option.map_some]

/-- The letters of control characters are read as them. -/
private theorem readEscape?_controlLetter {l : UInt8} (h : controlLetter? c = some l) (r : Bytes) :
    c < 0x80 ∧ readEscape? (l :: r) = some ([UInt8.ofNat c], r) := by
  unfold controlLetter? at h
  split at h
  all_goals cases h
  all_goals exact ⟨by decide, rfl⟩

/-- The first byte of a character that is shown as itself ends nothing and begins no escape. -/
private theorem first_of_printable {x : UInt8} {tail : Bytes} (hscalar : Utf8.isScalar c = true)
    (hquote : c ≠ 0x22) (hslash : c ≠ 0x5c) (hprint : Text.isPrintable c = true)
    (hx : Utf8.encode c = x :: tail) : x ≠ 0x22 ∧ x ≠ 0x0a ∧ x ≠ 0x5c := by
  have hnewline : c ≠ 0x0a := by
    rintro rfl
    exact absurd hprint (by decide +kernel)
  by_cases hascii : c < 0x80
  · rw [encode_of_ascii hascii, List.cons.injEq] at hx
    rw [← hx.1]
    simp only [ne_eq, ← UInt8.toNat_inj, Utf8.toNat_leadByte (by omega : c < 256)]
    exact ⟨hquote, hnewline, hslash⟩
  · obtain ⟨y, tail', hy, -, hlead⟩ := Utf8.exists_encode c
    obtain ⟨rfl, -⟩ := List.cons.inj (hx.symm.trans hy)
    have hbig := UInt8.le_iff_toNat_le.mp (hlead hscalar (by omega))
    simp only [ne_eq, ← UInt8.toNat_inj]
    refine ⟨?_, ?_, ?_⟩
    all_goals
      intro heq
      rw [heq] at hbig
      revert hbig
      decide

/-- **A character** reads back, whichever way it is written. -/
theorem readBody?_writeChar (hc : Utf8.isScalar c = true) (r : Bytes) :
    readBody? (writeChar c ++ r) = (readBody? r).map (Utf8.encode c ++ ·) := by
  unfold writeChar
  split
  · next hmark =>
    -- the quote and the backslash
    rcases (by simpa using hmark : c = 0x22 ∨ c = 0x5c) with rfl | rfl
    · exact readBody?_escape rfl
    · exact readBody?_escape rfl
  · next hmark =>
    obtain ⟨hquote, hslash⟩ : c ≠ 0x22 ∧ c ≠ 0x5c := by simpa using hmark
    split
    · next hprint =>
      obtain ⟨x, tail, hx, -⟩ := Utf8.exists_encode c
      obtain ⟨h₁, h₂, h₃⟩ := first_of_printable hc hquote hslash hprint hx
      have hdecode := Utf8.decode?_encode hc r
      rw [hx, List.cons_append] at hdecode
      calc readBody? (Utf8.encode c ++ r)
          = readBody? (x :: (tail ++ r)) := by rw [hx, List.cons_append]
        _ = (readBody? r).map (Utf8.encode c ++ ·) := readBody?_char h₁ h₂ h₃ hdecode
    · split
      · next l hl =>
        obtain ⟨hascii, hread⟩ := readEscape?_controlLetter hl r
        rw [encode_of_ascii hascii]
        exact readBody?_escape hread
      · -- the number of digits tells how large the number can be
        rw [Utf8.isScalar_iff] at hc
        split
        · next hsmall =>
          have hascii : c < 0x80 := by
            rcases (by simpa using hsmall : c < 0x20 ∨ c = 0x7f) with h | h
            · omega
            · omega
          rw [encode_of_ascii hascii]
          exact readBody?_escape (readEscape?_byte (by omega) r)
        · have hscalar : scalarBytes? c = some (Utf8.encode c) := by
            rw [scalarBytes?, if_pos ((Utf8.isScalar_iff c).mpr hc)]
          split
          · next hfour =>
            refine readBody?_escape ?_
            have hread := readDigits?_fixedHex (w := 4) (by decide) hfour r
            show readEscape? (0x75 :: (fixedHex 4 c ++ r)) = _
            simp only [readEscape?, hread, Option.bind_some, hscalar, Option.map_some]
          · refine readBody?_escape ?_
            have height : c < Nat.pow 16 8 := by
              have hpow : Nat.pow 16 8 = 0x100000000 := rfl
              omega
            have hread := readDigits?_fixedHex (w := 8) (by decide) height r
            show readEscape? (0x55 :: (fixedHex 8 c ++ r)) = _
            simp only [readEscape?, hread, Option.bind_some, hscalar, Option.map_some]

/-! ### Whole texts -/

/-- **A written text reads back.** -/
theorem readBody?_writeBody (b : Bytes) : readBody? (writeBody b ++ [0x22]) = some b := by
  -- along the characters, and byte by byte where there is none
  induction b using writeBody.induct with
  | case1 =>
    rw [writeBody, List.nil_append, readBody?]
    rfl
  | case2 x r c rest hdecode ih =>
    obtain ⟨hscalar, hencode⟩ := Utf8.eq_encode_of_decode? hdecode
    have hwrite : writeBody (x :: r) = writeChar c ++ writeBody rest := by
      rw [writeBody]
      split
      · next c' rest' h' =>
        obtain ⟨rfl, rfl⟩ := Prod.mk.inj (Option.some.inj (hdecode.symm.trans h'))
        rfl
      · next h' =>
        rw [hdecode] at h'
        cases h'
    rw [hwrite, List.append_assoc, readBody?_writeChar hscalar, ih, hencode]
    rfl
  | case3 x r hdecode ih =>
    have hwrite : writeBody (x :: r) = Bytes.ascii "\\x" ++ fixedHex 2 x.toNat ++ writeBody r := by
      rw [writeBody]
      split
      · next h' =>
        rw [hdecode] at h'
        cases h'
      · rfl
    have hread := readEscape?_byte x.toNat_lt (writeBody r ++ [0x22])
    rw [hwrite, List.append_assoc, List.append_assoc]
    calc readBody? (0x5c :: 0x78 :: (fixedHex 2 x.toNat ++ (writeBody r ++ [0x22])))
        = (readBody? (writeBody r ++ [0x22])).map ([UInt8.ofNat x.toNat] ++ ·) :=
          readBody?_escape hread
      _ = some (x :: r) := by
          rw [ih, UInt8.ofNat_toNat]
          rfl

theorem read?_write (b : Bytes) : read? (write b) = some b :=
  readBody?_writeBody b

theorem write_injective {a b : Bytes} (h : write a = write b) : a = b := by
  have hread := read?_write a
  rw [h, read?_write] at hread
  exact (Option.some.inj hread).symm

/-! ### Lines -/

private theorem newline_notMem_fixedHex : (0x0a : UInt8) ∉ fixedHex w n := by
  rw [fixedHex_eq]
  intro hmem
  obtain ⟨d, hd, heq⟩ := List.mem_map.mp hmem
  exact (Bytes.digitByte_ne_of_lt d (lt_of_mem_fieldDigits d hd)).2 heq

private theorem newline_notMem_writeChar (hc : Utf8.isScalar c = true) :
    (0x0a : UInt8) ∉ writeChar c := by
  unfold writeChar
  split
  · next hmark =>
    rcases (by simpa using hmark : c = 0x22 ∨ c = 0x5c) with rfl | rfl
    · decide
    · decide
  · next hmark =>
    obtain ⟨hquote, hslash⟩ : c ≠ 0x22 ∧ c ≠ 0x5c := by simpa using hmark
    split
    · next hprint =>
      obtain ⟨x, tail, hx, htail, -⟩ := Utf8.exists_encode c
      obtain ⟨-, hnewline, -⟩ := first_of_printable hc hquote hslash hprint hx
      rw [hx, List.mem_cons, not_or]
      refine ⟨hnewline.symm, fun hmem => ?_⟩
      exact absurd (htail _ hmem) (by decide)
    · split
      · next l hl =>
        unfold controlLetter? at hl
        split at hl
        all_goals cases hl
        all_goals decide
      · split
        · rw [List.mem_append, not_or]
          exact ⟨by decide, newline_notMem_fixedHex⟩
        split
        · rw [List.mem_append, not_or]
          exact ⟨by decide, newline_notMem_fixedHex⟩
        · rw [List.mem_append, not_or]
          exact ⟨by decide, newline_notMem_fixedHex⟩

private theorem newline_notMem_writeBody (b : Bytes) : (0x0a : UInt8) ∉ writeBody b := by
  induction b using writeBody.induct with
  | case1 =>
    rw [writeBody]
    exact List.not_mem_nil
  | case2 x r c rest hdecode ih =>
    rw [writeBody]
    split
    · next c' rest' h' =>
      obtain ⟨rfl, rfl⟩ := Prod.mk.inj (Option.some.inj (hdecode.symm.trans h'))
      rw [List.mem_append, not_or]
      exact ⟨newline_notMem_writeChar (Utf8.eq_encode_of_decode? hdecode).1, ih⟩
    · next h' =>
      rw [hdecode] at h'
      cases h'
  | case3 x r hdecode ih =>
    rw [writeBody]
    split
    · next h' =>
      rw [hdecode] at h'
      cases h'
    · rw [List.mem_append, List.mem_append, not_or, not_or]
      exact ⟨⟨by decide, newline_notMem_fixedHex⟩, ih⟩

/-- **A written text stays on its line.** -/
theorem newline_notMem_write (b : Bytes) : (0x0a : UInt8) ∉ write b := by
  rw [write, List.cons_append, List.mem_cons, List.mem_append, List.mem_singleton]
  rintro (h | h | h)
  · exact absurd h (by decide)
  · exact newline_notMem_writeBody b h
  · exact absurd h (by decide)

end TraceIR.Quoted
