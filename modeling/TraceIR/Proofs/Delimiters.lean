import TraceIR.Proofs.Characters
import TraceIR.Proofs.Margins

/-!
# Where words end

A scanner looks at what follows a word only to see that the word has ended. If the text goes on with
a byte that cannot belong to a word, it finds the same word as if the text ended there.

* `EndsName` and `EndsWord` — what follows ends a name, or any word.
* `Token.identLength_append`, `Token.numberLength?_append` and `Token.stringEnd_append` — the three
  scanners do not look beyond.
-/

namespace TraceIR.Script

/-- What follows ends a name. -/
def EndsName (r : Bytes) : Prop :=
  ∀ c ∈ r.head?, c < 0x80 ∧ Token.isLetter c = false ∧ Token.isDigit c = false

/-- What follows ends any word: a blank, a line break or a comment. -/
def EndsWord (r : Bytes) : Prop :=
  ∀ c ∈ r.head?, IsBlank c ∨ IsBreak c ∨ c = 0x2f

theorem EndsWord.endsName {r : Bytes} (h : EndsWord r) : EndsName r := by
  intro c hc
  rcases h c hc with (rfl | rfl) | (rfl | rfl) | rfl <;> decide

/-- A run of bytes of a class ends where a text goes on with a byte outside it. -/
theorem takeWhile_append_of_head {p : UInt8 → Bool} {r : Bytes} (h : ∀ c ∈ r.head?, p c = false)
    (w : Bytes) : (w ++ r).takeWhile p = w.takeWhile p := by
  have hstop : r.takeWhile p = [] := by
    cases r with
    | nil => rfl
    | cons c r => rw [List.takeWhile_cons_of_neg (by rw [h c rfl]; exact Bool.false_ne_true)]
  rw [List.takeWhile_append, hstop, List.append_nil]
  split
  · next hall => exact ((List.takeWhile_prefix _).eq_of_length hall).symm
  · rfl

namespace Token

/-! ### Names -/

variable {w r : Bytes}

private theorem identLength_of_endsName (h : EndsName r) : identLength r = (0, false) := by
  cases r with
  | nil => rw [identLength]
  | cons c r =>
    obtain ⟨hascii, hletter, hdigit⟩ := h c rfl
    rw [identLength]
    simp [hletter, hdigit, hascii]

theorem identLength_append (h : EndsName r) (w : Bytes) :
    identLength (w ++ r) = identLength w := by
  -- a character of the name is read without what follows
  have hdecode : ∀ {c w}, Utf8.decode? (c :: (w ++ r)) =
      (Utf8.decode? (c :: w)).map fun p => (p.1, p.2 ++ r) :=
    fun {c w} => Utf8.decode?_append (List.cons_ne_nil c w) fun b hb => (h b hb).1
  fun_induction identLength w with
  | case1 => exact identLength_of_endsName h
  -- an ASCII byte is judged alone
  | case2 c w hword n bad hrest ih =>
    rw [List.cons_append, identLength, if_pos hword, ih, hrest]
  | case3 c w hword hascii =>
    rw [List.cons_append, identLength, if_neg hword, if_pos hascii]
  -- outside ASCII the whole character is read, and it stands in front of what follows
  | case4 c w hword hascii hnone =>
    rw [List.cons_append, identLength, if_neg hword, if_neg hascii]
    split
    · rfl
    · next code rest hsome =>
      rw [hdecode, hnone] at hsome
      cases hsome
  | case5 c w hword hascii rest hsome =>
    rw [List.cons_append, identLength, if_neg hword, if_neg hascii]
    split
    · rfl
    · next code rest' hsome' =>
      rw [hdecode, hsome] at hsome'
      cases hsome'
      rw [if_pos rfl]
  | case6 c w hword hascii code rest hsome hcode n bad hrest ih =>
    rw [List.cons_append, identLength, if_neg hword, if_neg hascii]
    split
    · next hnone =>
      rw [hdecode, hsome] at hnone
      cases hnone
    · next code' rest' hsome' =>
      rw [hdecode, hsome] at hsome'
      cases hsome'
      rw [if_neg hcode, ih, hrest]
      simp only [List.length_cons, List.length_append, Prod.mk.injEq, and_true]
      omega

/-! ### Numbers -/

section Steps

variable {c s : UInt8} {r : Bytes} {point exponent begun : Bool}

/-- The mark of an exponent. -/
def isExponentMark (c : UInt8) : Bool :=
  c == 0x65 || c == 0x45

theorem decimalLength_digit (h : isDigit c = true) :
    decimalLength point exponent begun (c :: r) =
      ((decimalLength point exponent true r).1 + 1, (decimalLength point exponent true r).2) := by
  rw [decimalLength.eq_def]
  simp only [h, if_true]

theorem decimalLength_point :
    decimalLength false false begun (0x2e :: r) =
      ((decimalLength true false true r).1 + 1, (decimalLength true false true r).2) := by
  rw [decimalLength.eq_def]
  rfl

theorem decimalLength_exponent_sign (hc : isExponentMark c = true) (hs : isSign s = true) :
    decimalLength point false true (c :: s :: r) =
      ((decimalLength point true true r).1 + 2, (decimalLength point true true r).2) := by
  rw [isExponentMark, Bool.or_eq_true, beq_iff_eq, beq_iff_eq] at hc
  rw [decimalLength.eq_def]
  rcases hc with rfl | rfl <;> simp [hs, isDigit]

theorem decimalLength_exponent (hc : isExponentMark c = true)
    (hs : ∀ s ∈ r.head?, isSign s = false) :
    decimalLength point false true (c :: r) =
      ((decimalLength point true true r).1 + 1, (decimalLength point true true r).2) := by
  rw [isExponentMark, Bool.or_eq_true, beq_iff_eq, beq_iff_eq] at hc
  rw [decimalLength.eq_def]
  cases r with
  | nil => rcases hc with rfl | rfl <;> simp [decimalLength, isDigit]
  | cons s r =>
    have hsign := hs s rfl
    rcases hc with rfl | rfl <;> simp [hsign, isDigit]

/-- A decimal number ends at what is neither a digit, nor the first point, nor an exponent. -/
theorem decimalLength_stop (hdigit : isDigit c = false)
    (hpoint : c = 0x2e → point = true ∨ exponent = true)
    (hexp : isExponentMark c = true → exponent = true ∨ begun = false) :
    decimalLength point exponent begun (c :: r) = (0, point || exponent) := by
  rw [decimalLength.eq_def]
  simp only [hdigit, Bool.false_eq_true, if_false]
  rw [if_neg, if_neg]
  · intro h
    simp only [Bool.and_eq_true, Bool.not_eq_true'] at h
    rcases hexp h.1.1 with h' | h' <;> simp_all
  · intro h
    simp only [Bool.and_eq_true, Bool.not_eq_true', beq_iff_eq] at h
    rcases hpoint h.1.1 with h' | h' <;> simp_all

end Steps

/-- The byte belongs to no number. -/
structure IsForeign (c : UInt8) : Prop where
  digit : isDigit c = false
  hexDigit : isHexDigit c = false
  hexMark : c ≠ 0x78 ∧ c ≠ 0x58
  sign : isSign c = false
  point : c ≠ 0x2e
  exponentMark : isExponentMark c = false

private theorem isForeign_of_ends {c : UInt8} (h : IsBlank c ∨ IsBreak c ∨ c = 0x2f) :
    IsForeign c := by
  rcases h with (rfl | rfl) | (rfl | rfl) | rfl <;> constructor <;> decide

private theorem decimalLength_of_endsWord (h : EndsWord r) (point exponent begun : Bool) :
    decimalLength point exponent begun r = (0, point || exponent) := by
  cases r with
  | nil => rfl
  | cons c r =>
    have hforeign := isForeign_of_ends (h c rfl)
    refine decimalLength_stop hforeign.digit (fun hc => absurd hc hforeign.point) fun hc => ?_
    rw [hforeign.exponentMark] at hc
    cases hc

/-- What the scanner asks at the mark of an exponent. -/
private theorem exponent_of_mark {c : UInt8} {exponent begun : Bool}
    (h : ((c == 0x65 || c == 0x45) && !exponent && begun) = true) :
    isExponentMark c = true ∧ exponent = false ∧ begun = true := by
  simp only [Bool.and_eq_true, Bool.not_eq_true'] at h
  exact ⟨h.1.1, h.1.2, h.2⟩

private theorem decimalLength_append (h : EndsWord r) (point exponent begun : Bool) (w : Bytes) :
    decimalLength point exponent begun (w ++ r) = decimalLength point exponent begun w := by
  fun_induction decimalLength point exponent begun w with
  | case1 point exponent begun => exact decimalLength_of_endsWord h point exponent begun
  | case2 point exponent begun c w hdigit n f hrest ih =>
    rw [List.cons_append, decimalLength_digit hdigit, ih, hrest]
  | case3 point exponent begun c w hdigit hpoint n f hrest ih =>
    simp only [Bool.and_eq_true, beq_iff_eq, Bool.not_eq_true'] at hpoint
    obtain ⟨⟨rfl, rfl⟩, rfl⟩ := hpoint
    rw [List.cons_append, decimalLength_point, ih, hrest]
  | case4 point exponent begun c hdigit hpoint hmark s w hsign n f hrest ih =>
    obtain ⟨hexp, rfl, rfl⟩ := exponent_of_mark hmark
    rw [List.cons_append, List.cons_append, decimalLength_exponent_sign hexp hsign, ih, hrest]
  -- after the mark the scanner looks one byte ahead for a sign, and what follows has none
  | case5 point exponent begun c hdigit hpoint hmark s w hsign n f hrest ih =>
    obtain ⟨hexp, rfl, rfl⟩ := exponent_of_mark hmark
    have hnext : ∀ x ∈ (s :: w ++ r).head?, isSign x = false := by simpa using hsign
    rw [List.cons_append, decimalLength_exponent hexp hnext, ih, hrest]
  | case6 point exponent begun c hdigit hpoint hmark =>
    obtain ⟨hexp, rfl, rfl⟩ := exponent_of_mark hmark
    have hnext : ∀ x ∈ r.head?, isSign x = false := fun x hx => (isForeign_of_ends (h x hx)).sign
    rw [List.singleton_append, decimalLength_exponent hexp hnext, decimalLength_of_endsWord h,
      Bool.or_true]
  | case7 point exponent begun c w hdigit hpoint hmark =>
    refine decimalLength_stop (Bool.eq_false_iff.mpr hdigit) (fun hc => ?_) fun hc => ?_
    · cases point <;> cases exponent <;> simp_all
    · rw [isExponentMark] at hc
      cases begun <;> cases exponent <;> simp_all

private theorem signLength_append (h : EndsWord r) (w : Bytes) :
    signLength (w ++ r) = signLength w ∧
      (w ++ r).drop (signLength w) = w.drop (signLength w) ++ r := by
  cases w with
  | nil =>
    cases r with
    | nil => exact ⟨rfl, rfl⟩
    | cons c r => simp [signLength, (isForeign_of_ends (h c rfl)).sign]
  | cons c w =>
    refine ⟨rfl, ?_⟩
    rw [signLength]
    split <;> rfl

theorem hexMark_eq_true_iff {b : Bytes} :
    hexMark b = true ↔ ∃ x b', b = 0x30 :: x :: b' ∧ (x = 0x78 ∨ x = 0x58) := by
  constructor
  · intro hmark
    rw [hexMark.eq_def] at hmark
    split at hmark
    · next x b' => exact ⟨x, b', rfl, by simpa using hmark⟩
    · cases hmark
  · rintro ⟨x, b', rfl, hx⟩
    simpa [hexMark] using hx

private theorem hexMark_append (h : EndsWord r) (b : Bytes) : hexMark (b ++ r) = hexMark b := by
  rw [Bool.eq_iff_iff, hexMark_eq_true_iff, hexMark_eq_true_iff]
  constructor
  · rintro ⟨x, b', heq, hx⟩
    rcases b with _ | ⟨y, _ | ⟨z, b⟩⟩
    · -- the text that follows would begin with a digit
      rw [List.nil_append] at heq
      have hzero := h 0x30 (by rw [heq]; rfl)
      exact absurd (isForeign_of_ends hzero).digit (by decide)
    · -- the text that follows would begin with the letter
      rw [List.singleton_append, List.cons.injEq] at heq
      have hletter := (isForeign_of_ends (h x (by rw [heq.2]; rfl))).hexMark
      exact absurd hx (not_or.mpr hletter)
    · rw [List.cons_append, List.cons_append, List.cons.injEq, List.cons.injEq] at heq
      exact ⟨x, b, by rw [heq.1, heq.2.1], hx⟩
  · rintro ⟨x, b', rfl, hx⟩
    exact ⟨x, b' ++ r, rfl, hx⟩

theorem numberLength?_append (h : EndsWord r) (w : Bytes) :
    numberLength? (w ++ r) = numberLength? w := by
  obtain ⟨hsign, hdrop⟩ := signLength_append h w
  simp only [numberLength?, hsign, hdrop]
  generalize w.drop (signLength w) = b
  rw [hexMark_append h, decimalLength_append h]
  by_cases hmark : hexMark b = true
  · obtain ⟨x, b', rfl, -⟩ := hexMark_eq_true_iff.mp hmark
    have hdigits : (b' ++ r).takeWhile isHexDigit = b'.takeWhile isHexDigit :=
      takeWhile_append_of_head (fun c hc => (isForeign_of_ends (h c hc)).hexDigit) b'
    simp only [hmark, if_true, List.cons_append, List.drop_succ_cons, List.drop_zero, hdigits]
  · have hhead : ((b ++ r).head? == some 0x2e) = (b.head? == some 0x2e) := by
      cases b with
      | nil =>
        cases r with
        | nil => rfl
        | cons c r => simp [(isForeign_of_ends (h c rfl)).point]
      | cons c b => rfl
    simp only [hmark, hhead, Bool.false_eq_true, if_false]

/-! ### Strings -/

theorem stringEnd_plain {x : UInt8} (hslash : x ≠ 0x5c) (hbreak : x ≠ 0x0a) (hquote : x ≠ 0x22)
    (r : Bytes) : stringEnd (x :: r) = (stringEnd r).shift 1 := by
  rw [stringEnd]
  · exact fun hx => absurd hx hslash
  · exact fun _ _ hx => absurd hx hslash
  · exact hbreak
  · exact hquote

/-- A byte that neither ends the text as a backslash nor escapes another one is no backslash. -/
theorem ne_backslash {x : UInt8} {w : Bytes} (hlast : x = 0x5c → w = [] → False)
    (hpair : ∀ y w', x = 0x5c → w = y :: w' → False) : x ≠ 0x5c := by
  intro hx
  cases w with
  | nil => exact hlast hx rfl
  | cons y w => exact hpair y w hx rfl

theorem stringEnd_append {n : Nat} (h : stringEnd w = .closed n) (r : Bytes) :
    stringEnd (w ++ r) = .closed n := by
  fun_induction stringEnd w generalizing n with
  | case1 => cases h
  | case2 => cases h
  | case3 x w ih =>
    obtain ⟨m, hm, rfl⟩ := StringEnd.shift_eq_closed_iff.mp h
    rw [List.cons_append, List.cons_append, stringEnd, ih hm, StringEnd.shift]
  | case4 w => cases h
  | case5 w =>
    cases h
    rfl
  | case6 x w hlast hpair hbreak hquote ih =>
    obtain ⟨m, hm, rfl⟩ := StringEnd.shift_eq_closed_iff.mp h
    rw [List.cons_append, stringEnd_plain (ne_backslash hlast hpair) hbreak hquote, ih hm, StringEnd.shift]

end Token

end TraceIR.Script
