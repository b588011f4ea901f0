import TraceIR.BitSet

/-!
# Sets of keys as sets

What is in a bit set after a key is added or taken out. The words of a set are stored in increasing
order of their numbers, and looking one up stops at the first number that is too high, so the laws
are about sets that are `BitSet.Ordered`. The empty set is, and adding and erasing keep it.

* `BitSet.contains_insert` and `BitSet.contains_erase` — membership after a change.
-/

namespace TraceIR.BitSet

/-! ### Words -/

/-- The words are stored in increasing order of their numbers. -/
def OrderedWords (ws : List (Nat × UInt64)) : Prop :=
  ws.Pairwise fun a b => a.1 < b.1

private theorem word_eq_zero {ws : List (Nat × UInt64)} {i : Nat} (h : ∀ p ∈ ws, i < p.1) :
    word ws i = 0 := by
  cases ws with
  | nil => rfl
  | cons p ws =>
    have hlt : i < p.1 := h p List.mem_cons_self
    rw [word, if_neg (Nat.ne_of_gt hlt), if_pos hlt]

/-- The words above place `i`, of words that begin at `i` or above. -/
def wordsAbove (i : Nat) (p : Nat × UInt64) (ws : List (Nat × UInt64)) : List (Nat × UInt64) :=
  if p.1 = i then ws else p :: ws

section WordsAbove

variable {i : Nat} {p : Nat × UInt64} {ws : List (Nat × UInt64)}

private theorem setWord_cons_of_lt (h : p.1 < i) (v : UInt64) :
    setWord i v (p :: ws) = p :: setWord i v ws :=
  if_pos h

private theorem setWord_cons_of_le (h : i ≤ p.1) (v : UInt64) :
    setWord i v (p :: ws) = if v = 0 then wordsAbove i p ws else (i, v) :: wordsAbove i p ws :=
  if_neg (Nat.not_lt.mpr h)

private theorem wordsAbove_subset : wordsAbove i p ws ⊆ p :: ws := by
  intro q hq
  rw [wordsAbove] at hq
  split at hq
  · exact List.mem_cons_of_mem _ hq
  · exact hq

private theorem OrderedWords.wordsAbove (h : OrderedWords (p :: ws)) :
    OrderedWords (wordsAbove i p ws) := by
  rw [BitSet.wordsAbove]
  split
  · exact (List.pairwise_cons.mp h).2
  · exact h

private theorem lt_of_mem_wordsAbove (h : OrderedWords (p :: ws)) (hp : i ≤ p.1) {q : Nat × UInt64}
    (hq : q ∈ wordsAbove i p ws) : i < q.1 := by
  have hfirst := (List.pairwise_cons.mp h).1
  rw [wordsAbove] at hq
  split at hq
  · next hpi => exact hpi ▸ hfirst q hq
  · next hpi =>
    have hlt : i < p.1 := Nat.lt_of_le_of_ne hp (Ne.symm hpi)
    rcases List.mem_cons.mp hq with rfl | hq
    · exact hlt
    · exact Nat.lt_trans hlt (hfirst q hq)

/-- Words at other places are the same. -/
private theorem word_wordsAbove (h : OrderedWords (p :: ws)) {j : Nat} (hj : j ≠ i) :
    word (wordsAbove i p ws) j = word (p :: ws) j := by
  rw [wordsAbove]
  split
  · next hpi =>
    subst hpi
    rw [word, if_neg (Ne.symm hj)]
    by_cases hlt : j < p.1
    · rw [if_pos hlt]
      exact word_eq_zero fun q hq => Nat.lt_trans hlt ((List.pairwise_cons.mp h).1 q hq)
    · rw [if_neg hlt]
  · rfl

end WordsAbove

/-- Changing a word changes that word and no other. -/
theorem word_setWord {ws : List (Nat × UInt64)} (h : OrderedWords ws) (i : Nat) (v : UInt64)
    (j : Nat) : word (setWord i v ws) j = if j = i then v else word ws j := by
  induction ws with
  | nil =>
    rw [setWord]
    by_cases hv : v = 0
    · simp [hv, word]
    · rw [if_neg hv]
      by_cases hj : j = i
      · rw [if_pos hj, word, if_pos hj.symm]
      · show (if i = j then v else if j < i then 0 else 0) = _
        rw [if_neg hj, if_neg (Ne.symm hj), ite_self]
        rfl
  | cons p ws ih =>
    by_cases hlt : p.1 < i
    · -- the place lies behind the first word
      rw [setWord_cons_of_lt hlt, word, ih (List.pairwise_cons.mp h).2, word]
      by_cases hj : j = i
      · rw [if_pos hj, if_pos hj, if_neg (by omega), if_neg (by omega)]
      · rw [if_neg hj, if_neg hj]
    have hle := Nat.not_lt.mp hlt
    have habove : ∀ q ∈ wordsAbove i p ws, i < q.1 := fun _ => lt_of_mem_wordsAbove h hle
    rw [setWord_cons_of_le hle]
    by_cases hv : v = 0
    · -- the word is stored no more
      rw [if_pos hv]
      by_cases hj : j = i
      · rw [if_pos hj, hj, word_eq_zero habove, hv]
      · rw [if_neg hj, word_wordsAbove h hj]
    · rw [if_neg hv, word]
      by_cases hj : j = i
      · rw [if_pos hj, if_pos hj.symm]
      · rw [if_neg hj, if_neg (Ne.symm hj), word_wordsAbove h hj]
        by_cases hji : j < i
        · rw [if_pos hji, word, if_neg (by omega), if_pos (by omega)]
        · rw [if_neg hji]

private theorem mem_setWord {i : Nat} {v : UInt64} {p : Nat × UInt64} {ws : List (Nat × UInt64)}
    (h : p ∈ setWord i v ws) : p.1 = i ∨ p ∈ ws := by
  induction ws with
  | nil =>
    rw [setWord] at h
    by_cases hv : v = 0
    · rw [if_pos hv] at h
      cases h
    · rw [if_neg hv, List.mem_singleton] at h
      exact .inl (by rw [h])
  | cons q ws ih =>
    by_cases hlt : q.1 < i
    · rw [setWord_cons_of_lt hlt] at h
      rcases List.mem_cons.mp h with rfl | h
      · exact .inr List.mem_cons_self
      · exact (ih h).imp_right (List.mem_cons_of_mem _)
    · rw [setWord_cons_of_le (Nat.not_lt.mp hlt)] at h
      by_cases hv : v = 0
      · rw [if_pos hv] at h
        exact .inr (wordsAbove_subset h)
      · rw [if_neg hv] at h
        rcases List.mem_cons.mp h with rfl | h
        · exact .inl rfl
        · exact .inr (wordsAbove_subset h)

theorem OrderedWords.setWord {ws : List (Nat × UInt64)} (h : OrderedWords ws) (i : Nat)
    (v : UInt64) : OrderedWords (setWord i v ws) := by
  induction ws with
  | nil =>
    rw [BitSet.setWord]
    by_cases hv : v = 0
    · rw [if_pos hv]
      exact .nil
    · rw [if_neg hv]
      exact List.pairwise_singleton ..
  | cons p ws ih =>
    obtain ⟨hfirst, hrest⟩ := List.pairwise_cons.mp h
    by_cases hlt : p.1 < i
    · rw [setWord_cons_of_lt hlt]
      refine List.pairwise_cons.mpr ⟨fun q hq => ?_, ih hrest⟩
      rcases mem_setWord hq with hq | hq
      · exact hq ▸ hlt
      · exact hfirst q hq
    · have hle := Nat.not_lt.mp hlt
      rw [setWord_cons_of_le hle]
      by_cases hv : v = 0
      · rw [if_pos hv]
        exact h.wordsAbove
      · rw [if_neg hv]
        exact List.pairwise_cons.mpr ⟨fun _ => lt_of_mem_wordsAbove h hle, h.wordsAbove⟩

/-! ### Bits -/

private theorem testBit_toNat_bit {i : Nat} (hi : i < 64) (j : Nat) :
    (bit i).toNat.testBit j = decide (i = j) := by
  have hlt : 2 ^ i < 2 ^ 64 := Nat.pow_lt_pow_right (by decide) hi
  rw [bit, UInt64.toNat_ofNat', Nat.one_shiftLeft, Nat.mod_eq_of_lt hlt, Nat.testBit_two_pow]

private theorem testBit_or_bit (w : UInt64) {i : Nat} (hi : i < 64) (j : Nat) :
    testBit (w ||| bit i) j = (testBit w j || decide (i = j)) := by
  rw [testBit, testBit, UInt64.toNat_or, Nat.testBit_or, testBit_toNat_bit hi]

private theorem testBit_and_not_bit (w : UInt64) {i j : Nat} (hi : i < 64) (hj : j < 64) :
    testBit (w &&& ~~~bit i) j = (testBit w j && !decide (i = j)) := by
  have hnot : (~~~bit i).toNat.testBit j = !decide (i = j) := by
    rw [← UInt64.toNat_toBitVec, BitVec.testBit_toNat, UInt64.toBitVec_not, BitVec.getLsbD_not,
      ← BitVec.testBit_toNat, UInt64.toNat_toBitVec, testBit_toNat_bit hi,
      decide_eq_true hj, Bool.true_and]
  rw [testBit, testBit, UInt64.toNat_and, Nat.testBit_and, hnot]

/-! ### Sets -/

/-- The words of the set are stored in order. -/
def Ordered (s : BitSet) : Prop :=
  OrderedWords s.words

theorem ordered_withCapacity (base n : Int) : (withCapacity base n).Ordered :=
  List.Pairwise.nil

theorem contains_withCapacity (base n k : Int) : (withCapacity base n).contains k = false := by
  have hword : testBit 0 (((withCapacity base n).offset k) % 64) = false := Nat.zero_testBit _
  rw [contains, show (withCapacity base n).words = [] from rfl, word, hword, Bool.and_false]

section Change

variable {s : BitSet} {k : Int}

/-- Two keys are equal exactly if word and bit are. -/
private theorem eq_iff_offset (hk : s.base ≤ k) {k' : Int} (hk' : s.base ≤ k') :
    k' = k ↔ s.offset k' / 64 = s.offset k / 64 ∧ s.offset k % 64 = s.offset k' % 64 := by
  have hoffset : s.offset k' = s.offset k ↔ k' = k := by
    rw [offset, offset]
    omega
  rw [← hoffset]
  omega

theorem insert_eq (hk : s.base ≤ k) (hfar : s.offset k < distanceLimit) :
    (s.insert k).1 =
      { s with
        words := setWord (s.offset k / 64)
          (word s.words (s.offset k / 64) ||| bit (s.offset k % 64)) s.words }.reserve
        (s.offset k / 64 + 1) := by
  rw [insert, if_neg (Int.not_lt.mpr hk), if_neg (Nat.not_le.mpr hfar)]

/-- Adding a key keeps the words in order. -/
theorem Ordered.insert (h : s.Ordered) (hk : s.base ≤ k) (hfar : s.offset k < distanceLimit) :
    (s.insert k).1.Ordered := by
  rw [insert_eq hk hfar]
  exact OrderedWords.setWord h _ _

theorem base_insert (hk : s.base ≤ k) (hfar : s.offset k < distanceLimit) :
    (s.insert k).1.base = s.base := by
  rw [insert_eq hk hfar]
  rfl

/-- Adding a key adds that key. -/
theorem contains_insert (h : s.Ordered) (hk : s.base ≤ k) (hfar : s.offset k < distanceLimit)
    (k' : Int) : (s.insert k).1.contains k' = true ↔ s.contains k' = true ∨ k' = k := by
  rw [insert_eq hk hfar, contains, contains, reserve]
  show (decide (s.base ≤ k') && testBit (word (setWord _ _ s.words) (s.offset k' / 64))
    (s.offset k' % 64)) = true ↔ _
  by_cases hk' : s.base ≤ k'
  · rw [word_setWord h, decide_eq_true hk', Bool.true_and, Bool.true_and, eq_iff_offset hk hk']
    by_cases hword : s.offset k' / 64 = s.offset k / 64
    · rw [if_pos hword, testBit_or_bit _ (Nat.mod_lt _ (by decide)), hword, Bool.or_eq_true,
        decide_eq_true_eq]
      simp
    · rw [if_neg hword]
      simp [hword]
  · rw [decide_eq_false hk', Bool.false_and, Bool.false_and]
    have hne : k' ≠ k := by
      rintro rfl
      exact hk' hk
    simp [hne]

/-- Taking a key out keeps the words in order. -/
theorem Ordered.erase (h : s.Ordered) (k : Int) : (s.erase k).Ordered := by
  rw [BitSet.erase]
  by_cases hk : k < s.base
  · rw [if_pos hk]
    exact h
  · rw [if_neg hk]
    exact OrderedWords.setWord h _ _

theorem base_erase (s : BitSet) (k : Int) : (s.erase k).base = s.base := by
  rw [erase]
  by_cases hk : k < s.base
  · rw [if_pos hk]
  · rw [if_neg hk]

/-- Taking a key out takes that key out. -/
theorem contains_erase (h : s.Ordered) (hk : s.base ≤ k) (k' : Int) :
    (s.erase k).contains k' = true ↔ s.contains k' = true ∧ k' ≠ k := by
  rw [erase, if_neg (Int.not_lt.mpr hk), contains, contains]
  show (decide (s.base ≤ k') && testBit (word (setWord _ _ s.words) (s.offset k' / 64))
    (s.offset k' % 64)) = true ↔ _
  by_cases hk' : s.base ≤ k'
  · rw [word_setWord h, decide_eq_true hk', Bool.true_and, Bool.true_and, Ne,
      eq_iff_offset hk hk']
    by_cases hword : s.offset k' / 64 = s.offset k / 64
    · rw [if_pos hword, testBit_and_not_bit _ (Nat.mod_lt _ (by decide)) (Nat.mod_lt _ (by decide)),
        hword, Bool.and_eq_true, Bool.not_eq_true', decide_eq_false_iff_not]
      simp
    · rw [if_neg hword]
      simp [hword]
  · rw [decide_eq_false hk', Bool.false_and, Bool.false_and]
    simp

end Change

end TraceIR.BitSet
