import Mathlib.Data.Nat.Log
import TraceIR.Proofs.Canonicity
import TraceIR.Proofs.NumberText

/-!
# Numbers that are integers

A number that is a 32-bit integer is interned as that integer, any other one by its bits. Nothing
may get lost on the way: the constant has to stand for the very pattern that was asked for.

* `Binary64.toInt?_ofInt` and `Binary64.eq_ofInt_of_toInt?`: an integer of at most 53 bits is spelt
  by exactly one pattern, negative zero aside.
* `Binary64.int32?_eq_some_iff`: the test for 32-bit integers, which compares, cuts off and converts
  back, accepts the patterns of the 32-bit integers and no others. It finds the integer that the
  pattern spells exactly (`Binary64.int32?_eq_exactInt32?`).
* `Trace.knumInt_bit_exact`: the constant that a number gets stands for that pattern, and two
  numbers share a constant exactly if they have the same bits.
-/

namespace TraceIR

namespace Binary64

/-! ### Integers and their patterns -/

variable {n m e s : Nat}

private theorem log_le_of_lt (hn : 0 < n) (hlt : n < 2 ^ 53) : Nat.log 2 n ≤ 52 :=
  Nat.le_of_lt_succ (Nat.log_lt_of_lt_pow hn.ne' hlt)

private theorem roundDiv_one (n : Nat) : roundDiv n 1 = n := by
  unfold roundDiv
  dsimp only
  rw [Nat.div_one, Nat.mod_one, if_neg (by omega)]

/-- The fields of a magnitude with the hidden bit. -/
private theorem fields_of_normal (e : Nat) (hlow : 2 ^ 52 ≤ s) (hhigh : s < 2 ^ 53) :
    exponent (e * 2 ^ 52 + s) = e + 1 ∧ significand (e * 2 ^ 52 + s) = s := by
  have hdiv : (e * 2 ^ 52 + s) >>> 52 = e + 1 := by
    rw [Nat.shiftRight_eq_div_pow]
    norm_num at hlow hhigh ⊢
    omega
  constructor
  · unfold exponent
    rw [hdiv]
    omega
  · unfold significand
    rw [hdiv, if_neg (by omega)]
    norm_num at hlow hhigh ⊢
    omega

/-- **The pattern of an integer** that fits into the significand. The leading bit becomes the hidden
one, and nothing is rounded off. -/
theorem nearestMagnitude_of_lt (hn : 0 < n) (hlt : n < 2 ^ 53) :
    nearestMagnitude n 1 = (Nat.log 2 n + 1022) * 2 ^ 52 + n * 2 ^ (52 - Nat.log 2 n) := by
  have hlog := log_le_of_lt hn hlt
  have hfield : fieldBelow (Int.log 2 ((n : ℚ) / (1 : ℕ))) = Nat.log 2 n + 1022 := by
    rw [Nat.cast_one, div_one, Int.log_natCast, fieldBelow]
    omega
  have hround : roundDiv (n <<< (1074 - (Nat.log 2 n + 1022))) (1 <<< (Nat.log 2 n + 1022 - 1074)) =
      n * 2 ^ (52 - Nat.log 2 n) := by
    -- the integer has no more places than the significand, so it is only shifted
    have hplaces : 1074 - (Nat.log 2 n + 1022) = 52 - Nat.log 2 n := by omega
    have hunit : 1 <<< (Nat.log 2 n + 1022 - 1074) = 1 := by
      rw [Nat.sub_eq_zero_of_le (by omega)]
      rfl
    rw [hplaces, hunit, roundDiv_one, Nat.shiftLeft_eq]
  rw [nearestMagnitude_eq hn Nat.one_pos hfield, hround]

/-- The leading bit stands in the place of the hidden one. -/
private theorem shifted_log_bounds (hn : 0 < n) (hlt : n < 2 ^ 53) :
    2 ^ 52 ≤ n * 2 ^ (52 - Nat.log 2 n) ∧ n * 2 ^ (52 - Nat.log 2 n) < 2 ^ 53 := by
  have hlog := log_le_of_lt hn hlt
  have hlow : 2 ^ Nat.log 2 n ≤ n := Nat.pow_log_le_self 2 hn.ne'
  have hhigh : n < 2 ^ (Nat.log 2 n + 1) := Nat.lt_pow_succ_log_self (by norm_num) n
  constructor
  · calc 2 ^ 52 = 2 ^ Nat.log 2 n * 2 ^ (52 - Nat.log 2 n) := by
          rw [← pow_add, Nat.add_sub_cancel' hlog]
      _ ≤ n * 2 ^ (52 - Nat.log 2 n) := Nat.mul_le_mul_right _ hlow
  · calc n * 2 ^ (52 - Nat.log 2 n) < 2 ^ (Nat.log 2 n + 1) * 2 ^ (52 - Nat.log 2 n) :=
          Nat.mul_lt_mul_of_pos_right hhigh (Nat.two_pow_pos _)
      _ = 2 ^ 53 := by
          rw [← pow_add]
          congr 1
          omega

/-- The pattern of an integer has the integer as its value. -/
private theorem ratio_nearestMagnitude (hlt : n < 2 ^ 53) :
    ((ratio (nearestMagnitude n 1)).1 : ℚ) / (ratio (nearestMagnitude n 1)).2 = n := by
  rcases Nat.eq_zero_or_pos n with rfl | hn
  · rw [ratio_div, show significand (nearestMagnitude 0 1) = 0 from rfl, Nat.cast_zero, zero_mul]
  have hlog := log_le_of_lt hn hlt
  obtain ⟨hlow, hhigh⟩ := shifted_log_bounds hn hlt
  obtain ⟨hexp, hsig⟩ := fields_of_normal (Nat.log 2 n + 1022) hlow hhigh
  have hscale : ((Nat.log 2 n + 1022 + 1 : ℕ) : Int) - 1075 = -((52 - Nat.log 2 n : ℕ) : Int) := by
    omega
  rw [ratio_div, nearestMagnitude_of_lt hn hlt, hexp, hsig, hscale, zpow_neg, zpow_natCast]
  push_cast
  exact mul_inv_cancel_right₀ (by positivity) _

private theorem nearestMagnitude_lt_infinite (hlt : n < 2 ^ 53) :
    nearestMagnitude n 1 < infinite := by
  rcases Nat.eq_zero_or_pos n with rfl | hn
  · decide
  have hlog := log_le_of_lt hn hlt
  have hhigh := (shifted_log_bounds hn hlt).2
  rw [nearestMagnitude_of_lt hn hlt]
  have hinfinite : infinite = 2047 * 2 ^ 52 := by decide
  rw [hinfinite]
  norm_num at hhigh ⊢
  omega

private theorem ratio_den_pos (m : Nat) : 0 < (ratio m).2 := by
  unfold ratio
  split
  · exact Nat.one_pos
  · exact shiftLeft_pos Nat.one_pos _

/-- A magnitude has an integer as its value exactly if the division leaves no rest. -/
private theorem ratio_eq_iff (m n : Nat) :
    ((ratio m).1 : ℚ) / (ratio m).2 = n ↔
      (ratio m).1 % (ratio m).2 = 0 ∧ (ratio m).1 / (ratio m).2 = n := by
  have hpos := ratio_den_pos m
  have hne : ((ratio m).2 : ℚ) ≠ 0 := by exact_mod_cast hpos.ne'
  rw [div_eq_iff hne]
  constructor
  · intro h
    have hmul : (ratio m).1 = n * (ratio m).2 := by exact_mod_cast h
    rw [hmul]
    exact ⟨Nat.mul_mod_left .., Nat.mul_div_cancel _ hpos⟩
  · rintro ⟨hmod, rfl⟩
    exact_mod_cast (Nat.div_mul_cancel (Nat.dvd_of_mod_eq_zero hmod)).symm

/-! ### Signs -/

private theorem magnitude_ofMagnitude (negative : Bool) (h : m < 0x8000000000000000) :
    (ofMagnitude negative m).magnitude = m := by
  unfold magnitude ofMagnitude
  cases negative <;> simp only [UInt64.toNat_ofNat', if_true] <;> norm_num <;> omega

private theorem isNegative_ofMagnitude (negative : Bool) (h : m < 0x8000000000000000) :
    (ofMagnitude negative m).isNegative = negative := by
  have hsign : (0x8000000000000000 : UInt64).toNat = 0x8000000000000000 := rfl
  unfold isNegative ofMagnitude
  rw [Bool.eq_iff_iff, decide_eq_true_iff, UInt64.le_iff_toNat_le, hsign, UInt64.toNat_ofNat']
  cases negative with
  | true =>
    rw [if_pos rfl]
    exact iff_of_true (by omega) rfl
  | false =>
    rw [if_neg Bool.false_ne_true]
    exact iff_of_false (by omega) Bool.false_ne_true

/-- The integer that a finite number equals, if it equals one. -/
def toInt? (x : Binary64) : Option Int :=
  if infinite ≤ x.magnitude then none
  else
    let (n, d) := ratio x.magnitude
    if n % d = 0 then some (if x.isNegative then -(n / d : Nat) else (n / d : Nat)) else none

/-- The integer that a number equals: its absolute value is the quotient, and its sign is that of
the pattern. -/
private theorem toInt?_eq_some_iff {x : Binary64} {k : Int} :
    x.toInt? = some k ↔ x.magnitude < infinite ∧
      ((ratio x.magnitude).1 : ℚ) / (ratio x.magnitude).2 = k.natAbs ∧
      if x.isNegative then k ≤ 0 else 0 ≤ k := by
  rw [ratio_eq_iff]
  unfold toInt?
  dsimp only
  generalize (ratio x.magnitude).1 = n
  generalize (ratio x.magnitude).2 = d
  by_cases hinf : infinite ≤ x.magnitude
  · rw [if_pos hinf]
    refine iff_of_false (fun h => by cases h) ?_
    rintro ⟨hlt, -⟩
    exact Nat.not_lt.mpr hinf hlt
  rw [if_neg hinf]
  by_cases hmod : n % d = 0
  · rw [if_pos hmod, Option.some.injEq]
    have hlt := Nat.not_le.mp hinf
    generalize n / d = q
    cases x.isNegative with
    | true =>
      simp only [if_true]
      constructor
      · rintro rfl
        exact ⟨hlt, ⟨hmod, by omega⟩, by omega⟩
      · rintro ⟨-, ⟨-, hq⟩, hle⟩
        omega
    | false =>
      simp only [Bool.false_eq_true, if_false]
      constructor
      · rintro rfl
        exact ⟨hlt, ⟨hmod, by omega⟩, by omega⟩
      · rintro ⟨-, ⟨-, hq⟩, hle⟩
        omega
  · rw [if_neg hmod]
    refine iff_of_false (fun h => by cases h) ?_
    rintro ⟨-, ⟨hzero, -⟩, -⟩
    exact hmod hzero

private theorem magnitude_ofInt {k : Int} (hk : k.natAbs < 2 ^ 53) :
    (ofInt k).magnitude = nearestMagnitude k.natAbs 1 := by
  rw [ofInt, magnitude_ofMagnitude _ ((nearestMagnitude_lt_infinite hk).trans (by decide))]

private theorem isNegative_ofInt {k : Int} (hk : k.natAbs < 2 ^ 53) :
    (ofInt k).isNegative = decide (k < 0) := by
  rw [ofInt, isNegative_ofMagnitude _ ((nearestMagnitude_lt_infinite hk).trans (by decide))]

/-- **An integer of 53 bits** is the value of its own pattern. -/
theorem toInt?_ofInt {k : Int} (hk : k.natAbs < 2 ^ 53) : (ofInt k).toInt? = some k := by
  rw [toInt?_eq_some_iff, magnitude_ofInt hk, isNegative_ofInt hk]
  refine ⟨nearestMagnitude_lt_infinite hk, ratio_nearestMagnitude hk, ?_⟩
  split
  · next hneg => exact (of_decide_eq_true hneg).le
  · next hneg => exact not_lt.mp fun hlt => hneg (decide_eq_true hlt)

/-- A magnitude whose value is an integer is the one that the integer is rounded to. -/
private theorem nearestMagnitude_of_ratio (h : ((ratio m).1 : ℚ) / (ratio m).2 = n) :
    nearestMagnitude n 1 = m := by
  rcases Nat.eq_zero_or_pos m with rfl | hm
  · -- zero is the value of the magnitude zero
    rw [ratio_div, show significand 0 = 0 from rfl, Nat.cast_zero, zero_mul] at h
    have hn : n = 0 := by exact_mod_cast h.symm
    rw [hn]
    rfl
  · obtain ⟨hnum, hden⟩ := ratio_pos hm
    have hn : 0 < n := by
      have hpos : (0 : ℚ) < n := h ▸ div_pos (by exact_mod_cast hnum) (by exact_mod_cast hden)
      exact_mod_cast hpos
    rw [ratio_div] at h
    -- the integer is not only near the value, it is the value
    have hexact : (n : ℚ) / (1 : ℕ) - significand m * 2 ^ ((exponent m : Int) - 1075) = 0 := by
      rw [h, Nat.cast_one, div_one, sub_self]
    refine nearestMagnitude_eq_of_close hn Nat.one_pos ?_ fun _ => ?_
    · rw [hexact, abs_zero]
      positivity
    · rw [hexact, abs_zero]
      positivity

/-- **A pattern whose value is an integer** is the pattern of that integer, unless it is negative
zero. -/
theorem eq_ofInt_of_toInt? {x : Binary64} {k : Int} (h : x.toInt? = some k)
    (hzero : ¬ (k = 0 ∧ x.isNegative = true)) : x = ofInt k := by
  obtain ⟨-, hvalue, hsign⟩ := toInt?_eq_some_iff.mp h
  have hnegative : decide (k < 0) = x.isNegative := by
    cases hneg : x.isNegative with
    | true =>
      rw [hneg, if_pos rfl] at hsign
      have hne : k ≠ 0 := fun hk => hzero ⟨hk, hneg⟩
      exact decide_eq_true (by omega)
    | false =>
      rw [hneg, if_neg Bool.false_ne_true] at hsign
      exact decide_eq_false (by omega)
  rw [ofInt, nearestMagnitude_of_ratio hvalue, hnegative, ofMagnitude_magnitude]

/-! ### Integers of 32 bits -/

private theorem natAbs_toInt_lt (k : Int32) : k.toInt.natAbs < 2 ^ 53 := by
  have hlow := k.le_toInt
  have hhigh := k.toInt_lt
  norm_num at hlow hhigh ⊢
  omega

/-- The 32-bit integer that the pattern spells exactly. Negative zero spells none. -/
def exactInt32? (x : Binary64) : Option Int32 :=
  match x.toInt? with
  | some k =>
    if k = 0 ∧ x.isNegative then none
    else if -0x80000000 ≤ k ∧ k < 0x80000000 then some (Int32.ofInt k)
    else none
  | none => none

private theorem exactInt32?_eq_some_iff {x : Binary64} {k : Int32} :
    x.exactInt32? = some k ↔ x = ofInt k.toInt := by
  constructor
  · intro h
    unfold exactInt32? at h
    split at h
    · next i hi =>
      split at h
      · cases h
      · next hzero =>
        split at h
        · next hrange =>
          cases h
          have hlow : -2 ^ 31 ≤ i := by norm_num; omega
          have hhigh : i < 2 ^ 31 := by norm_num; omega
          rw [Int32.toInt_ofInt_of_le hlow hhigh]
          exact eq_ofInt_of_toInt? hi hzero
        · cases h
    · cases h
  · rintro rfl
    have hlow := k.le_toInt
    have hhigh := k.toInt_lt
    norm_num at hlow hhigh
    unfold exactInt32?
    rw [toInt?_ofInt (natAbs_toInt_lt k)]
    dsimp only
    -- the integer zero has the pattern without a sign
    rw [if_neg, if_pos ⟨hlow, hhigh⟩, Int32.ofInt_toInt]
    rintro ⟨hzero, hneg⟩
    rw [isNegative_ofInt (natAbs_toInt_lt k), hzero] at hneg
    exact absurd hneg (by decide)

/-! ### The test for integers of 32 bits

The test compares numbers, cuts a fraction off and converts back. Up to here numbers were compared
by their values; the test compares their places on the line. -/

/-- The patterns of integers grow with them. -/
private theorem nearestMagnitude_mono (hle : n ≤ m) (hlt : m < 2 ^ 53) :
    nearestMagnitude n 1 ≤ nearestMagnitude m 1 := by
  rcases Nat.eq_zero_or_pos n with rfl | hn
  · exact Nat.zero_le _
  have hm : 0 < m := hn.trans_le hle
  have hhigh := (shifted_log_bounds hn (hle.trans_lt hlt)).2
  have hlow := (shifted_log_bounds hm hlt).1
  rw [nearestMagnitude_of_lt hn (hle.trans_lt hlt), nearestMagnitude_of_lt hm hlt]
  rcases (Nat.log_mono_right (b := 2) hle).eq_or_lt with hsame | hless
  · -- with the same leading bit they are shifted alike
    rw [hsame]
    exact Nat.add_le_add_left (Nat.mul_le_mul_right _ hle) _
  · -- a higher leading bit outweighs all the others
    norm_num at hhigh hlow ⊢
    omega

private theorem place_ofInt {k : Int} (hk : k.natAbs < 2 ^ 53) :
    (ofInt k).place = if k < 0 then -(nearestMagnitude k.natAbs 1 : Int)
      else nearestMagnitude k.natAbs 1 := by
  rw [place, isNegative_ofInt hk, magnitude_ofInt hk]
  simp only [decide_eq_true_eq]

/-- Integers keep their order as numbers. -/
private theorem place_ofInt_mono {i j : Int} (hle : i ≤ j) (hi : i.natAbs < 2 ^ 53)
    (hj : j.natAbs < 2 ^ 53) : (ofInt i).place ≤ (ofInt j).place := by
  rw [place_ofInt hi, place_ofInt hj]
  split
  · split
    · -- of two negative integers the lower one is the farther from zero
      have hmono := nearestMagnitude_mono (n := j.natAbs) (m := i.natAbs) (by omega) hi
      omega
    · omega
  · have hmono := nearestMagnitude_mono (n := i.natAbs) (m := j.natAbs) (by omega) hj
    rw [if_neg (by omega)]
    omega

private theorem isNaN_ofInt {k : Int} (hk : k.natAbs < 2 ^ 53) : (ofInt k).isNaN = false := by
  rw [isNaN, magnitude_ofInt hk, decide_eq_false_iff_not]
  exact Nat.not_lt.mpr (nearestMagnitude_lt_infinite hk).le

private theorem ofInt_le_ofInt {i j : Int} (hle : i ≤ j) (hi : i.natAbs < 2 ^ 53)
    (hj : j.natAbs < 2 ^ 53) : (ofInt i).le (ofInt j) = true := by
  rw [le, ordered, isNaN_ofInt hi, isNaN_ofInt hj, Bool.and_eq_true, decide_eq_true_iff]
  exact ⟨rfl, place_ofInt_mono hle hi hj⟩

/-- Nothing is cut off from an integer. -/
private theorem truncate_ofInt {k : Int} (hk : k.natAbs < 2 ^ 53) : (ofInt k).truncate = k := by
  have hexact := toInt?_ofInt hk
  have hfinite := (toInt?_eq_some_iff.mp hexact).1
  unfold toInt? at hexact
  rw [if_neg (Nat.not_le.mpr hfinite)] at hexact
  dsimp only at hexact
  split at hexact
  · exact Option.some.inj hexact
  · cases hexact

/-- Numbers at the same place are the same, the two zeros aside. -/
private theorem eq_of_place_eq {x y : Binary64} (h : x.place = y.place)
    (hsign : x.place = 0 → x.isNegative = y.isNegative) : x = y := by
  have hboth : x.isNegative = y.isNegative ∧ x.magnitude = y.magnitude := by
    unfold place at h hsign
    cases hx : x.isNegative with
    | true =>
      cases hy : y.isNegative with
      | true =>
        simp only [hx, hy, if_true] at h
        exact ⟨rfl, by omega⟩
      | false =>
        simp only [hx, hy, if_true, Bool.false_eq_true, if_false] at h hsign
        exact absurd (hsign (by omega)) (by decide)
    | false =>
      cases hy : y.isNegative with
      | true =>
        simp only [hx, hy, if_true, Bool.false_eq_true, if_false] at h hsign
        exact absurd (hsign (by omega)) (by decide)
      | false =>
        simp only [hx, hy, Bool.false_eq_true, if_false] at h
        exact ⟨rfl, by omega⟩
  rw [← ofMagnitude_magnitude x, ← ofMagnitude_magnitude y, hboth.1, hboth.2]

/-- Only zero lies in the place of zero. -/
private theorem eq_zero_of_place_ofInt {k : Int} (hk : k.natAbs < 2 ^ 53)
    (h : (ofInt k).place = 0) : k = 0 := by
  rw [place_ofInt hk] at h
  by_contra hne
  have hpos : 0 < k.natAbs := Int.natAbs_pos.mpr hne
  have hlow := (shifted_log_bounds hpos hk).1
  have hmagnitude := nearestMagnitude_of_lt hpos hk
  norm_num at hlow
  split at h
  · omega
  · omega

/-- **The test for 32-bit integers** accepts their patterns and no others. -/
theorem int32?_eq_some_iff {x : Binary64} {k : Int32} : x.int32? = some k ↔ x = ofInt k.toInt := by
  have hk := natAbs_toInt_lt k
  constructor
  · intro h
    unfold int32? at h
    split at h
    · cases h
    dsimp only at h
    split at h
    · cases h
    · next heq =>
      split at h
      · cases h
      · next hzero =>
        -- the number has the place of the integer that it was cut down to, and a zero has no sign
        have hcut : Int32.ofInt x.truncate = k := Option.some.inj h
        rw [hcut] at heq hzero
        simp only [Bool.not_eq_true', Bool.not_eq_false, eq, Bool.and_eq_true, beq_iff_eq] at heq
        refine (eq_of_place_eq heq.2 fun hplace => ?_).symm
        have hk0 : k = 0 := Int32.toInt_inj.mp (eq_zero_of_place_ofInt hk hplace)
        rw [isNegative_ofInt hk, hk0]
        simpa [hk0] using hzero
  · rintro rfl
    have hlow := k.le_toInt
    have hhigh := k.toInt_lt
    norm_num at hlow hhigh
    unfold int32?
    have heq : (ofInt k.toInt).eq (ofInt k.toInt) = true := by
      simp [Binary64.eq, ordered, isNaN_ofInt hk]
    rw [ofInt_le_ofInt (by omega) (by decide) hk, ofInt_le_ofInt (by omega) hk (by decide),
      truncate_ofInt hk, Int32.ofInt_toInt, isNegative_ofInt hk]
    dsimp only
    rw [heq]
    -- the integer is its own integer part, and zero is not below zero
    by_cases hk0 : k = 0
    · subst hk0
      rfl
    · simp [hk0]

/-- **The test is exact**: it finds the integer that the pattern spells. -/
theorem int32?_eq_exactInt32? (x : Binary64) : x.int32? = x.exactInt32? := by
  ext k
  rw [int32?_eq_some_iff, exactInt32?_eq_some_iff]

/-- The zero with a sign. -/
def negativeZero : Binary64 := ⟨0x8000000000000000⟩

private theorem eq_negativeZero_iff {x : Binary64} :
    x = negativeZero ↔ x.toInt? = some 0 ∧ x.isNegative = true := by
  constructor
  · rintro rfl
    exact ⟨by decide +kernel, by decide⟩
  · rintro ⟨hzero, hneg⟩
    obtain ⟨-, hvalue, -⟩ := toInt?_eq_some_iff.mp hzero
    have hmagnitude : nearestMagnitude 0 1 = x.magnitude := nearestMagnitude_of_ratio hvalue
    rw [← ofMagnitude_magnitude x, hneg, ← hmagnitude]
    rfl

/-- **What is no 32-bit integer**: a NaN, an infinity, negative zero, a fraction, or an integer out
of range. -/
theorem int32?_eq_none_iff {x : Binary64} :
    x.int32? = none ↔ x.isNaN = true ∨ x.isInfinite = true ∨ x = negativeZero ∨
      (x.magnitude < infinite ∧ x.toInt? = none) ∨
      ∃ k, x.toInt? = some k ∧ ¬ (-0x80000000 ≤ k ∧ k < 0x80000000) := by
  have hspecial : x.isNaN = true ∨ x.isInfinite = true ↔ infinite ≤ x.magnitude := by
    rw [isNaN, isInfinite, decide_eq_true_iff, beq_iff_eq]
    omega
  have hnone : infinite ≤ x.magnitude → x.toInt? = none := fun h => if_pos h
  rw [← or_assoc, hspecial, eq_negativeZero_iff, int32?_eq_exactInt32?]
  unfold exactInt32?
  cases hx : x.toInt? with
  | none =>
    -- the number has no value at all, or it is a fraction
    refine iff_of_true rfl ?_
    rcases Nat.lt_or_ge x.magnitude infinite with hlt | hge
    · exact .inr (.inr (.inl ⟨hlt, rfl⟩))
    · exact .inl hge
  | some k =>
    have hfinite : ¬ infinite ≤ x.magnitude := fun h => by
      rw [hnone h] at hx
      cases hx
    dsimp only
    by_cases hzero : k = 0 ∧ x.isNegative = true
    · rw [if_pos hzero]
      exact iff_of_true rfl (.inr (.inl ⟨congrArg some hzero.1, hzero.2⟩))
    · rw [if_neg hzero]
      by_cases hrange : -0x80000000 ≤ k ∧ k < 0x80000000
      · rw [if_pos hrange]
        refine iff_of_false (fun h => by cases h) ?_
        rintro (h | ⟨h, hneg⟩ | ⟨-, h⟩ | ⟨i, h, hout⟩)
        · exact hfinite h
        · exact hzero ⟨Option.some.inj h, hneg⟩
        · cases h
        · cases h
          exact hout hrange
      · rw [if_neg hrange]
        exact iff_of_true rfl (.inr (.inr (.inr ⟨k, rfl, hrange⟩)))

end Binary64

/-! ### Constants for numbers -/

/-- The step takes no constant away: it neither goes back nor begins again. -/
def Step.KeepsConstants : Step → Prop
  | .rollback _ => False
  | .setup => False
  | _ => True

namespace Trace

variable {t t' : Trace} {r q : Ref} {x : Binary64}

/-- A constant for the number is there. -/
def HasNumber (t : Trace) (x : Binary64) : Prop :=
  ∃ r k, (Constant.numInt x).key? t.pool = some k ∧ t.HasKey r k

/-- A number is never a senseless request. -/
private theorem exists_key_numInt (x : Binary64) (p : Pool) :
    ∃ k, (Constant.numInt x).key? p = some k ∧
      ((∃ i, k = .int i) ∨ ∃ s, k = .num (.pooled s)) := by
  rw [Constant.key?, Constant.demand]
  cases x.int32? with
  | some i => exact ⟨_, rfl, .inl ⟨i, rfl⟩⟩
  | none => exact ⟨_, rfl, .inr ⟨_, rfl⟩⟩

/-- The value that is interned stands for the number. -/
private theorem number?_of_value? {v : Value} (h : (Constant.numInt x).value? = some v) :
    v.number? = some x := by
  rw [Constant.value?] at h
  cases hx : x.int32? with
  | some i =>
    rw [hx] at h
    cases h
    rw [Value.number?, ← Binary64.int32?_eq_some_iff.mp hx]
  | none =>
    rw [hx] at h
    cases h
    rfl

/-- A step that takes no constant away leaves everything that is live. -/
private theorem Canonical.isLive_step (h : t.Canonical) (hr : t.isLive r = true) {s : Step}
    (hs : s.KeepsConstants) : (t.step s).isLive r = true := by
  rcases step_cases t s with hgrows | ⟨cp, rfl⟩ | rfl | ⟨f, rfl⟩
  · obtain ⟨-, hgrowths⟩ := hgrows h.sound.laid
    have hextends := (View.Extends.refl t.view).growths h.sound.wellFormed hgrowths
    obtain ⟨hlow, hhigh⟩ := (t.isLive_iff r).mp hr
    exact ((t.step s).isLive_iff r).mpr
      ⟨UInt32.le_trans hextends.nk_le hlow, UInt32.lt_of_lt_of_le hhigh hextends.nins_le⟩
  · exact hs.elim
  · exact hs.elim
  · exact hr

private theorem Canonical.staysLive (l : List Step) :
    ∀ {t : Trace}, t.Canonical → t.isLive r = true → (∀ s ∈ l, s.KeepsConstants) →
      t.StaysLive l r := by
  induction l with
  | nil =>
    intro t _ hr _ l' hl'
    rw [List.prefix_nil.mp hl']
    exact hr
  | cons s l ih =>
    intro t h hr hl l' hl'
    obtain ⟨hs, hrest⟩ := List.forall_mem_cons.mp hl
    rcases List.prefix_cons_iff.mp hl' with rfl | ⟨l'', rfl, hl''⟩
    · exact hr
    · exact ih (stepInvariant_canonical.step h s) (h.isLive_step hr hs) hrest l'' hl''

/-- **One constant for each number.** Two constants for numbers that have the same value are one. -/
theorem Canonical.ref_eq_of_value (h : t.Canonical) {k k' : Key} {v : Value} (hr : t.HasKey r k)
    (hq : t.HasKey q k') (hk : (∃ i, k = .int i) ∨ ∃ s, k = .num (.pooled s))
    (hk' : (∃ i, k' = .int i) ∨ ∃ s, k' = .num (.pooled s)) (hv : t.value r = .ok v)
    (hv' : t.value q = .ok v) : r = q := by
  -- the value of an integer tells it from a number of the pool, so both are of the same kind
  have hint : ∀ {r i}, t.HasKey r (.int i) → t.value r = .ok (.int i) := fun hr =>
    h.value_of_hasKey hr rfl
  rcases hk with ⟨i, rfl⟩ | ⟨i, rfl⟩
  · rw [hint hr] at hv
    cases hv
    rcases hk' with ⟨j, rfl⟩ | ⟨j, rfl⟩
    · rw [hint hq] at hv'
      cases hv'
      exact h.onePerKey.unique r q _ hr hq
    · obtain ⟨y, -, hy⟩ := h.exists_holds hq
      rw [hy] at hv'
      cases hv'
  · obtain ⟨y, hy, hvalue⟩ := h.exists_holds hr
    rw [hvalue] at hv
    cases hv
    rcases hk' with ⟨j, rfl⟩ | ⟨j, rfl⟩
    · rw [hint hq] at hv'
      cases hv'
    · by_contra hne
      obtain ⟨a, b, ha, hb, hab⟩ := h.onePerKey.numbers r q i j hr hq hne
      rw [hvalue] at ha
      rw [hv'] at hb
      cases ha
      cases hb
      exact hab rfl

/-- When a number gets a constant: one is there, or there is room for one. -/
private theorem Canonical.exists_run_knumInt_iff (h : t.Canonical) (x : Binary64) :
    (∃ y t', (knumInt x).run t = .ok y t') ↔
      t.HasNumber x ∨ ¬ t.ConstantsFull ∧ t.HasRoomBelow := by
  obtain ⟨k, hk, -⟩ := exists_key_numInt x t.pool
  change (∃ y t', (Constant.numInt x).intern.run t = .ok y t') ↔ _
  by_cases hthere : ∃ r, t.HasKey r k
  · obtain ⟨r, hr⟩ := hthere
    exact iff_of_true ⟨_, _, h.run_intern_of_hasKey hk hr⟩ (.inl ⟨r, k, hk, hr⟩)
  -- from here on a constant would have to be made, and room is all that matters
  have hnew : ∀ r, ¬ t.HasKey r k := fun r hr => hthere ⟨r, hr⟩
  have hnone : ¬ t.HasNumber x := by
    rintro ⟨r, k', hk', hr⟩
    cases hk.symm.trans hk'
    exact hnew r hr
  by_cases hfull : t.ConstantsFull
  · refine iff_of_false ?_ (not_or.mpr ⟨hnone, fun hroom => hroom.1 hfull⟩)
    rintro ⟨y, t', hrun⟩
    rw [h.run_intern_of_full hk hnew hfull] at hrun
    cases hrun
  · rcases h.run_intern_of_new hk hnew hfull with ⟨t', hrun, -, hroom⟩ | ⟨e, hrun, -, hroom⟩
    · exact iff_of_true ⟨_, _, hrun⟩ (.inr ⟨hfull, hroom⟩)
    · refine iff_of_false ?_ (not_or.mpr ⟨hnone, fun hroom' => hroom hroom'.2⟩)
      rintro ⟨y, t', hrun'⟩
      rw [hrun] at hrun'
      cases hrun'

/-- A number that is interned, and what is known of its constant from then on. -/
private theorem Reachable.number_kept (h : Reachable t) {y : TRef}
    (hrun : (knumInt x).run t = .ok y t') {l : List Step} (hl : ∀ s ∈ l, s.KeepsConstants) :
    ∃ k v, ((∃ i, k = .int i) ∨ ∃ s, k = .num (.pooled s)) ∧
      (Constant.numInt x).value? = some v ∧ Reachable (t'.steps l) ∧
      (t'.steps l).HasKey y.ref k ∧ (t'.steps l).value y.ref = .ok v := by
  obtain ⟨k, hk, hkind⟩ := exists_key_numInt x t.pool
  obtain ⟨v, hv⟩ : ∃ v, (Constant.numInt x).value? = some v := by
    rw [Constant.value?]
    cases x.int32? with
    | some i => exact ⟨_, rfl⟩
    | none => exact ⟨_, rfl⟩
  obtain ⟨hcanonical, hr, hvalue⟩ := h.canonical.hasKey_of_intern (c := .numInt x) hk hrun
  have hreach : Reachable t' :=
    after_of_ok (a := (Constant.numInt x).intern) hrun ▸ h.step (.intern (.numInt x))
  obtain ⟨z, hz, -⟩ := id hr
  have hlive := Canonical.staysLive l hcanonical (isLive_of_record? hz) hl
  obtain ⟨hkey, hkept⟩ := Canonical.kept l hcanonical hr hlive
  exact ⟨k, v, hkind, hv, hreach.steps l, hkey, hkept v (hvalue.trans hv)⟩

/-- **Numbers are interned bit by bit.** A pattern passes for a 32-bit integer exactly if it is the
pattern of that integer, so NaNs, infinities, negative zero, fractions and integers out of range do
not. In every recording a number gets a constant exactly if it has one already or there is room,
which there always is below the limit under moderate options. The constant stands for the very bits
that were asked for. As long as nothing is taken back, another number gets the same reference
exactly if it has the same bits. -/
theorem knumInt_bit_exact (x : Binary64) :
    (∀ k : Int32, x.int32? = some k ↔ x = .ofInt k.toInt) ∧
      (x.int32? = none ↔ x.isNaN = true ∨ x.isInfinite = true ∨
        x = .negativeZero ∨ (x.magnitude < Binary64.infinite ∧ x.toInt? = none) ∨
        ∃ k, x.toInt? = some k ∧ ¬ (-0x80000000 ≤ k ∧ k < 0x80000000)) ∧
      ∀ t, Reachable t →
        ((∃ y t', (knumInt x).run t = .ok y t') ↔
          t.HasNumber x ∨ ¬ t.ConstantsFull ∧ t.HasRoomBelow) ∧
        (t.config.Moderate → ¬ t.ConstantsFull → t.HasRoomBelow) ∧
        ∀ y t', (knumInt x).run t = .ok y t' →
          (∃ v, t'.value y.ref = .ok v ∧ v.number? = some x) ∧
          ∀ l : List Step, (∀ s ∈ l, s.KeepsConstants) →
            ∀ x' z t'', (knumInt x').run (t'.steps l) = .ok z t'' →
              (z.ref = y.ref ↔ x' = x) := by
  refine ⟨fun _ => Binary64.int32?_eq_some_iff, Binary64.int32?_eq_none_iff,
    fun t ht => ⟨ht.canonical.exists_run_knumInt_iff x,
      ht.settled.hasRoomBelow_of_moderate, fun y t' hrun => ⟨?_, fun l hl x' z t'' hrun' => ?_⟩⟩⟩
  · obtain ⟨k, v, -, hv, -, -, hvalue⟩ :=
      ht.number_kept hrun (l := []) fun _ h => absurd h List.not_mem_nil
    exact ⟨v, hvalue, number?_of_value? hv⟩
  · -- the second request is one more step, after which both constants are there
    have hsteps : ∀ s ∈ l ++ [Step.intern (.numInt x')], s.KeepsConstants := by
      intro s hs
      rcases List.mem_append.mp hs with hs | hs
      · exact hl s hs
      · rw [List.mem_singleton.mp hs]
        exact True.intro
    obtain ⟨-, -, -, -, hbefore, -, -⟩ := ht.number_kept hrun hl
    obtain ⟨k, v, hkind, hv, hafter, hkey, hvalue⟩ := ht.number_kept hrun hsteps
    obtain ⟨k', v', hkind', hv', -, hkey', hvalue'⟩ :=
      hbefore.number_kept hrun' (l := []) fun _ h => absurd h List.not_mem_nil
    have hsame : t'.steps (l ++ [Step.intern (.numInt x')]) = t'' := by
      rw [Trace.steps, List.foldl_append]
      exact after_of_ok (a := (Constant.numInt x').intern) hrun'
    rw [hsame] at hafter hkey hvalue
    constructor
    · -- one reference has one value, and the value tells the bits
      intro href
      have hsplit : v' = v := by
        have hok := hvalue'.symm.trans ((congrArg t''.value href).trans hvalue)
        exact Except.ok.inj hok
      have hx' := number?_of_value? hv'
      rw [hsplit, number?_of_value? hv] at hx'
      exact (Option.some.inj hx').symm
    · rintro rfl
      have hsplit : v' = v := Option.some.inj (hv'.symm.trans hv)
      rw [hsplit] at hvalue'
      exact hafter.canonical.ref_eq_of_value hkey' hkey hkind' hkind hvalue' hvalue

/-- The two zeros get two constants, whatever happens between the requests. -/
theorem knumInt_bit_exact_of_zeros :
    ∃ t t₁ t₂ y z, start {} {} = .ok t ∧ (knumInt .negativeZero).run t = .ok y t₁ ∧
      (knumInt ⟨0⟩).run (t₁.steps
        [.emit ⟨.add, rfl⟩ Ty.int Ref.nil Ref.true, .intern (.num ⟨0⟩), .checkpoint]) = .ok z t₂ ∧
      z.ref ≠ y.ref := by
  obtain ⟨t, t₁, t₂, y, z, ht, hrun, hrun'⟩ :
      ∃ t t₁ t₂ y z, start {} {} = .ok t ∧ (knumInt .negativeZero).run t = .ok y t₁ ∧
        (knumInt ⟨0⟩).run (t₁.steps
          [.emit ⟨.add, rfl⟩ Ty.int Ref.nil Ref.true, .intern (.num ⟨0⟩), .checkpoint]) =
            .ok z t₂ :=
    ⟨_, _, _, _, _, rfl, rfl, rfl⟩
  obtain ⟨-, -, hnumbers⟩ := knumInt_bit_exact .negativeZero
  refine ⟨t, t₁, t₂, y, z, ht, hrun, hrun', fun href => ?_⟩
  have hsame := (((hnumbers t (.start ht)).2.2 y t₁ hrun).2 _ (by simp [Step.KeepsConstants])
    _ z t₂ hrun').mp href
  exact absurd hsame (by decide)

/-- Below the limit, but with a first array that reaches around, the number one gets no constant. -/
theorem one_not_interned_oversized_buffer :
    ∃ t, start { minSize := 131076 } {} = .ok t ∧ ¬ t.ConstantsFull ∧
      (knumInt ⟨0x3ff0000000000000⟩).run t =
        .error (.broken (.misplacedBottom 131076 Ref.true 0xffffffff)) t := by
  obtain ⟨t, ht, hroom, hstuck⟩ := exists_oversized
  have hone : Binary64.int32? ⟨0x3ff0000000000000⟩ = some 1 := by decide +kernel
  have hkey : (Constant.numInt ⟨0x3ff0000000000000⟩).key? t.pool = some (.int 1) := by
    rw [Constant.key?, Constant.demand, hone]
  have hpool : (Constant.numInt ⟨0x3ff0000000000000⟩).poolAfter t.pool = t.pool := by
    rw [Constant.poolAfter, Constant.demand, hone]
  have hrun := (Reachable.start ht).canonical.run_intern_of_stuck hkey
    (fun r => not_hasKey_of_start ht r _) hroom hstuck
  rw [hpool] at hrun
  exact ⟨t, ht, hroom, hrun⟩

end Trace

end TraceIR
