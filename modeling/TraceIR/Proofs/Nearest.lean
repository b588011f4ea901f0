import Mathlib.Algebra.Order.Field.Power
import Mathlib.Algebra.Order.Floor.Semifield
import Mathlib.Data.Int.Log
import Mathlib.Data.Rat.Floor
import Mathlib.Tactic.FieldSimp
import Mathlib.Tactic.Linarith
import Mathlib.Tactic.Positivity
import Mathlib.Tactic.NormNum
import Mathlib.Tactic.Ring
import TraceIR.Binary64

/-!
# The nearest number

Rounding a quotient is done with integers. This file says what comes of it in terms of the rational
number that the quotient stands for.

* `Binary64.floorLog2_eq_log` — the power of two below a quotient.
* `Binary64.roundDiv_eq_of_close` — a quotient that is nearer to an integer than a half is rounded to
  it.
* `Binary64.nearestMagnitude_eq_of_div_eq` — the nearest number depends on the quotient only, not on
  the fraction that it is given by.
* `Binary64.nearestMagnitude_eq_of_close` — a quotient within half a unit of a number is rounded to
  it; below a power of two, where the numbers lie twice as close, within a quarter.
-/

namespace TraceIR.Binary64

variable {n d n' d' m s : Nat}

/-! ### Powers of two -/

private theorem shiftLeft_toNat_div (hd : 0 < d) (l : Int) :
    n <<< (-l).toNat < d <<< l.toNat ↔ (n : ℚ) / d < 2 ^ l := by
  have hd' : (0 : ℚ) < d := by exact_mod_cast hd
  rw [Nat.shiftLeft_eq, Nat.shiftLeft_eq, div_lt_iff₀ hd']
  rcases le_total 0 l with hl | hl
  · -- a power above one
    obtain ⟨k, rfl⟩ := Int.eq_ofNat_of_zero_le hl
    have hneg : (-(k : Int)).toNat = 0 := by omega
    rw [hneg, Int.toNat_natCast, zpow_natCast, pow_zero, mul_one, mul_comm d]
    exact_mod_cast Iff.rfl
  · -- and one below
    obtain ⟨k, hk⟩ := Int.eq_ofNat_of_zero_le (Int.neg_nonneg_of_nonpos hl)
    obtain rfl : l = -(k : Int) := by omega
    have htop : (-(k : Int)).toNat = 0 := by omega
    rw [neg_neg, Int.toNat_natCast, htop, pow_zero, mul_one, zpow_neg, zpow_natCast,
      inv_mul_eq_div, lt_div_iff₀ (by positivity)]
    exact_mod_cast Iff.rfl

/-- The logarithm is known from the powers on both sides. -/
private theorem log_eq_of_mem {q : ℚ} {l : Int} (hq : 0 < q) (hlow : (2 : ℚ) ^ l ≤ q)
    (hhigh : q < 2 ^ (l + 1)) : Int.log 2 q = l := by
  have hle := (Int.zpow_le_iff_le_log (b := 2) (by norm_num) hq).mp (by exact_mod_cast hlow)
  have hlt := (Int.lt_zpow_iff_log_lt (b := 2) (by norm_num) hq).mp (by exact_mod_cast hhigh)
  omega

/-- **The power of two at or just below a quotient.** -/
theorem floorLog2_eq_log (hn : 0 < n) (hd : 0 < d) :
    floorLog2 n d = Int.log 2 ((n : ℚ) / d) := by
  have hd' : (0 : ℚ) < d := by exact_mod_cast hd
  have hn' : (0 : ℚ) < n := by exact_mod_cast hn
  have hq : 0 < (n : ℚ) / d := div_pos hn' hd'
  set l : Int := (n.log2 : Int) - d.log2 with hl
  -- from the two logarithms the power is known up to one
  have hlow : (2 : ℚ) ^ (l - 1) ≤ (n : ℚ) / d := by
    have hn₁ : (2 : ℚ) ^ n.log2 ≤ n := by exact_mod_cast Nat.log2_self_le hn.ne'
    have hd₁ : (d : ℚ) ≤ 2 ^ (d.log2 + 1) := by exact_mod_cast (Nat.lt_log2_self (n := d)).le
    have hsplit : (n.log2 : Int) = l - 1 + (d.log2 + 1 : ℕ) := by omega
    rw [le_div_iff₀ hd']
    calc (2 : ℚ) ^ (l - 1) * d ≤ 2 ^ (l - 1) * 2 ^ (d.log2 + 1) := by gcongr
      _ = 2 ^ n.log2 := by
          rw [← zpow_natCast, ← zpow_natCast, hsplit, zpow_add₀ (by norm_num)]
      _ ≤ n := hn₁
  have hhigh : (n : ℚ) / d < 2 ^ (l + 1) := by
    have hn₁ : (n : ℚ) < 2 ^ (n.log2 + 1) := by exact_mod_cast Nat.lt_log2_self (n := n)
    have hd₁ : (2 : ℚ) ^ d.log2 ≤ d := by exact_mod_cast Nat.log2_self_le hd.ne'
    have hsplit : ((n.log2 + 1 : ℕ) : Int) = l + 1 + d.log2 := by omega
    rw [div_lt_iff₀ hd']
    calc (n : ℚ) < 2 ^ (n.log2 + 1) := hn₁
      _ = 2 ^ (l + 1) * 2 ^ d.log2 := by
          rw [← zpow_natCast, ← zpow_natCast, hsplit, zpow_add₀ (by norm_num)]
      _ ≤ 2 ^ (l + 1) * d := by gcongr
  unfold floorLog2
  rw [← hl]
  dsimp only
  split
  · next htest =>
    rw [shiftLeft_toNat_div hd] at htest
    refine (log_eq_of_mem hq hlow ?_).symm
    rw [sub_add_cancel]
    exact htest
  · next htest =>
    rw [shiftLeft_toNat_div hd, not_lt] at htest
    exact (log_eq_of_mem hq htest hhigh).symm

/-! ### Rounding to an integer -/

/-- Only the quotient matters. -/
private theorem roundDiv_mul_right (n d : Nat) {k : Nat} (hk : 0 < k) :
    roundDiv (n * k) (d * k) = roundDiv n d := by
  have hup : d * k < 2 * (n % d * k) ↔ d < 2 * (n % d) := by
    rw [← mul_assoc]
    exact Nat.mul_lt_mul_right hk
  have htie : 2 * (n % d * k) = d * k ↔ 2 * (n % d) = d := by
    rw [← mul_assoc]
    exact Nat.mul_left_inj hk.ne'
  unfold roundDiv
  dsimp only
  rw [Nat.mul_div_mul_right _ _ hk, Nat.mul_mod_mul_right]
  simp only [hup, htie]

private theorem roundDiv_eq_of_mul_eq (hd : 0 < d) (hd' : 0 < d') (h : n * d' = n' * d) :
    roundDiv n d = roundDiv n' d' := by
  calc roundDiv n d = roundDiv (n * d') (d * d') := (roundDiv_mul_right n d hd').symm
    _ = roundDiv (n' * d) (d' * d) := by rw [h, mul_comm d d']
    _ = roundDiv n' d' := roundDiv_mul_right n' d' hd

private theorem mul_eq_of_div_eq (hd : 0 < d) (hd' : 0 < d') (h : (n : ℚ) / d = n' / d') :
    n * d' = n' * d := by
  have hd₁ : (d : ℚ) ≠ 0 := by exact_mod_cast hd.ne'
  have hd₂ : (d' : ℚ) ≠ 0 := by exact_mod_cast hd'.ne'
  rw [div_eq_div_iff hd₁ hd₂] at h
  exact_mod_cast h

/-- **A quotient near an integer** is rounded to it. -/
theorem roundDiv_eq_of_close (hd : 0 < d) (hbelow : (s : ℚ) - 1 / 2 < n / d)
    (habove : (n : ℚ) / d < s + 1 / 2) : roundDiv n d = s := by
  have hd' : (0 : ℚ) < d := by exact_mod_cast hd
  rw [lt_div_iff₀ hd'] at hbelow
  rw [div_lt_iff₀ hd'] at habove
  have hlow : 2 * (s * d) < 2 * n + d := by
    have hcast : ((2 * (s * d) : ℕ) : ℚ) < ((2 * n + d : ℕ) : ℚ) := by
      push_cast
      linarith
    exact_mod_cast hcast
  have hhigh : 2 * n < 2 * (s * d) + d := by
    have hcast : ((2 * n : ℕ) : ℚ) < ((2 * (s * d) + d : ℕ) : ℚ) := by
      push_cast
      linarith
    exact_mod_cast hcast
  -- the quotient is the integer or the one before it
  have hdivmod : n / d * d + n % d = n := Nat.div_add_mod' n d
  have hrem : n % d < d := Nat.mod_lt n hd
  unfold roundDiv
  dsimp only
  rcases Nat.lt_trichotomy (n / d) s with hlt | heq | hgt
  · have hstep : (n / d + 1) * d ≤ s * d := Nat.mul_le_mul_right d hlt
    rw [Nat.succ_mul] at hstep
    have hup : d < 2 * (n % d) := by omega
    rw [if_pos (.inl hup)]
    by_contra hne
    have hmore : (n / d + 2) * d ≤ s * d := Nat.mul_le_mul_right d (by omega)
    rw [Nat.add_mul] at hmore
    omega
  · rw [heq] at hdivmod
    rw [if_neg (by omega)]
    exact heq
  · have hstep : (s + 1) * d ≤ n / d * d := Nat.mul_le_mul_right d hgt
    rw [Nat.succ_mul] at hstep
    omega

/-! ### The nearest number -/

/-- The exponent field of the nearest number, less one, from the power of two below the
quotient. -/
def fieldBelow (l : Int) : Nat :=
  (l + 1022).toNat

/-- A quotient in units of the last place. -/
private theorem shifted_div (hd : 0 < d) (e : Nat) :
    ((n <<< (1074 - e) : ℕ) : ℚ) / ((d <<< (e - 1074) : ℕ) : ℚ) =
      (n : ℚ) / d * 2 ^ (1074 - (e : Int)) := by
  have hd' : (d : ℚ) ≠ 0 := by exact_mod_cast hd.ne'
  rw [Nat.shiftLeft_eq, Nat.shiftLeft_eq]
  push_cast
  have hexp : 1074 - (e : Int) = ((1074 - e : ℕ) : Int) - ((e - 1074 : ℕ) : Int) := by omega
  have hpow : (2 : ℚ) ^ (1074 - (e : Int)) = 2 ^ (1074 - e) / 2 ^ (e - 1074) := by
    rw [hexp, zpow_sub₀ (by norm_num), zpow_natCast, zpow_natCast]
  rw [hpow]
  field_simp

theorem nearestMagnitude_eq (hn : 0 < n) (hd : 0 < d) {e : Nat}
    (he : fieldBelow (Int.log 2 ((n : ℚ) / d)) = e) :
    nearestMagnitude n d =
      e * 2 ^ 52 + roundDiv (n <<< (1074 - e)) (d <<< (e - 1074)) := by
  unfold nearestMagnitude
  rw [if_neg hn.ne', floorLog2_eq_log hn hd]
  unfold fieldBelow at he
  rw [he]
  dsimp only
  rw [Nat.shiftLeft_eq e]

theorem shiftLeft_pos (hd : 0 < d) (k : Nat) : 0 < d <<< k := by
  rw [Nat.shiftLeft_eq]
  exact Nat.mul_pos hd (Nat.two_pow_pos k)

/-- **Only the quotient matters.** -/
theorem nearestMagnitude_eq_of_div_eq (hd : 0 < d) (hd' : 0 < d') (h : (n : ℚ) / d = n' / d') :
    nearestMagnitude n d = nearestMagnitude n' d' := by
  have hd₁ : (0 : ℚ) < d := by exact_mod_cast hd
  have hd₂ : (0 : ℚ) < d' := by exact_mod_cast hd'
  rcases Nat.eq_zero_or_pos n with rfl | hn
  · -- then both are zero
    have hmul := mul_eq_of_div_eq hd hd' h
    rw [Nat.zero_mul] at hmul
    have hn' : n' = 0 := (Nat.mul_eq_zero.mp hmul.symm).resolve_right hd.ne'
    unfold nearestMagnitude
    rw [hn', if_pos rfl, if_pos rfl]
  · have hn' : 0 < n' := by
      by_contra hzero
      have hmul := mul_eq_of_div_eq hd hd' h
      rw [Nat.eq_zero_of_not_pos hzero, Nat.zero_mul] at hmul
      have hpos := Nat.mul_pos hn hd'
      omega
    obtain ⟨e, he⟩ : ∃ e, fieldBelow (Int.log 2 ((n : ℚ) / d)) = e := ⟨_, rfl⟩
    have he' : fieldBelow (Int.log 2 ((n' : ℚ) / d')) = e := by rw [← h, he]
    have hround : roundDiv (n <<< (1074 - e)) (d <<< (e - 1074)) =
        roundDiv (n' <<< (1074 - e)) (d' <<< (e - 1074)) := by
      refine roundDiv_eq_of_mul_eq (shiftLeft_pos hd _) (shiftLeft_pos hd' _) ?_
      refine mul_eq_of_div_eq (shiftLeft_pos hd _) (shiftLeft_pos hd' _) ?_
      rw [shifted_div hd, shifted_div hd', h]
    rw [nearestMagnitude_eq hn hd he, nearestMagnitude_eq hn' hd' he', hround]

/-! ### Numbers and what is rounded to them -/

/-- Exponent and significand make up the magnitude. -/
private theorem exponent_significand (m : Nat) :
    (exponent m - 1) * 2 ^ 52 + significand m = m := by
  unfold exponent significand
  rw [Nat.shiftRight_eq_div_pow]
  split
  · next h =>
    rw [h]
    simp
  · next h =>
    have hpos : 1 ≤ m / 2 ^ 52 := Nat.one_le_iff_ne_zero.mpr h
    have hdivmod := Nat.div_add_mod' m (2 ^ 52)
    rw [max_eq_left hpos, Nat.sub_mul]
    have hle : 1 * 2 ^ 52 ≤ m / 2 ^ 52 * 2 ^ 52 := Nat.mul_le_mul_right _ hpos
    norm_num at hdivmod hle ⊢
    omega

theorem one_le_exponent (m : Nat) : 1 ≤ exponent m :=
  le_max_right ..

theorem significand_lt (m : Nat) : significand m < 2 ^ 53 := by
  unfold significand
  rw [Nat.shiftRight_eq_div_pow]
  split
  · next h =>
    have hlt := (Nat.div_eq_zero_iff.mp h).resolve_left (by norm_num)
    norm_num at hlt ⊢
    omega
  · have hlt := Nat.mod_lt m (show 0 < 0x10000000000000 by decide)
    norm_num at hlt ⊢
    omega

/-- The numbers above the least exponent have the hidden bit. -/
private theorem le_significand (h : 1 < exponent m) : 2 ^ 52 ≤ significand m := by
  unfold exponent at h
  unfold significand
  have hne : m >>> 52 ≠ 0 := by
    intro hzero
    rw [hzero] at h
    exact absurd h (by decide)
  rw [if_neg hne]
  norm_num

/-- The value of a magnitude. -/
theorem ratio_div (m : Nat) :
    ((ratio m).1 : ℚ) / (ratio m).2 = significand m * 2 ^ ((exponent m : Int) - 1075) := by
  unfold ratio
  split
  · next h =>
    have hexp : (exponent m : Int) - 1075 = ((exponent m - 1075 : ℕ) : Int) := by omega
    rw [Nat.shiftLeft_eq, hexp, zpow_natCast]
    push_cast
    rw [div_one]
  · next h =>
    have hexp : (exponent m : Int) - 1075 = -((1075 - exponent m : ℕ) : Int) := by omega
    rw [Nat.shiftLeft_eq, hexp, zpow_neg, zpow_natCast]
    push_cast
    rw [one_mul, div_eq_mul_inv]

theorem significand_pos (hm : 0 < m) : 0 < significand m := by
  unfold significand
  split
  · exact hm
  · exact Nat.add_pos_right _ (by decide)

theorem ratio_pos (hm : 0 < m) : 0 < (ratio m).1 ∧ 0 < (ratio m).2 := by
  have hsig := significand_pos hm
  unfold ratio
  split
  · exact ⟨shiftLeft_pos hsig _, Nat.one_pos⟩
  · exact ⟨hsig, shiftLeft_pos Nat.one_pos _⟩

/-- A power of two in terms of another one. -/
theorem two_zpow_sub_natCast (a b : Int) {k : Nat} (h : b + k = a) :
    (2 : ℚ) ^ a = 2 ^ k * 2 ^ b := by
  rw [← h, zpow_add₀ (by norm_num), zpow_natCast, mul_comm]

/-- A quotient with the exponent of the number. -/
private theorem nearestMagnitude_eq_of_sameField (hn : 0 < n) (hd : 0 < d)
    (hfield : fieldBelow (Int.log 2 ((n : ℚ) / d)) = exponent m - 1)
    (hclose : |(n : ℚ) / d - significand m * 2 ^ ((exponent m : Int) - 1075)| <
      2 ^ ((exponent m : Int) - 1076)) :
    nearestMagnitude n d = m := by
  have hone := one_le_exponent m
  obtain ⟨u, hu⟩ : ∃ u : ℚ, u = 2 ^ ((exponent m : Int) - 1075) := ⟨_, rfl⟩
  have hpos : 0 < u := hu ▸ zpow_pos (by norm_num) _
  have hhalf : u = 2 * 2 ^ ((exponent m : Int) - 1076) := by
    rw [hu, two_zpow_sub_natCast _ ((exponent m : Int) - 1076) (k := 1) (by omega), pow_one]
  have hscale : (2 : ℚ) ^ (1074 - ((exponent m - 1 : ℕ) : Int)) = u⁻¹ := by
    rw [hu, ← zpow_neg]
    congr 1
    omega
  rw [← hu, abs_lt] at hclose
  have hround : roundDiv (n <<< (1074 - (exponent m - 1))) (d <<< (exponent m - 1 - 1074)) =
      significand m := by
    apply roundDiv_eq_of_close (shiftLeft_pos hd _)
    · rw [shifted_div hd, hscale, ← div_eq_mul_inv, lt_div_iff₀ hpos]
      linarith
    · rw [shifted_div hd, hscale, ← div_eq_mul_inv, div_lt_iff₀ hpos]
      linarith
  rw [nearestMagnitude_eq hn hd hfield, hround, exponent_significand]

/-- A quotient just below a power of two. It is rounded up to it, and the carry moves on to the next
exponent. -/
private theorem nearestMagnitude_eq_of_lowerField (hn : 0 < n) (hd : 0 < d) (hone : 1 < exponent m)
    (hsig : significand m = 2 ^ 52)
    (hbelow : (n : ℚ) / d < 2 ^ 52 * 2 ^ ((exponent m : Int) - 1075))
    (hclose : (2 ^ 52 - 1 / 4) * 2 ^ ((exponent m : Int) - 1075) < (n : ℚ) / d) :
    nearestMagnitude n d = m := by
  have hq : 0 < (n : ℚ) / d := div_pos (by exact_mod_cast hn) (by exact_mod_cast hd)
  obtain ⟨u, hu⟩ : ∃ u : ℚ, u = 2 ^ ((exponent m : Int) - 1075) := ⟨_, rfl⟩
  have hpos : 0 < u := hu ▸ zpow_pos (by norm_num) _
  rw [← hu] at hbelow hclose
  have hlog : Int.log 2 ((n : ℚ) / d) = (exponent m : Int) - 1024 := by
    apply log_eq_of_mem hq
    · rw [two_zpow_sub_natCast _ ((exponent m : Int) - 1075) (k := 51) (by omega), ← hu]
      linarith
    · rw [two_zpow_sub_natCast _ ((exponent m : Int) - 1075) (k := 52) (by omega), ← hu]
      exact hbelow
  have hfield : fieldBelow (Int.log 2 ((n : ℚ) / d)) = exponent m - 2 := by
    rw [hlog, fieldBelow]
    omega
  have hscale : (2 : ℚ) ^ (1074 - ((exponent m - 2 : ℕ) : Int)) = 2 * u⁻¹ := by
    have hexp : 1074 - ((exponent m - 2 : ℕ) : Int) = -((exponent m : Int) - 1075) + (1 : ℕ) := by
      omega
    rw [hexp, zpow_add₀ (by norm_num), zpow_neg, ← hu, zpow_natCast, pow_one, mul_comm]
  have hround : roundDiv (n <<< (1074 - (exponent m - 2))) (d <<< (exponent m - 2 - 1074)) =
      2 ^ 53 := by
    apply roundDiv_eq_of_close (shiftLeft_pos hd _)
    · rw [shifted_div hd, hscale, ← mul_assoc, ← div_eq_mul_inv, lt_div_iff₀ hpos]
      push_cast
      linarith
    · rw [shifted_div hd, hscale, ← mul_assoc, ← div_eq_mul_inv, div_lt_iff₀ hpos]
      push_cast
      linarith
  have hm := exponent_significand m
  have hpred : exponent m - 1 = exponent m - 2 + 1 := by omega
  rw [hsig, hpred] at hm
  calc nearestMagnitude n d = (exponent m - 2) * 2 ^ 52 + 2 ^ 53 := by
        rw [nearestMagnitude_eq hn hd hfield, hround]
    _ = (exponent m - 2 + 1) * 2 ^ 52 + 2 ^ 52 := by ring
    _ = m := hm

/-- **A quotient near a number** is rounded to it. Half a unit is near enough, but below a power of
two the numbers lie twice as close. -/
theorem nearestMagnitude_eq_of_close (hn : 0 < n) (hd : 0 < d)
    (hclose : |(n : ℚ) / d - significand m * 2 ^ ((exponent m : Int) - 1075)| <
      2 ^ ((exponent m : Int) - 1076))
    (hpower : significand m = 2 ^ 52 →
      |(n : ℚ) / d - significand m * 2 ^ ((exponent m : Int) - 1075)| <
        2 ^ ((exponent m : Int) - 1077)) :
    nearestMagnitude n d = m := by
  have hq : 0 < (n : ℚ) / d := div_pos (by exact_mod_cast hn) (by exact_mod_cast hd)
  have hone := one_le_exponent m
  obtain ⟨u, hu⟩ : ∃ u : ℚ, u = 2 ^ ((exponent m : Int) - 1075) := ⟨_, rfl⟩
  have hpos : 0 < u := hu ▸ zpow_pos (by norm_num) _
  have hhalf : u = 2 * 2 ^ ((exponent m : Int) - 1076) := by
    rw [hu, two_zpow_sub_natCast _ ((exponent m : Int) - 1076) (k := 1) (by omega), pow_one]
  have hquarter : u = 4 * 2 ^ ((exponent m : Int) - 1077) := by
    rw [hu, two_zpow_sub_natCast _ ((exponent m : Int) - 1077) (k := 2) (by omega)]
    norm_num
  have hnear := hclose
  rw [← hu, abs_lt] at hnear
  -- the quotient lies below the next power of two but one
  have hsig : (significand m : ℚ) ≤ 2 ^ 53 - 1 := by
    have hle : significand m + 1 ≤ 2 ^ 53 := significand_lt m
    have hcast : ((significand m + 1 : ℕ) : ℚ) ≤ ((2 ^ 53 : ℕ) : ℚ) := by exact_mod_cast hle
    push_cast at hcast
    linarith
  have htop : (n : ℚ) / d < 2 ^ ((exponent m : Int) - 1022) := by
    rw [two_zpow_sub_natCast _ ((exponent m : Int) - 1075) (k := 53) (by omega), ← hu]
    nlinarith
  have hlog : Int.log 2 ((n : ℚ) / d) < (exponent m : Int) - 1022 := by
    apply (Int.lt_zpow_iff_log_lt (b := 2) (by norm_num) hq).mp
    rw [Nat.cast_ofNat]
    exact htop
  by_cases hleast : exponent m = 1
  · apply nearestMagnitude_eq_of_sameField hn hd ?_ hclose
    rw [fieldBelow]
    omega
  · have hnormal := le_significand (m := m) (by omega)
    by_cases hbelow : (n : ℚ) / d < 2 ^ 52 * u
    · -- it can only be the power of two itself
      have heq : significand m = 2 ^ 52 := by
        by_contra hne
        have hmore : 2 ^ 52 + 1 ≤ significand m := by omega
        have hcast : ((2 ^ 52 + 1 : ℕ) : ℚ) ≤ significand m := by exact_mod_cast hmore
        push_cast at hcast
        nlinarith
      have hnearer := hpower heq
      rw [← hu, abs_lt, heq] at hnearer
      push_cast at hnearer
      apply nearestMagnitude_eq_of_lowerField hn hd (by omega) heq
      · rw [← hu]
        exact hbelow
      · rw [← hu]
        linarith
    · apply nearestMagnitude_eq_of_sameField hn hd ?_ hclose
      have hle : (2 : ℚ) ^ ((exponent m : Int) - 1023) ≤ (n : ℚ) / d := by
        rw [two_zpow_sub_natCast _ ((exponent m : Int) - 1075) (k := 52) (by omega), ← hu]
        exact not_lt.mp hbelow
      have hlow : (exponent m : Int) - 1023 ≤ Int.log 2 ((n : ℚ) / d) := by
        apply (Int.zpow_le_iff_le_log (b := 2) (by norm_num) hq).mp
        rw [Nat.cast_ofNat]
        exact hle
      rw [fieldBelow]
      omega

end TraceIR.Binary64
