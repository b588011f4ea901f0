import Mathlib.Data.Nat.Cast.Order.Field
import TraceIR.Binary64.Shortest
import TraceIR.Proofs.Digits
import TraceIR.Proofs.Nearest

/-!
# Seventeen digits suffice

* `Binary64.zpow_floorLog10_le` — the power of ten with which the search begins is not too high. The
  guess from the power of two is, because `0.30103` is close enough to the logarithm of two.
* `Binary64.exists_withDigits?` — the nearest decimal with seventeen digits lies within the interval
  that is rounded to the number.
* `Binary64.exists_shortest` — so the search ends, and what it finds reads back.
-/

namespace TraceIR.Binary64

variable {n d n' m : Nat} {p p' : Int}

/-! ### Decimals as rationals -/

private theorem ten_pow_div (p : Int) :
    ((Nat.pow 10 p.toNat : ℕ) : ℚ) / ((Nat.pow 10 (-p).toNat : ℕ) : ℚ) = 10 ^ p := by
  have hsplit : p = (p.toNat : Int) - ((-p).toNat : Int) := by omega
  conv_rhs => rw [hsplit, zpow_sub₀ (by norm_num), zpow_natCast, zpow_natCast]
  norm_num

private theorem ten_pow_pos (k : Nat) : 0 < Nat.pow 10 k :=
  Nat.pow_pos (by decide)

private theorem scaled_div (n : Nat) (p : Int) :
    ((n * Nat.pow 10 p.toNat : ℕ) : ℚ) / ((Nat.pow 10 (-p).toNat : ℕ) : ℚ) = n * 10 ^ p := by
  rw [← ten_pow_div p, Nat.cast_mul, mul_div_assoc]

/-- Only the value of a decimal matters. -/
theorem scaledMagnitude_eq_of_eq (h : (n : ℚ) * 10 ^ p = n' * 10 ^ p') :
    Numeral.scaledMagnitude n p = Numeral.scaledMagnitude n' p' := by
  unfold Numeral.scaledMagnitude
  apply nearestMagnitude_eq_of_div_eq (ten_pow_pos _) (ten_pow_pos _)
  rw [scaled_div, scaled_div, h]

private theorem scaledMagnitude_zero (p : Int) : Numeral.scaledMagnitude 0 p = 0 := by
  unfold Numeral.scaledMagnitude nearestMagnitude
  rw [Nat.zero_mul, if_pos rfl]

/-! ### The power of ten -/

private theorem two_pow_le_ten_pow : 2 ^ 100000 ≤ 10 ^ 30103 := by
  decide +kernel

private theorem ten_pow_le_two_pow : 10 ^ 30103 ≤ 2 * 2 ^ 100000 := by
  decide +kernel

/-- A fraction that is a little above the logarithm of two tells a power of ten from a power of two,
as long as the error stays below one. -/
private theorem ten_zpow_le_two_zpow {a b : Nat} (hb : b ≠ 0) (hlow : 2 ^ b ≤ 10 ^ a)
    (hhigh : 10 ^ a ≤ 2 * 2 ^ b) {k l : Int} (hl : l ≤ b) (hk : b * k ≤ a * l - b) :
    (10 : ℚ) ^ k ≤ 2 ^ l := by
  have hlow' : (2 : ℚ) ^ b ≤ 10 ^ a := by exact_mod_cast hlow
  have hhigh' : (10 : ℚ) ^ a ≤ 2 * 2 ^ b := by exact_mod_cast hhigh
  -- compare the powers with exponent `b`, where the fraction is an integer
  refine le_of_pow_le_pow_left₀ hb (by positivity) ?_
  have hstep : ((10 : ℚ) ^ k) ^ b ≤ 10 ^ ((a : Int) * l - b) := by
    rw [← zpow_natCast, ← zpow_mul, mul_comm k]
    exact zpow_le_zpow_right₀ (by norm_num) hk
  refine hstep.trans ?_
  rw [zpow_sub₀ (by norm_num), div_le_iff₀ (by positivity), zpow_mul, zpow_natCast, zpow_natCast]
  rcases le_total 0 l with hpos | hneg
  · obtain ⟨j, rfl⟩ := Int.eq_ofNat_of_zero_le hpos
    have hj : j ≤ b := by omega
    simp only [zpow_natCast]
    calc ((10 : ℚ) ^ a) ^ j ≤ (2 * 2 ^ b) ^ j := by gcongr
      _ = (2 ^ j) ^ b * 2 ^ j := by
          rw [mul_pow, ← pow_mul, ← pow_mul, mul_comm b j, mul_comm]
      _ ≤ (2 ^ j) ^ b * 10 ^ b := by
          gcongr
          calc (2 : ℚ) ^ j ≤ 2 ^ b := pow_le_pow_right₀ (by norm_num) hj
            _ ≤ 10 ^ b := by gcongr; norm_num
  · obtain ⟨j, hj⟩ := Int.eq_ofNat_of_zero_le (Int.neg_nonneg_of_nonpos hneg)
    obtain rfl : l = -(j : Int) := by omega
    simp only [zpow_neg, zpow_natCast]
    calc (((10 : ℚ) ^ a) ^ j)⁻¹ ≤ ((2 ^ b) ^ j)⁻¹ := by gcongr
      _ = ((2 ^ j)⁻¹) ^ b := by rw [inv_pow, ← pow_mul, ← pow_mul, mul_comm]
      _ ≤ ((2 ^ j)⁻¹) ^ b * 10 ^ b := by
          refine le_mul_of_one_le_right (by positivity) ?_
          exact one_le_pow₀ (by norm_num)

private theorem atMost_iff (hd : 0 < d) (e : Int) :
    d * Nat.pow 10 e.toNat ≤ n * Nat.pow 10 (-e).toNat ↔ (10 : ℚ) ^ e ≤ n / d := by
  have hd' : (0 : ℚ) < d := by exact_mod_cast hd
  have hpow : (0 : ℚ) < ((Nat.pow 10 (-e).toNat : ℕ) : ℚ) := by exact_mod_cast ten_pow_pos _
  rw [← ten_pow_div, div_le_div_iff₀ hpow hd', mul_comm d]
  exact_mod_cast Iff.rfl

/-- **The power of ten** with which the search begins. -/
theorem zpow_floorLog10_le (hn : 0 < n) (hd : 0 < d) (hl : Int.log 2 ((n : ℚ) / d) ≤ 100000) :
    (10 : ℚ) ^ floorLog10 n d ≤ n / d ∧
      Int.log 2 ((n : ℚ) / d) * 30103 / 100000 - 1 ≤ floorLog10 n d := by
  have hq : 0 < (n : ℚ) / d := div_pos (by exact_mod_cast hn) (by exact_mod_cast hd)
  unfold floorLog10
  rw [floorLog2_eq_log hn hd]
  simp only [decide_eq_true_eq, atMost_iff hd]
  split
  · next h => exact ⟨h, by omega⟩
  split
  · next h => exact ⟨h, by omega⟩
  · have hguess : (10 : ℚ) ^ (Int.log 2 ((n : ℚ) / d) * 30103 / 100000 - 1) ≤
        2 ^ Int.log 2 ((n : ℚ) / d) := by
      refine ten_zpow_le_two_zpow (by decide) two_pow_le_ten_pow ten_pow_le_two_pow hl ?_
      push_cast
      omega
    refine ⟨hguess.trans ?_, le_refl _⟩
    have hlog := Int.zpow_log_le_self (b := 2) (by norm_num) hq
    rwa [Nat.cast_ofNat] at hlog

/-! ### Decimals on a grid -/

/-- Rounding moves a quotient by at most a half. -/
private theorem abs_roundDiv_sub_le (hd : 0 < d) : |(roundDiv n d : ℚ) - n / d| ≤ 1 / 2 := by
  have hd' : (0 : ℚ) < d := by exact_mod_cast hd
  have hdivmod : ((n / d * d + n % d : ℕ) : ℚ) = n := by
    exact_mod_cast Nat.div_add_mod' n d
  have hrem : ((n % d : ℕ) : ℚ) < d := by exact_mod_cast Nat.mod_lt n hd
  have hrem₀ : (0 : ℚ) ≤ ((n % d : ℕ) : ℚ) := by positivity
  push_cast at hdivmod
  have hq : (n : ℚ) / d = ((n / d : ℕ) : ℚ) + ((n % d : ℕ) : ℚ) / d := by
    field_simp
    linarith
  unfold roundDiv
  dsimp only
  rw [hq]
  split
  · next hup =>
    have hhalf : (d : ℚ) ≤ 2 * ((n % d : ℕ) : ℚ) := by
      have hle : d ≤ 2 * (n % d) := by omega
      exact_mod_cast hle
    have h₁ : 1 / 2 ≤ ((n % d : ℕ) : ℚ) / d := by
      rw [le_div_iff₀ hd']
      linarith
    have h₂ : ((n % d : ℕ) : ℚ) / d ≤ 1 := by
      rw [div_le_one hd']
      exact hrem.le
    rw [abs_le]
    push_cast
    constructor
    · linarith
    · linarith
  · next hdown =>
    have hhalf : 2 * ((n % d : ℕ) : ℚ) ≤ d := by
      have hle : 2 * (n % d) ≤ d := by omega
      exact_mod_cast hle
    have h₁ : ((n % d : ℕ) : ℚ) / d ≤ 1 / 2 := by
      rw [div_le_iff₀ hd']
      linarith
    have h₂ : 0 ≤ ((n % d : ℕ) : ℚ) / d := div_nonneg hrem₀ hd'.le
    rw [abs_le]
    constructor
    · linarith
    · linarith

/-- A quotient in units of a grid. -/
private theorem grid_div (n : Nat) (hd : 0 < d) (p : Int) :
    ((n * Nat.pow 10 (-p).toNat : ℕ) : ℚ) / ((d * Nat.pow 10 p.toNat : ℕ) : ℚ) * 10 ^ p = n / d := by
  have hd' : (d : ℚ) ≠ 0 := by exact_mod_cast hd.ne'
  have h₁ : ((Nat.pow 10 p.toNat : ℕ) : ℚ) ≠ 0 := by exact_mod_cast (ten_pow_pos _).ne'
  have h₂ : ((Nat.pow 10 (-p).toNat : ℕ) : ℚ) ≠ 0 := by exact_mod_cast (ten_pow_pos _).ne'
  rw [← ten_pow_div p, Nat.cast_mul, Nat.cast_mul]
  field_simp

/-- The nearer neighbour comes first, and it is at most half a unit away. -/
private theorem exists_gridNeighbours (n : Nat) (hd : 0 < d) (p : Int) :
    ∃ c y, gridNeighbours n d p = [⟨c, p⟩, y] ∧ |(c : ℚ) * 10 ^ p - n / d| ≤ 10 ^ p / 2 := by
  have hD : 0 < d * Nat.pow 10 p.toNat := Nat.mul_pos hd (ten_pow_pos _)
  have hpow : (0 : ℚ) < 10 ^ p := by positivity
  have hclose := abs_roundDiv_sub_le (n := n * Nat.pow 10 (-p).toNat) hD
  have hscaled := grid_div n hd p
  have hdistance : |(roundDiv (n * Nat.pow 10 (-p).toNat) (d * Nat.pow 10 p.toNat) : ℚ) * 10 ^ p -
      n / d| ≤ 10 ^ p / 2 := by
    rw [← hscaled, ← sub_mul, abs_mul, abs_of_pos hpow]
    nlinarith
  unfold gridNeighbours
  dsimp only
  split
  · next hdown =>
    rw [hdown] at hdistance
    exact ⟨_, _, rfl, hdistance⟩
  · next hup =>
    -- rounding gives the quotient or the next integer
    have heq : roundDiv (n * Nat.pow 10 (-p).toNat) (d * Nat.pow 10 p.toNat) =
        n * Nat.pow 10 (-p).toNat / (d * Nat.pow 10 p.toNat) + 1 := by
      unfold roundDiv at hup ⊢
      dsimp only at hup ⊢
      split
      · rfl
      · next h => exact absurd (if_neg h) hup
    rw [heq] at hdistance
    exact ⟨_, _, rfl, hdistance⟩

/-- No neighbour is more than a unit above. -/
private theorem le_of_mem_gridNeighbours (hd : 0 < d) {x : Decimal}
    (hx : x ∈ gridNeighbours n d p) :
    x.power = p ∧ (x.coefficient : ℚ) * 10 ^ p ≤ n / d + 10 ^ p := by
  have hD : 0 < d * Nat.pow 10 p.toNat := Nat.mul_pos hd (ten_pow_pos _)
  have hpow : (0 : ℚ) < 10 ^ p := by positivity
  have hmem : x = ⟨n * Nat.pow 10 (-p).toNat / (d * Nat.pow 10 p.toNat), p⟩ ∨
      x = ⟨n * Nat.pow 10 (-p).toNat / (d * Nat.pow 10 p.toNat) + 1, p⟩ := by
    unfold gridNeighbours at hx
    dsimp only at hx
    split at hx
    · simpa using hx
    · simpa [or_comm] using hx
  have hfloor : ((n * Nat.pow 10 (-p).toNat / (d * Nat.pow 10 p.toNat) : ℕ) : ℚ) * 10 ^ p ≤
      n / d := by
    rw [← grid_div n hd p]
    gcongr
    exact Nat.cast_div_le
  rcases hmem with rfl | rfl
  · exact ⟨rfl, by linarith⟩
  · refine ⟨rfl, ?_⟩
    push_cast
    linarith

/-! ### The search -/

private theorem exponent_lt (hfinite : m < infinite) : exponent m < 2047 := by
  unfold exponent
  unfold infinite at hfinite
  rw [Nat.shiftRight_eq_div_pow]
  omega

/-- The power of two below a finite number. -/
private theorem log_bounds (hm : 0 < m) (hfinite : m < infinite) :
    -1074 ≤ Int.log 2 (((ratio m).1 : ℚ) / (ratio m).2) ∧
      Int.log 2 (((ratio m).1 : ℚ) / (ratio m).2) < 1024 := by
  obtain ⟨hn, hd⟩ := ratio_pos hm
  have hq : 0 < ((ratio m).1 : ℚ) / (ratio m).2 :=
    div_pos (by exact_mod_cast hn) (by exact_mod_cast hd)
  have hE := exponent_lt hfinite
  have hone := one_le_exponent m
  have hpos : (0 : ℚ) < 2 ^ ((exponent m : Int) - 1075) := by positivity
  rw [ratio_div] at hq ⊢
  constructor
  · apply (Int.zpow_le_iff_le_log (b := 2) (by norm_num) hq).mp
    have hsig : (1 : ℚ) ≤ significand m := by exact_mod_cast significand_pos hm
    rw [Nat.cast_ofNat]
    calc (2 : ℚ) ^ (-1074 : Int) ≤ 2 ^ ((exponent m : Int) - 1075) :=
          zpow_le_zpow_right₀ (by norm_num) (by omega)
      _ ≤ significand m * 2 ^ ((exponent m : Int) - 1075) := le_mul_of_one_le_left hpos.le hsig
  · apply (Int.lt_zpow_iff_log_lt (b := 2) (by norm_num) hq).mp
    have hsig : (significand m : ℚ) < 2 ^ 53 := by exact_mod_cast significand_lt m
    rw [Nat.cast_ofNat]
    calc (significand m : ℚ) * 2 ^ ((exponent m : Int) - 1075)
        < 2 ^ 53 * 2 ^ ((exponent m : Int) - 1075) := by gcongr
      _ = 2 ^ ((exponent m : Int) - 1022) :=
          (two_zpow_sub_natCast _ _ (k := 53) (by omega)).symm
      _ ≤ 2 ^ (1024 : Int) := zpow_le_zpow_right₀ (by norm_num) (by omega)

/-- **Seventeen digits suffice**: the nearest decimal with that many reads back. -/
theorem exists_withDigits? (hm : 0 < m) (hfinite : m < infinite) :
    ∃ x, withDigits? m 17 = some x := by
  obtain ⟨hn, hd⟩ := ratio_pos hm
  have hlog := log_bounds hm hfinite
  obtain ⟨hten, -⟩ := zpow_floorLog10_le hn hd (by omega)
  obtain ⟨p, hp⟩ : ∃ p : Int, p = floorLog10 (ratio m).1 (ratio m).2 + 1 - (17 : ℕ) := ⟨_, rfl⟩
  have hfloor : floorLog10 (ratio m).1 (ratio m).2 = p + (16 : ℕ) := by
    push_cast at hp ⊢
    omega
  obtain ⟨c, y, hgrid, hclose⟩ := exists_gridNeighbours (ratio m).1 hd p
  rw [hfloor, zpow_add₀ (by norm_num), zpow_natCast, ratio_div] at hten
  rw [ratio_div] at hclose
  obtain ⟨u, hu⟩ : ∃ u : ℚ, u = 2 ^ ((exponent m : Int) - 1075) := ⟨_, rfl⟩
  have hpos : 0 < u := hu ▸ zpow_pos (by norm_num) _
  have hhalf : u = 2 * 2 ^ ((exponent m : Int) - 1076) := by
    rw [hu, two_zpow_sub_natCast _ ((exponent m : Int) - 1076) (k := 1) (by omega), pow_one]
  have hquarter : u = 4 * 2 ^ ((exponent m : Int) - 1077) := by
    rw [hu, two_zpow_sub_natCast _ ((exponent m : Int) - 1077) (k := 2) (by omega)]
    norm_num
  rw [← hu] at hten hclose
  have hsig : (significand m : ℚ) < 2 ^ 53 := by exact_mod_cast significand_lt m
  have hsig₀ : (1 : ℚ) ≤ significand m := by exact_mod_cast significand_pos hm
  -- the grid is finer than the numbers
  have hfine : (10 : ℚ) ^ p < u := by
    nlinarith
  have hnonzero : 0 < c := by
    by_contra hzero
    rw [Nat.eq_zero_of_not_pos hzero, abs_le] at hclose
    push_cast at hclose
    nlinarith
  have hread : readsBack m ⟨c, p⟩ = true := by
    have hvalue := scaled_div c p
    unfold readsBack Numeral.scaledMagnitude
    rw [beq_iff_eq]
    apply nearestMagnitude_eq_of_close (Nat.mul_pos hnonzero (ten_pow_pos _)) (ten_pow_pos _)
    · rw [hvalue, ← hu]
      linarith
    · intro hpower
      have hcast : (significand m : ℚ) = 2 ^ 52 := by exact_mod_cast hpower
      rw [hvalue, ← hu]
      rw [hcast] at hten
      linarith
  unfold withDigits?
  dsimp only
  rw [← hp, hgrid, List.find?_cons_of_pos hread]
  exact ⟨_, rfl⟩

/-- The first digit of a decimal that is not much above a number stands at a power of ten that is not
much above it either. -/
private theorem add_log_lt {c k : Nat} {q : ℚ} (hc : 0 < c) (hle : (c : ℚ) * 10 ^ p ≤ q + 10 ^ p)
    (hgrid : (10 : ℚ) ^ p ≤ q) (htop : Int.log 2 q < k) : p + Nat.log 10 c < k + 1 := by
  have hq : 0 < q := lt_of_lt_of_le (by positivity) hgrid
  have htop : q < 2 ^ k := by
    have hlt := (Int.lt_zpow_iff_log_lt (b := 2) (by norm_num) hq).mpr htop
    rwa [zpow_natCast, Nat.cast_ofNat] at hlt
  have hdigit : (10 : ℚ) ^ Nat.log 10 c ≤ c := by exact_mod_cast Nat.pow_log_le_self 10 hc.ne'
  have hpow : (0 : ℚ) < 2 ^ k := by positivity
  have hsmall : (10 : ℚ) ^ (p + Nat.log 10 c) < 10 ^ ((k : Int) + 1) := by
    calc (10 : ℚ) ^ (p + Nat.log 10 c) = 10 ^ Nat.log 10 c * 10 ^ p := by
          rw [zpow_add₀ (by norm_num), zpow_natCast, mul_comm]
      _ ≤ c * 10 ^ p := by gcongr
      _ ≤ q + 10 ^ p := hle
      _ < 2 ^ k * 10 := by linarith
      _ ≤ 10 ^ k * 10 := by
          gcongr
          norm_num
      _ = 10 ^ ((k : Int) + 1) := by rw [zpow_add₀ (by norm_num), zpow_natCast, zpow_one]
  exact (zpow_lt_zpow_iff_right₀ (by norm_num : (1 : ℚ) < 10)).mp hsmall

/-- **What the search finds** reads back, and the power of ten of its first digit is moderate. -/
theorem exists_shortest (hm : 0 < m) (hfinite : m < infinite) :
    Numeral.scaledMagnitude (shortest m).coefficient (shortest m).power = m ∧
      0 < (shortest m).coefficient ∧
      -10000 < (shortest m).power + Nat.log 10 (shortest m).coefficient ∧
      (shortest m).power + Nat.log 10 (shortest m).coefficient < 10000 := by
  obtain ⟨hn, hd⟩ := ratio_pos hm
  have hlog := log_bounds hm hfinite
  obtain ⟨hten, hguess⟩ := zpow_floorLog10_le hn hd (by omega)
  -- the search ends with seventeen digits at the latest
  obtain ⟨x, hx⟩ : ∃ x, (List.range 17).findSome? (fun i => withDigits? m (i + 1)) = some x := by
    obtain ⟨y, hy⟩ := exists_withDigits? hm hfinite
    rw [← Option.isSome_iff_exists, List.findSome?_isSome_iff]
    exact ⟨16, by decide, by rw [hy]; rfl⟩
  have hshortest : shortest m = x := by
    unfold shortest
    rw [hx, Option.getD_some]
  obtain ⟨i, hi, hfound⟩ := List.exists_of_findSome?_eq_some hx
  rw [List.mem_range] at hi
  unfold withDigits? at hfound
  dsimp only at hfound
  have hread : readsBack m x = true := List.find?_some hfound
  unfold readsBack at hread
  rw [beq_iff_eq] at hread
  obtain ⟨hpower, hle⟩ := le_of_mem_gridNeighbours hd (List.mem_of_find?_eq_some hfound)
  rw [hshortest]
  have hpos : 0 < x.coefficient := by
    by_contra hzero
    rw [Nat.eq_zero_of_not_pos hzero, scaledMagnitude_zero] at hread
    omega
  refine ⟨hread, hpos, ?_, ?_⟩
  · push_cast at hpower
    omega
  · have hgrid : (10 : ℚ) ^ x.power ≤ ((ratio m).1 : ℚ) / (ratio m).2 := by
      refine le_trans ?_ hten
      apply zpow_le_zpow_right₀ (by norm_num)
      push_cast at hpower
      omega
    rw [← hpower] at hle
    have hlt := add_log_lt (k := 1024) hpos hle hgrid hlog.2
    omega

end TraceIR.Binary64
