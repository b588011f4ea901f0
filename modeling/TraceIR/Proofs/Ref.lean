import TraceIR.Ref

/-!
# References as numbers

References wrap around at 32 bits, but the ones a trace hands out lie between one and
`Ref.limit`, so stepping up or down from one of them is ordinary addition and subtraction
(`Ref.toNat_succ`, `Ref.toNat_pred`). Bounds are moved to natural numbers here, once.
-/

namespace TraceIR.Ref

attribute [grind =] none bias nil false true base first limit

@[simp] theorem toNat_none : none.toNat = 0 := rfl

@[simp] theorem toNat_bias : bias.toNat = 0x8000 := rfl

@[simp] theorem toNat_base : base.toNat = 0x8000 := rfl

@[simp] theorem toNat_first : first.toNat = 0x8001 := rfl

@[simp] theorem toNat_true : true.toNat = 0x7ffd := rfl

@[simp] theorem toNat_limit : limit.toNat = 0xffff := rfl

theorem toNat_succ {r : Ref} (h : r < limit) : (r + 1).toNat = r.toNat + 1 := by
  have hr : r.toNat < 0xffff := UInt32.lt_iff_toNat_lt.mp h
  rw [UInt32.toNat_add, UInt32.toNat_one]
  omega

theorem toNat_pred {r : Ref} (h : 0 < r.toNat) : (r - 1).toNat = r.toNat - 1 := by
  have hr : (1 : Ref) ≤ r := UInt32.le_iff_toNat_le.mpr h
  rw [UInt32.toNat_sub_of_le _ _ hr, UInt32.toNat_one]

theorem lt_succ {r : Ref} (h : r < limit) : r < r + 1 := by
  rw [UInt32.lt_iff_toNat_lt, toNat_succ h]
  omega

theorem succ_le_iff {r q : Ref} (h : r < limit) : r + 1 ≤ q ↔ r < q := by
  rw [UInt32.le_iff_toNat_le, UInt32.lt_iff_toNat_lt, toNat_succ h]
  omega

/-- What is not below the successor is the reference itself. -/
theorem eq_or_succ_le {r q : Ref} (h : r < limit) (hle : r ≤ q) : q = r ∨ r + 1 ≤ q := by
  rw [succ_le_iff h]
  by_cases hqr : q = r
  · exact .inl hqr
  · exact .inr (UInt32.lt_of_le_of_ne hle (Ne.symm hqr))

theorem isConst_eq_false_iff (r : Ref) : isConst r = Bool.false ↔ 0x8000 ≤ r.toNat := by
  rw [← Bool.not_eq_true, isConst_iff]
  omega

end TraceIR.Ref
