import Mathlib.Order.Basic
import TraceIR.Buffer
import TraceIR.Proofs.Ref

/-!
# Growth of the buffer

A trace sees its buffer through `Buffer.get?` alone, and no growth changes what is seen there:

* `Buffer.Covers` — the buffer has a slot for every reference of a range. A first array of the
  usual size lies between zero and the border; an oversized one reaches below zero and around to
  the highest references. The two cases behave differently when constants need room.
* `Buffer.Covers.growTop` and `Buffer.get?_growTop` — doubling upwards gives room for one more
  instruction and keeps every record.
* `Buffer.Covers.growBottom` — moving the contents up, in place or into a larger array, gives room
  for one more constant and keeps every record. What is copied lies within both arrays
  (`Buffer.Covers.exists_shift` and `Buffer.Covers.exists_double`).
-/

namespace TraceIR.Buffer

/-! ### Access by reference -/

private theorem place_injective (b : Buffer) {r s : Ref} (h : b.place r = b.place s) : r = s := by
  have hrs : r - b.bot = s - b.bot := UInt32.toNat_inj.mp h
  grind

theorem has_iff (b : Buffer) (r : Ref) : b.has r = true ↔ ∃ x, b.get? r = some x := by
  simp only [has, decide_eq_true_eq, get?]
  constructor
  · intro h
    exact ⟨b.slots[b.place r], Array.getElem?_eq_getElem h⟩
  · rintro ⟨x, hx⟩
    exact (Array.getElem?_eq_some_iff.mp hx).1

@[simp] theorem place_set (b : Buffer) (r s : Ref) (x : Record) :
    (b.set r x).place s = b.place s := rfl

@[simp] theorem has_set (b : Buffer) (r s : Ref) (x : Record) : (b.set r x).has s = b.has s := by
  rw [has, has, decide_eq_decide, place_set, set, Array.size_setIfInBounds]

theorem get?_set_self (b : Buffer) {r : Ref} (x : Record) (h : b.has r = true) :
    (b.set r x).get? r = some x := by
  rw [get?, place_set, set, Array.getElem?_setIfInBounds, if_pos rfl,
    if_pos (of_decide_eq_true h)]

theorem get?_set_of_ne (b : Buffer) {r s : Ref} (x : Record) (h : r ≠ s) :
    (b.set r x).get? s = b.get? s := by
  rw [get?, place_set, set, Array.getElem?_setIfInBounds,
    if_neg fun e => h (b.place_injective e), get?]

/-! ### Ranges that a buffer has room for -/

/-- The buffer has a slot for every reference from `low` to below `high`. -/
inductive Covers (b : Buffer) (low high : Ref) : Prop
  /-- The buffer begins below the range and ends above it. -/
  | near (hlow : b.bot.toNat ≤ low.toNat) (hhigh : high.toNat ≤ b.bot.toNat + b.slots.size)
      (hsize : b.bot.toNat + b.slots.size ≤ 0x100000)
  /-- The buffer begins above every reference of a trace and reaches around to beyond all of
  them. -/
  | far (hbot : 0x10000 ≤ b.bot.toNat) (htop : 0x100010000 ≤ b.bot.toNat + b.slots.size)
      (hsize : b.slots.size < 0x100000000)

section Covers

variable {b : Buffer} {low high : Ref}

private theorem place_of_le {r : Ref} (h : b.bot.toNat ≤ r.toNat) :
    b.place r = r.toNat - b.bot.toNat :=
  UInt32.toNat_sub_of_le _ _ (UInt32.le_iff_toNat_le.mpr h)

theorem toNat_size (h : b.slots.size < 0x100000000) : b.size.toNat = b.slots.size :=
  UInt32.toNat_ofNat_of_lt' h

private theorem toNat_top_of_near (h : b.bot.toNat + b.slots.size ≤ 0x100000) :
    b.top.toNat = b.bot.toNat + b.slots.size := by
  rw [top, UInt32.toNat_add, toNat_size (by omega)]
  omega

/-- A covered reference has a slot. -/
theorem Covers.has (h : b.Covers low high) (hhigh : high ≤ Ref.limit) {r : Ref} (hlow : low ≤ r)
    (hr : r < high) : b.has r = true := by
  rw [UInt32.le_iff_toNat_le] at hlow hhigh
  rw [UInt32.lt_iff_toNat_lt] at hr
  rw [Ref.toNat_limit] at hhigh
  rw [Buffer.has, decide_eq_true_eq]
  cases h with
  | near h₁ h₂ h₃ =>
    rw [place_of_le (by omega)]
    omega
  | far h₁ h₂ h₃ =>
    have hbot := b.bot.toNat_lt
    rw [place, UInt32.toNat_sub]
    omega

theorem Covers.set (h : b.Covers low high) (r : Ref) (x : Record) :
    (b.set r x).Covers low high := by
  have hsize : (b.set r x).slots.size = b.slots.size := Array.size_setIfInBounds
  cases h with
  | near h₁ h₂ h₃ => exact .near h₁ (hsize ▸ h₂) (hsize ▸ h₃)
  | far h₁ h₂ h₃ => exact .far h₁ (hsize ▸ h₂) (hsize ▸ h₃)

theorem Covers.foldl_set {α : Type} (f : α → Ref) (g : α → Record) (l : List α) :
    ∀ {b : Buffer}, b.Covers low high →
      (l.foldl (fun b a => b.set (f a) (g a)) b).Covers low high := by
  induction l with
  | nil => exact fun h => h
  | cons a l ih => exact fun h => ih (h.set (f a) (g a))

theorem Covers.clear (h : b.Covers low high) : b.clear.Covers low high := by
  have hsize : b.clear.slots.size = b.slots.size := Array.size_replicate
  cases h with
  | near h₁ h₂ h₃ => exact .near h₁ (hsize ▸ h₂) (hsize ▸ h₃)
  | far h₁ h₂ h₃ => exact .far h₁ (hsize ▸ h₂) (hsize ▸ h₃)

/-- A smaller range is covered too. -/
theorem Covers.mono (h : b.Covers low high) {low' high' : Ref} (hlow : low ≤ low')
    (hhigh : high' ≤ high) : b.Covers low' high' := by
  rw [UInt32.le_iff_toNat_le] at hlow hhigh
  cases h with
  | near h₁ h₂ h₃ => exact .near (Nat.le_trans h₁ hlow) (Nat.le_trans hhigh h₂) h₃
  | far h₁ h₂ h₃ => exact .far h₁ h₂ h₃

/-- A trace has no more live records than its buffer has slots. -/
theorem Covers.length_le (h : b.Covers low high) (hhigh : high ≤ Ref.limit) :
    high.toNat - low.toNat ≤ b.slots.size := by
  rw [UInt32.le_iff_toNat_le, Ref.toNat_limit] at hhigh
  cases h with
  | near h₁ h₂ h₃ => omega
  | far h₁ h₂ h₃ =>
    have := b.bot.toNat_lt
    omega

end Covers

/-! ### The first array -/

/-- The first array covers the three fixed constants and `BASE` if it has slots for them. Whether
it reaches below zero depends on its size alone. -/
theorem covers_allocate {n : Ref} (h : (allocate n).has Ref.true = true) :
    (allocate n).Covers Ref.true Ref.first := by
  have hn := n.toNat_lt
  have hquarter : (n / 4).toNat = n.toNat / 4 := UInt32.toNat_div n 4
  have hbot : (allocate n).bot.toNat = (2 ^ 32 - n.toNat / 4 + 0x8000) % 2 ^ 32 := by
    rw [allocate, UInt32.toNat_sub, hquarter, Ref.toNat_base]
  have hsize : (allocate n).slots.size = n.toNat := by simp [allocate]
  rw [has, decide_eq_true_eq, place, UInt32.toNat_sub, hbot, hsize, Ref.toNat_true] at h
  by_cases hfar : n.toNat / 4 ≤ 0x8000
  · refine .near ?_ ?_ ?_
    · rw [hbot, Ref.toNat_true]
      omega
    · rw [hbot, hsize, Ref.toNat_first]
      omega
    · rw [hbot, hsize]
      omega
  · refine .far ?_ ?_ ?_
    · rw [hbot]
      omega
    · rw [hbot, hsize]
      omega
    · rw [hsize]
      omega

/-! ### Room above -/

section GrowTop

variable {b : Buffer} {low high : Ref}

/-- The buffer ends above the range. -/
theorem Covers.le_top (h : b.Covers low high) (hhigh : high ≤ Ref.limit) : high ≤ b.top := by
  rw [UInt32.le_iff_toNat_le, Ref.toNat_limit] at hhigh
  rw [UInt32.le_iff_toNat_le]
  cases h with
  | near h₁ h₂ h₃ =>
    rw [toNat_top_of_near h₃]
    exact h₂
  | far h₁ h₂ h₃ =>
    have hbot := b.bot.toNat_lt
    rw [top, UInt32.toNat_add, toNat_size h₃]
    omega

/-- A buffer that reaches around never runs out of room above. -/
theorem Covers.near_of_top_le (h : b.Covers low high) (hhigh : high ≤ Ref.limit)
    (htop : b.top ≤ high) :
    b.bot.toNat ≤ low.toNat ∧ high.toNat = b.bot.toNat + b.slots.size := by
  rw [UInt32.le_iff_toNat_le] at hhigh htop
  rw [Ref.toNat_limit] at hhigh
  cases h with
  | near h₁ h₂ h₃ =>
    rw [toNat_top_of_near h₃] at htop
    exact ⟨h₁, by omega⟩
  | far h₁ h₂ h₃ =>
    have hbot := b.bot.toNat_lt
    rw [top, UInt32.toNat_add, toNat_size h₃] at htop
    omega

/-- A buffer that ends above the range has room for one more instruction. -/
theorem Covers.succ_of_lt_top (h : b.Covers low high) (hhigh : high < Ref.limit)
    (htop : high < b.top) : b.Covers low (high + 1) := by
  cases h with
  | near h₁ h₂ h₃ =>
    rw [UInt32.lt_iff_toNat_lt, toNat_top_of_near h₃] at htop
    exact .near h₁ (by rw [Ref.toNat_succ hhigh]; omega) h₃
  | far h₁ h₂ h₃ => exact .far h₁ h₂ h₃

theorem growTop_of_size_ne {minSize : Int} (h : b.size ≠ 0) :
    b.growTop minSize = { b with slots := b.slots ++ Array.replicate b.slots.size .blank } :=
  if_neg h

theorem get?_growTop {minSize : Int} (h : b.size ≠ 0) {r : Ref} (hr : b.has r = true) :
    (b.growTop minSize).get? r = b.get? r := by
  rw [growTop_of_size_ne h, get?, get?, Array.getElem?_append]
  exact if_pos (of_decide_eq_true hr)

/-- **Doubling upwards.** A full buffer doubles, which is room for one more instruction. -/
theorem Covers.growTop (h : b.Covers low high) (hlow : low < high) (hhigh : high < Ref.limit)
    (htop : b.top ≤ high) (minSize : Int) :
    b.size ≠ 0 ∧ (b.growTop minSize).Covers low (high + 1) := by
  obtain ⟨hbot, hfull⟩ := h.near_of_top_le (UInt32.le_of_lt hhigh) htop
  rw [UInt32.lt_iff_toNat_lt] at hlow
  have hlimit : high.toNat < 0xffff := UInt32.lt_iff_toNat_lt.mp hhigh
  have hne : b.size ≠ 0 := by
    intro h0
    have : b.size.toNat = 0 := by rw [h0]; rfl
    rw [toNat_size (by omega)] at this
    omega
  refine ⟨hne, ?_⟩
  rw [growTop_of_size_ne hne]
  refine .near hbot ?_ ?_ <;> simp only [Array.size_append, Array.size_replicate]
  · rw [Ref.toNat_succ hhigh]
    omega
  · omega

end GrowTop

/-! ### Room below -/

section GrowBottom

variable {b b' : Buffer} {low high : Ref}

/-- What is copied is what the bounds allow. -/
theorem copyUp_cases {source target slots : Array Record} {distance live : Nat}
    (h : copyUp source target distance live = .ok slots) :
    distance ≤ target.size ∧ live ≤ source.size ∧
      slots = target.extract 0 distance ++
        (source.extract 0 live).extract 0 (target.size - distance) ++
        target.extract (distance + live) target.size := by
  rw [copyUp] at h
  split at h
  · next hbounds => exact ⟨hbounds.1, hbounds.2, (Except.ok.inj h).symm⟩
  · cases h

/-- Copying writes into the slots that are there. -/
theorem size_of_copyUp {source target slots : Array Record} {distance live : Nat}
    (h : copyUp source target distance live = .ok slots) : slots.size = target.size := by
  obtain ⟨hdistance, hlive, rfl⟩ := copyUp_cases h
  simp only [Array.size_append, Array.size_extract]
  omega

private theorem getElem?_of_copyUp {source target slots : Array Record} {distance live i : Nat}
    (h : copyUp source target distance live = .ok slots) (hfit : distance + live ≤ target.size)
    (hi : i < live) : slots[distance + i]? = source[i]? := by
  obtain ⟨hdistance, hlive, rfl⟩ := copyUp_cases h
  have hfront : (target.extract 0 distance).size = distance := by
    rw [Array.size_extract]
    omega
  have hall : (source.extract 0 live).extract 0 (target.size - distance) =
      source.extract 0 live := by
    refine Array.extract_eq_self_of_le ?_
    rw [Array.size_extract]
    omega
  rw [hall, Array.getElem?_append_left, Array.getElem?_append_right, hfront,
    Nat.add_sub_cancel_left, Array.getElem?_extract]
  · simp only [Nat.sub_zero, Nat.zero_add]
    exact if_pos (by omega)
  · omega
  · rw [Array.size_append, hfront, Array.size_extract]
    omega

/-- Contents that move up go with the bottom of the buffer. -/
theorem moveUp_eq_ok {target : Array Record} {d : Ref} (h : b.moveUp target d high = .ok b') :
    copyUp b.slots target d.toNat (high - b.bot).toNat = .ok b'.slots ∧ b'.bot = b.bot - d := by
  rw [moveUp] at h
  cases hcopy : copyUp b.slots target d.toNat (high - b.bot).toNat with
  | error e =>
    rw [hcopy] at h
    cases h
  | ok slots =>
    rw [hcopy] at h
    cases h
    exact ⟨rfl, rfl⟩

private theorem exists_moveUp {target : Array Record} {d : Ref} (hd : d.toNat ≤ target.size)
    (hlive : (high - b.bot).toNat ≤ b.slots.size) : ∃ b', b.moveUp target d high = .ok b' := by
  rw [moveUp, copyUp, if_pos ⟨hd, hlive⟩]
  exact ⟨_, rfl⟩

/-- A buffer that begins below the range has room for one more constant. -/
theorem Covers.pred_of_bot_lt (h : b.Covers low high) (hbot : b.bot < low) :
    b.Covers (low - 1) high := by
  rw [UInt32.lt_iff_toNat_lt] at hbot
  cases h with
  | near h₁ h₂ h₃ => exact .near (by rw [Ref.toNat_pred (by omega)]; omega) h₂ h₃
  | far h₁ h₂ h₃ => exact .far h₁ h₂ h₃

/-- The stride of a doubling buffer is at most half of it. -/
theorem toNat_stride_le (n : Ref) : (stride n).toNat ≤ n.toNat / 2 := by
  rw [stride]
  split
  · next h =>
    have hn : 256 ≤ n.toNat := UInt32.le_iff_toNat_le.mp h
    have : (128 : Ref).toNat = 128 := rfl
    omega
  · rw [UInt32.toNat_div]
    exact Nat.le_refl _

theorem stride_pos {n : Ref} (h : 2 ≤ n.toNat) : 0 < (stride n).toNat := by
  rw [stride]
  split
  · decide
  · rw [UInt32.toNat_div]
    exact Nat.div_pos h (by decide)

/-- Whether more than half of the array lies free above the range, in numbers that do not wrap
around. -/
theorem half_free_iff (hnear : b.bot.toNat + b.slots.size ≤ 0x100000)
    (hhigh : high ≤ Ref.limit) :
    high + b.size / 2 < b.top ↔
      high.toNat + b.slots.size / 2 < b.bot.toNat + b.slots.size := by
  rw [UInt32.le_iff_toNat_le, Ref.toNat_limit] at hhigh
  have hsize : b.size.toNat = b.slots.size := toNat_size (by omega)
  have hhalf : (b.size / 2).toNat = b.slots.size / 2 := hsize ▸ UInt32.toNat_div b.size 2
  rw [UInt32.lt_iff_toNat_lt, toNat_top_of_near hnear, UInt32.toNat_add, hhalf]
  omega

/-- How far the contents move up to make room below. -/
def lift (b : Buffer) (high : Ref) : Ref :=
  if high + b.size / 2 < b.top then b.size / 4 else stride b.size

/-- **Growing downwards.** Growth succeeds only for a buffer whose lowest slot is taken. It then
moves every record up by some distance: inside the array, or into one of twice the size. -/
theorem growBottom_cases (h : b.growBottom low high = .ok b') :
    low = b.bot ∧
      ((high + b.size / 2 < b.top ∧ b.size / 4 < b.bot ∧
          b.moveUp b.slots (b.size / 4) high = .ok b') ∨
        (¬ high + b.size / 2 < b.top ∧ stride b.size < b.bot ∧
          b.moveUp (Array.replicate (2 * b.size).toNat .blank) (stride b.size) high = .ok b')) := by
  simp only [growBottom] at h
  split at h
  · cases h
  · next hbad =>
    refine ⟨not_not.mp fun hne => hbad (.inr hne), ?_⟩
    split at h
    · next hfree =>
      split at h
      · cases h
      · next hdist => exact .inl ⟨hfree, UInt32.not_le.mp hdist, h⟩
    · next hfree =>
      split at h
      · cases h
      · next hdist => exact .inr ⟨hfree, UInt32.not_le.mp hdist, h⟩

/-- A buffer that covers something is not empty. -/
private theorem Covers.size_ne (h : b.Covers low high) (hlow : low < high)
    (hhigh : high ≤ Ref.limit) :
    b.size ≠ 0 := by
  intro h0
  have hlength := h.length_le hhigh
  rw [UInt32.lt_iff_toNat_lt] at hlow
  have hsize : b.slots.size < 0x100000000 := by
    cases h with
    | near h₁ h₂ h₃ => omega
    | far h₁ h₂ h₃ => exact h₃
  have hword := toNat_size hsize
  rw [h0, UInt32.toNat_zero] at hword
  omega

/-- A buffer that grew downwards begins lower. -/
theorem bot_of_growBottom (h : b.growBottom low high = .ok b') :
    low = b.bot ∧ b.lift high < b.bot ∧ b'.bot = b.bot - b.lift high := by
  obtain ⟨hlow, ⟨hfree, hlt, hmove⟩ | ⟨hfull, hlt, hmove⟩⟩ := growBottom_cases h
  · rw [lift, if_pos hfree]
    exact ⟨hlow, hlt, (moveUp_eq_ok hmove).2⟩
  · rw [lift, if_neg hfull]
    exact ⟨hlow, hlt, (moveUp_eq_ok hmove).2⟩

section Bounds

variable (h : b.Covers b.bot high) (hlow : b.bot ≤ Ref.true) (hbase : Ref.base < high)
include h hlow hbase

/-- A buffer that begins with the lowest constant does not reach around. -/
private theorem Covers.near_of_bot :
    high.toNat ≤ b.bot.toNat + b.slots.size ∧ b.bot.toNat + b.slots.size ≤ 0x100000 ∧
      b.size.toNat = b.slots.size ∧ (2 * b.size).toNat = 2 * b.slots.size ∧
      (high - b.bot).toNat = high.toNat - b.bot.toNat := by
  rw [UInt32.le_iff_toNat_le, Ref.toNat_true] at hlow
  rw [UInt32.lt_iff_toNat_lt, Ref.toNat_base] at hbase
  cases h with
  | far h₁ _ _ => omega
  | near _ h₂ h₃ =>
    have hsize : b.size.toNat = b.slots.size := toNat_size (by omega)
    have htwo : (2 : Ref).toNat = 2 := rfl
    refine ⟨h₂, h₃, hsize, ?_, UInt32.toNat_sub_of_le _ _ (UInt32.le_iff_toNat_le.mpr (by omega))⟩
    rw [UInt32.toNat_mul, htwo, hsize]
    omega

/-- **Slices stay within their arrays** when the contents move inside the array. -/
theorem Covers.exists_shift : ∃ b', b.moveUp b.slots (b.size / 4) high = .ok b' := by
  obtain ⟨hend, -, hsize, -, hlive⟩ := h.near_of_bot hlow hbase
  have hquarter : (b.size / 4).toNat = b.size.toNat / 4 := UInt32.toNat_div _ 4
  exact exists_moveUp (by omega) (by omega)

/-- **Slices stay within their arrays** when the contents move into one of twice the size. -/
theorem Covers.exists_double :
    ∃ b', b.moveUp (Array.replicate (2 * b.size).toNat .blank) (stride b.size) high = .ok b' := by
  obtain ⟨hend, -, hsize, hdouble, hlive⟩ := h.near_of_bot hlow hbase
  have hstride := toNat_stride_le b.size
  refine exists_moveUp ?_ (by omega)
  rw [Array.size_replicate]
  omega

theorem Covers.exists_growBottom (hhigh : high ≤ Ref.limit) (hlift : b.lift high < b.bot) :
    ∃ b', b.growBottom b.bot high = .ok b' := by
  have hne := h.size_ne (UInt32.lt_of_le_of_lt hlow (UInt32.lt_trans (by decide) hbase)) hhigh
  have hgood : ¬ (b.size = 0 ∨ b.bot ≠ b.bot) := by
    rintro (h0 | hne')
    · exact hne h0
    · exact hne' rfl
  rw [lift] at hlift
  simp only [growBottom, if_neg hgood]
  by_cases hfree : high + b.size / 2 < b.top
  · rw [if_pos hfree] at hlift ⊢
    rw [if_neg (UInt32.not_le.mpr hlift)]
    exact h.exists_shift hlow hbase
  · rw [if_neg hfree] at hlift ⊢
    rw [if_neg (UInt32.not_le.mpr hlift)]
    exact h.exists_double hlow hbase

end Bounds

/-- If the contents move up by `d` slots and the buffer begins `d` lower, every record is where it
was. -/
private theorem get?_moveUp {target : Array Record} {d r : Ref}
    (hmove : b.moveUp target d high = .ok b') (hd : d < b.bot)
    (hfit : d.toNat + (high - b.bot).toNat ≤ target.size) (hlow : b.bot ≤ r) (hr : r < high) :
    b'.get? r = b.get? r := by
  obtain ⟨hcopy, hbot'⟩ := moveUp_eq_ok hmove
  have hbot : b'.bot.toNat = b.bot.toNat - d.toNat := by
    rw [hbot', UInt32.toNat_sub_of_le _ _ (UInt32.le_of_lt hd)]
  have hlive : (high - b.bot).toNat = high.toNat - b.bot.toNat :=
    UInt32.toNat_sub_of_le _ _ (UInt32.le_trans hlow (UInt32.le_of_lt hr))
  rw [UInt32.lt_iff_toNat_lt] at hd hr
  rw [UInt32.le_iff_toNat_le] at hlow
  have hplace : r.toNat - (b.bot.toNat - d.toNat) = d.toNat + (r.toNat - b.bot.toNat) := by omega
  rw [get?, get?, place_of_le (by omega), place_of_le hlow, hbot, hplace]
  exact getElem?_of_copyUp hcopy hfit (by omega)

/-- A buffer that begins `d` lower has room for one more constant. -/
private theorem covers_moveUp {target : Array Record} {d : Ref}
    (hmove : b.moveUp target d high = .ok b') (hd : d < b.bot) (hpos : 0 < d.toNat)
    (hhigh : d.toNat + high.toNat ≤ b.bot.toNat + target.size)
    (hsize : b.bot.toNat + target.size ≤ 0x100000) : b'.Covers (b.bot - 1) high := by
  obtain ⟨hcopy, hbot'⟩ := moveUp_eq_ok hmove
  have hbot : b'.bot.toNat = b.bot.toNat - d.toNat := by
    rw [hbot', UInt32.toNat_sub_of_le _ _ (UInt32.le_of_lt hd)]
  have hslots := size_of_copyUp hcopy
  rw [UInt32.lt_iff_toNat_lt] at hd
  refine .near ?_ (by omega) (by omega)
  rw [Ref.toNat_pred (by omega)]
  omega

/-- **Room for one more constant.** After growing downwards the range may begin one lower, and
every record of the range is where it was. -/
theorem Covers.growBottom (h : b.Covers low high) (hlow : low ≤ Ref.true) (hbase : Ref.base < high)
    (hhigh : high ≤ Ref.limit) (hgrow : b.growBottom low high = .ok b') :
    b'.Covers (low - 1) high ∧ ∀ r, low ≤ r → r < high → b'.get? r = b.get? r := by
  obtain ⟨rfl, hcases⟩ := growBottom_cases hgrow
  obtain ⟨hend, hnear, hsize, hdouble, hlive⟩ := h.near_of_bot hlow hbase
  have hquarter : (b.size / 4).toNat = b.size.toNat / 4 := UInt32.toNat_div _ 4
  have hlimit : high.toNat ≤ 0xffff := UInt32.le_iff_toNat_le.mp hhigh
  rw [UInt32.le_iff_toNat_le, Ref.toNat_true] at hlow
  rw [UInt32.lt_iff_toNat_lt, Ref.toNat_base] at hbase
  rw [half_free_iff hnear hhigh] at hcases
  rcases hcases with ⟨hroom, hd, hmove⟩ | ⟨hroom, hd, hmove⟩
  · -- half of the array is free: the records move up by a quarter of it
    refine ⟨covers_moveUp hmove hd (by omega) (by omega) (by omega), fun r hr hr' => ?_⟩
    exact get?_moveUp hmove hd (by omega) hr hr'
  · -- otherwise into an array of twice the size
    have hstride := toNat_stride_le b.size
    have hpos := stride_pos (n := b.size) (by omega)
    have hslots : (Array.replicate (2 * b.size).toNat Record.blank).size = 2 * b.slots.size := by
      rw [Array.size_replicate, hdouble]
    refine ⟨covers_moveUp hmove hd hpos (by omega) (by omega), fun r hr hr' => ?_⟩
    exact get?_moveUp hmove hd (by omega) hr hr'

end GrowBottom

end TraceIR.Buffer
