import TraceIR.Pool

/-!
# Slots of the pool

The slots lie in a row of chunks. A new pattern goes behind all others, so what was handed out stays
where it is. This file says so twice: for any row of chunks, and for rows without a gap, in which the
number of a slot is also the position of its pattern in order of first use.

* `Pool.Holds` — the pattern lies in the slot. It does so from the moment it is asked for
  (`holds_find`) and for ever after (`Holds.find`), and a slot holds one pattern only.
* `Pool.Packed` — every chunk but the last is full, and the patterns were counted. The empty pool is
  packed, and looking for a pattern keeps that (`Packed.find`).
* `Packed.find_fst`, `Packed.toList_find` — what is answered, and what the pool then lists.
  `Packed.chunks_eq` — how many chunks that takes.
-/

namespace TraceIR.Pool

variable {c : Chunk} {row : List Chunk} {x y : Binary64} {i : Nat}

/-! ### Chunks -/

namespace Chunk

private theorem toList_push (h : c.used < chunkSize) : (c.push x h).toList = c.toList ++ [x] := by
  have hlength : c.used < (c.slots.toList.set c.used x).length := by
    rw [List.length_set, Vector.length_toList]
    exact h
  rw [toList, push, Vector.toList_set, List.take_succ_eq_append_getElem hlength, List.take_set,
    List.getElem_set_self]
  -- the slot that is written is not among those in use
  rw [List.set_eq_of_length_le (by rw [List.length_take]; omega), toList]

private theorem length_toList (c : Chunk) : c.toList.length = min c.used chunkSize := by
  rw [toList, List.length_take, Vector.length_toList]

private theorem length_toList_le (c : Chunk) : c.toList.length ≤ chunkSize := by
  rw [length_toList]
  exact Nat.min_le_right ..

/-- A pattern that is found lies there. -/
private theorem getElem?_of_indexOf? (h : c.indexOf? x = some i) :
    i < chunkSize ∧ c.toList[i]? = some x := by
  obtain ⟨hlt, hx, -⟩ := List.findIdx?_eq_some_iff_getElem.mp h
  refine ⟨Nat.lt_of_lt_of_le hlt c.length_toList_le, ?_⟩
  rw [List.getElem?_eq_getElem hlt, beq_iff_eq.mp hx]

/-- A new pattern does not hide the others. -/
private theorem indexOf?_push (hroom : c.used < chunkSize) (y : Binary64) :
    (c.push y hroom).indexOf? x = (c.indexOf? x).or (if y = x then some c.used else none) := by
  have hlength : c.toList.length = c.used := by rw [length_toList, Nat.min_eq_left (Nat.le_of_lt hroom)]
  rw [indexOf?, toList_push, List.findIdx?_append, List.findIdx?_singleton, hlength, indexOf?]
  by_cases hyx : y = x
  · rw [if_pos (beq_iff_eq.mpr hyx), if_pos hyx, Option.map_some, Nat.zero_add]
  · rw [if_neg (mt beq_iff_eq.mp hyx), if_neg hyx, Option.map_none]

end Chunk

/-! ### Rows of chunks -/

/-- What is found in a row can be read there. -/
private theorem getIn?_of_indexIn? (h : indexIn? x row = some i) : getIn? row i = some x := by
  induction row generalizing i with
  | nil => cases h
  | cons c row ih =>
    rw [indexIn?] at h
    cases hc : c.indexOf? x with
    | some j =>
      rw [hc] at h
      cases h
      obtain ⟨hlt, hx⟩ := Chunk.getElem?_of_indexOf? hc
      rw [getIn?, if_pos hlt, hx]
    | none =>
      rw [hc] at h
      obtain ⟨j, hj, rfl⟩ := Option.map_eq_some_iff.mp h
      rw [getIn?, if_neg (Nat.not_lt.mpr (Nat.le_add_right ..)), Nat.add_sub_cancel_left]
      exact ih hj

/-- A new pattern is found at the place that it was given. -/
private theorem indexIn?_pushOnto_self (h : indexIn? x row = none) :
    indexIn? x (pushOnto x row).2 = some (pushOnto x row).1 := by
  induction row with
  | nil =>
    rw [pushOnto, indexIn?, Chunk.indexOf?_push, if_pos rfl]
    rfl
  | cons c row ih =>
    rw [indexIn?] at h
    cases hc : c.indexOf? x with
    | some i =>
      rw [hc] at h
      cases h
    | none =>
      rw [hc, Option.map_eq_none_iff] at h
      rw [pushOnto]
      split
      · rw [indexIn?, Chunk.indexOf?_push, hc, if_pos rfl]
        rfl
      · rw [indexIn?, hc, ih h]
        rfl

/-- The places of other patterns do not change. -/
private theorem indexIn?_pushOnto (h : indexIn? x row = some i) (y : Binary64) :
    indexIn? x (pushOnto y row).2 = some i := by
  induction row generalizing i with
  | nil => cases h
  | cons c row ih =>
    rw [indexIn?] at h
    rw [pushOnto]
    split
    · next hlast =>
      -- there is no chunk behind this one in which the pattern could lie
      rw [hlast.1] at h
      rw [indexIn?, Chunk.indexOf?_push]
      cases hc : c.indexOf? x with
      | some j =>
        rw [hc] at h
        exact h
      | none =>
        rw [hc] at h
        cases h
    · rw [indexIn?]
      cases hc : c.indexOf? x with
      | some j =>
        rw [hc] at h
        exact h
      | none =>
        rw [hc] at h
        obtain ⟨j, hj, rfl⟩ := Option.map_eq_some_iff.mp h
        rw [ih hj, Option.map_some]

/-- What can be read at a place does not change. -/
private theorem getIn?_pushOnto (h : getIn? row i = some x) (y : Binary64) :
    getIn? (pushOnto y row).2 i = some x := by
  induction row generalizing i with
  | nil => cases h
  | cons c row ih =>
    rw [getIn?] at h
    rw [pushOnto]
    split
    · next hlast =>
      rw [hlast.1] at h
      rw [getIn?]
      by_cases hi : i < chunkSize
      · rw [if_pos hi] at h ⊢
        rw [Chunk.toList_push, List.getElem?_append_left (List.getElem?_eq_some_iff.mp h).1, h]
      · rw [if_neg hi] at h
        cases h
    · rw [getIn?]
      by_cases hi : i < chunkSize
      · rw [if_pos hi] at h ⊢
        exact h
      · rw [if_neg hi] at h ⊢
        exact ih h

/-! ### Slots -/

variable {p : Pool} {s : Nat}

/-- The number lies in the slot. -/
def Holds (p : Pool) (x : Binary64) (s : Nat) : Prop :=
  ∃ i, indexIn? x p.row = some i ∧ s = p.retired + i

/-- A number that was asked for has its slot. -/
theorem holds_find (p : Pool) (x : Binary64) : (p.find x).2.Holds x (p.find x).1 := by
  rw [find]
  cases hi : indexIn? x p.row with
  | some i => exact ⟨i, hi, rfl⟩
  | none => exact ⟨_, indexIn?_pushOnto_self hi, rfl⟩

/-- Other numbers leave the slot. -/
theorem Holds.find (h : p.Holds x s) (y : Binary64) : (p.find y).2.Holds x s := by
  obtain ⟨i, hi, rfl⟩ := h
  rw [Pool.find]
  cases indexIn? y p.row with
  | some j => exact ⟨i, hi, rfl⟩
  | none => exact ⟨i, indexIn?_pushOnto hi y, rfl⟩

/-- A number that has its slot is found there, and the pool stays as it is. -/
theorem Holds.find_self (h : p.Holds x s) : p.find x = (s, p) := by
  obtain ⟨i, hi, rfl⟩ := h
  rw [Pool.find, hi]

theorem Holds.slot_eq {s' : Nat} (h : p.Holds x s) (h' : p.Holds x s') : s = s' := by
  obtain ⟨i, hi, rfl⟩ := h
  obtain ⟨j, hj, rfl⟩ := h'
  rw [Option.some.inj (hi.symm.trans hj)]

/-- A slot is read back. -/
theorem Holds.get? (h : p.Holds x s) : p.get? s = some x := by
  obtain ⟨i, hi, rfl⟩ := h
  rw [Pool.get?, if_neg (Nat.not_lt.mpr (Nat.le_add_right _ _)), Nat.add_sub_cancel_left]
  exact getIn?_of_indexIn? hi

/-- One slot holds one number. -/
theorem Holds.value_eq (h : p.Holds x s) (h' : p.Holds y s) : x = y :=
  Option.some.inj (h.get?.symm.trans h'.get?)

/-- What can be read from a slot does not change. -/
theorem get?_find (h : p.get? s = some x) (y : Binary64) : (p.find y).2.get? s = some x := by
  rw [Pool.find]
  cases indexIn? y p.row with
  | some j => exact h
  | none =>
    rw [get?] at h ⊢
    by_cases hs : s < p.retired
    · rw [if_pos hs] at h
      cases h
    · rw [if_neg hs] at h ⊢
      exact getIn?_pushOnto h y

/-! ### Rows without a gap -/

/-- Every chunk but the last is full, and none is empty. -/
inductive IsPacked : List Chunk → Prop
  | nil : IsPacked []
  | last {c : Chunk} (hpos : 0 < c.used) (hle : c.used ≤ chunkSize) : IsPacked [c]
  | cons {c : Chunk} {row : List Chunk} (hfull : c.used = chunkSize) (hne : row ≠ [])
      (hrow : IsPacked row) : IsPacked (c :: row)

namespace IsPacked

/-- Places are counted through. -/
private theorem indexIn?_eq (h : IsPacked row) (x : Binary64) :
    indexIn? x row = (row.flatMap Chunk.toList).findIdx? (· == x) := by
  induction h with
  | nil => rfl
  | last hpos hle =>
    rename_i c
    rw [indexIn?, List.flatMap_singleton]
    show _ = c.indexOf? x
    cases c.indexOf? x with
    | some i => rfl
    | none => rfl
  | cons hfull hne hrow ih =>
    rename_i c row
    have hlength : c.toList.length = chunkSize := by
      rw [Chunk.length_toList, hfull, Nat.min_self]
    rw [indexIn?, List.flatMap_cons, List.findIdx?_append, ih, hlength]
    show _ = (c.indexOf? x).or _
    cases c.indexOf? x with
    | some i => rfl
    | none =>
      rw [Option.none_or]
      exact congrArg (Option.map · _) (funext fun i => Nat.add_comm _ i)

/-- A new pattern goes behind all others. -/
private theorem pushOnto_eq (h : IsPacked row) (x : Binary64) :
    IsPacked (pushOnto x row).2 ∧ (pushOnto x row).1 = (row.flatMap Chunk.toList).length ∧
      (pushOnto x row).2.flatMap Chunk.toList = row.flatMap Chunk.toList ++ [x] := by
  induction h with
  | nil => exact ⟨.last (Nat.succ_pos _) (Nat.succ_le_of_lt (by decide)), rfl, rfl⟩
  | last hpos hle =>
    rename_i c
    have hlength : c.toList.length = c.used := by
      rw [Chunk.length_toList, Nat.min_eq_left hle]
    rw [pushOnto]
    split
    · next hroom =>
      refine ⟨.last (Nat.succ_pos _) hroom.2, ?_, ?_⟩
      · rw [List.flatMap_singleton, hlength]
      · rw [List.flatMap_singleton, List.flatMap_singleton, Chunk.toList_push]
    · next hfull =>
      -- the chunk is full, and a new one begins behind it
      have hused : c.used = chunkSize :=
        Nat.le_antisymm hle (Nat.not_lt.mp fun hlt => hfull ⟨rfl, hlt⟩)
      refine ⟨.cons hused (List.cons_ne_nil _ _)
        (.last (Nat.succ_pos _) (Nat.succ_le_of_lt (by decide))), ?_, ?_⟩
      · rw [List.flatMap_singleton, hlength, hused]
        rfl
      · rw [List.flatMap_cons, List.flatMap_singleton]
        rfl
  | cons hfull hne hrow ih =>
    rename_i c row
    obtain ⟨hpacked, hfst, hsnd⟩ := ih
    have hlength : c.toList.length = chunkSize := by
      rw [Chunk.length_toList, hfull, Nat.min_self]
    rw [pushOnto, dif_neg fun h => hne h.1]
    refine ⟨.cons hfull ?_ hpacked, ?_, ?_⟩
    · intro hnil
      rw [hnil] at hsnd
      exact List.append_ne_nil_of_right_ne_nil _ (List.cons_ne_nil x []) hsnd.symm
    · show chunkSize + (pushOnto x row).1 = _
      rw [hfst, List.flatMap_cons, List.length_append, hlength]
    · show (c :: (pushOnto x row).2).flatMap Chunk.toList = _
      rw [List.flatMap_cons, hsnd, List.flatMap_cons, List.append_assoc]

/-- The last chunk is the only one that is not filled up. -/
private theorem length_bounds (h : IsPacked row) :
    (row.flatMap Chunk.toList).length ≤ chunkSize * row.length ∧
      chunkSize * row.length < (row.flatMap Chunk.toList).length + chunkSize := by
  induction h with
  | nil => decide
  | last hpos hle =>
    rw [List.flatMap_singleton, Chunk.length_toList, List.length_singleton]
    omega
  | cons hfull hne hrow ih =>
    rw [List.flatMap_cons, List.length_append, Chunk.length_toList, hfull, List.length_cons,
      Nat.mul_succ]
    omega

end IsPacked

/-! ### Pools without a gap -/

/-- The row of the pool has no gap, and its patterns were counted. -/
structure Packed (p : Pool) : Prop where
  row : IsPacked p.row
  size_eq : p.size = p.toList.length

namespace Packed

theorem empty : ({} : Pool).Packed :=
  ⟨.nil, rfl⟩

private theorem indexIn?_eq (h : p.Packed) (x : Binary64) :
    indexIn? x p.row = if x ∈ p.toList then some (p.toList.idxOf x) else none := by
  rw [h.row.indexIn?_eq]
  by_cases hx : x ∈ p.toList
  · rw [if_pos hx, List.findIdx?_eq_some_iff_findIdx_eq]
    exact ⟨List.idxOf_lt_length_iff.mpr hx, rfl⟩
  · rw [if_neg hx, List.findIdx?_eq_none_iff]
    intro y hy
    rw [beq_eq_false_iff_ne]
    rintro rfl
    exact hx hy

/-- A pattern that was asked for before has its position as slot, and a new one comes behind all
others. -/
theorem find_fst (h : p.Packed) (x : Binary64) :
    (p.find x).1 = p.retired + (p.toList ++ [x]).idxOf x := by
  rw [Pool.find, h.indexIn?_eq, List.idxOf_append]
  by_cases hx : x ∈ p.toList
  · rw [if_pos hx, if_pos hx]
  · rw [if_neg hx, if_neg hx, List.idxOf_cons_self, Nat.zero_add]
    exact congrArg (p.retired + ·) (h.row.pushOnto_eq x).2.1

/-- The pool lists a pattern once, where it was first asked for. -/
theorem toList_find (h : p.Packed) (x : Binary64) :
    (p.find x).2.toList = if x ∈ p.toList then p.toList else p.toList ++ [x] := by
  rw [Pool.find, h.indexIn?_eq]
  by_cases hx : x ∈ p.toList
  · rw [if_pos hx, if_pos hx]
  · rw [if_neg hx, if_neg hx]
    exact (h.row.pushOnto_eq x).2.2

theorem find (h : p.Packed) (x : Binary64) : (p.find x).2.Packed := by
  rw [Pool.find]
  cases indexIn? x p.row with
  | some i => exact h
  | none =>
    obtain ⟨hrow, -, htoList⟩ := h.row.pushOnto_eq x
    refine ⟨hrow, ?_⟩
    show p.size + 1 = ((pushOnto x p.row).2.flatMap Chunk.toList).length
    rw [htoList, List.length_append, h.size_eq]
    rfl

/-- **Chunks** are taken as they are needed. -/
theorem chunks_eq (h : p.Packed) : p.chunks = (p.size + (chunkSize - 1)) / chunkSize := by
  obtain ⟨hle, hlt⟩ := h.row.length_bounds
  rw [← toList, ← h.size_eq] at hle hlt
  have hsize : chunkSize = 16 := rfl
  rw [hsize] at hle hlt
  rw [chunks, hsize]
  omega

/-- What is listed lies in the slot of its position. -/
theorem holds_of_mem (h : p.Packed) (hx : x ∈ p.toList) :
    p.Holds x (p.retired + p.toList.idxOf x) :=
  ⟨p.toList.idxOf x, by rw [h.indexIn?_eq, if_pos hx], rfl⟩

theorem mem_of_holds (h : p.Packed) (hx : p.Holds x s) : x ∈ p.toList := by
  obtain ⟨i, hi, -⟩ := hx
  rw [h.indexIn?_eq] at hi
  split at hi
  · next hmem => exact hmem
  · cases hi

end Packed

@[simp] theorem retired_find (p : Pool) (x : Binary64) : (p.find x).2.retired = p.retired := by
  rw [find]
  split
  · rfl
  · rfl

end TraceIR.Pool
