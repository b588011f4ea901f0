import Mathlib.Data.List.Basic
import TraceIR.Proofs.KeySets

/-!
# Sets of keys in an array of words

A bit set can be kept in an array of words, of which the first ones are in use and the others are
spare room. Adding a key takes all the room into use, and giving up room only shortens the part in
use, so whatever the spare cells hold would come to light again later. This file shows that they
hold nothing, and that the array answers as the set does.

* `KeyType` is the machine type of the keys. Its arithmetic wraps around, and `KeyType.wrap_sub`
  says that it does not in the distance of a key in reach.
* `WordArray.Stores` relates an array to the set that it stores. `Stores.apply` is the step: one
  change keeps it, with the same complaint on both sides.
* `WordArray.Answers` says that both give the answers of a finite set, which stands in the form of
  its members in increasing order.
* `BitSet.finite_set_after_changes` is the law of such sets: in all its answers a set is the finite
  set of the keys that were added and not removed since, and so is the array, however it grows.
-/

namespace TraceIR

/-! ### Types of keys -/

/-- The types of keys: signed numbers of 64 bits, and unsigned ones of 32 bits. -/
inductive KeyType where
  | int64
  | uint32

namespace KeyType

/-- The numbers of the type. -/
def Holds : KeyType → Int → Prop
  | int64, k => -0x8000000000000000 ≤ k ∧ k < 0x8000000000000000
  | uint32, k => 0 ≤ k ∧ k < 0x100000000

/-- The number of the type that an exact result wraps around to. -/
def wrap : KeyType → Int → Int
  | int64, k => k.bmod 0x10000000000000000
  | uint32, k => k % 0x100000000

variable {type : KeyType} {base k : Int}

private theorem wrap_of_holds (h : type.Holds k) : type.wrap k = k := by
  cases type with
  | int64 =>
    obtain ⟨hlow, hhigh⟩ := h
    exact Int.bmod_eq_of_le (by omega) (by omega)
  | uint32 => exact Int.emod_eq_of_lt h.1 h.2

/-- **The distance of a key in reach** is a number of the type. -/
theorem holds_sub (hbase : type.Holds base) (hk : type.Holds k) (hle : base ≤ k)
    (hreach : k - base < BitSet.distanceLimit) : type.Holds (k - base) := by
  have hlimit : (BitSet.distanceLimit : Int) = 0x8000000000000000 := rfl
  cases type with
  | int64 => exact ⟨by omega, by omega⟩
  | uint32 =>
    have hlow := hbase.1
    have hhigh := hk.2
    exact ⟨by omega, by omega⟩

theorem wrap_sub (hbase : type.Holds base) (hk : type.Holds k) (hle : base ≤ k)
    (hreach : k - base < BitSet.distanceLimit) : type.wrap (k - base) = k - base :=
  wrap_of_holds (holds_sub hbase hk hle hreach)

end KeyType

/-! ### Arrays of words -/

/-- A set in an array of words. -/
structure WordArray where
  base : Int := 0
  /-- All cells, as far as the capacity goes. -/
  cells : List UInt64 := []
  /-- The number of cells in use. -/
  length : Nat := 0
  /-- Is there an array at all? -/
  allocated : Bool := false

namespace WordArray

open BitSet (bit testBit popCount wordBits)

/-- The word in a cell. Beyond the capacity there is none, which counts as zero. -/
def cell (w : WordArray) (i : Nat) : UInt64 :=
  w.cells[i]?.getD 0

section Operations

variable (type : KeyType) (extra : Nat → Nat) (w : WordArray)

/-- Cells with one for number `i`. As long as it is missing, a larger array takes the place of the
old one. How much larger is not known: `extra` says how many cells there are beyond the next one. -/
def extend (i : Nat) (cells : List UInt64) : List UInt64 :=
  if i < cells.length then cells
  else extend i (cells ++ List.replicate (extra cells.length + 1) 0)
termination_by i + 1 - cells.length
decreasing_by
  simp only [List.length_append, List.length_replicate]
  omega

/-- Make room for cell number `i`, and take all room into use. The first array has two cells. -/
def grow (i : Nat) : WordArray :=
  let cells := extend extra i (if w.allocated then w.cells else [0, 0])
  { w with cells, length := cells.length, allocated := true }

/-- An empty set with room for a few keys. -/
def empty (base : Int) : WordArray :=
  { base, cells := [0, 0], length := 2, allocated := true }

/-- An empty set with room for the keys from `base` to below `base + n`. -/
def withCapacity (base n : Int) : WordArray :=
  (empty base).grow extra ((KeyType.int64.wrap (n + 63)).toNat / 64)

/-- The distance of a key from the base. -/
def offset (k : Int) : Nat :=
  (type.wrap (k - w.base)).toNat

/-- Add a key. -/
def insert (k : Int) : WordArray × Option KeyError :=
  if k < w.base then (w, some (.below k))
  else
    let d := w.offset type k
    let g := w.grow extra (d / 64)
    ({ g with cells := g.cells.set (d / 64) (g.cell (d / 64) ||| bit (d % 64)) }, none)

/-- Add keys in turn up to the first that has no place. -/
def insertAll (w : WordArray) : List Int → WordArray × Option KeyError
  | [] => (w, none)
  | k :: ks =>
    match w.insert type extra k with
    | (w, none) => w.insertAll ks
    | (w, some e) => (w, some e)

/-- Membership. -/
def contains (k : Int) : Bool :=
  if k < w.base then false
  else
    let d := w.offset type k
    if w.length ≤ d / 64 then false else testBit (w.cell (d / 64)) (d % 64)

/-- Take a key out, if it is there. -/
def erase (k : Int) : WordArray :=
  if k < w.base then w
  else
    let d := w.offset type k
    if w.length ≤ d / 64 then w
    else { w with cells := w.cells.set (d / 64) (w.cell (d / 64) &&& ~~~bit (d % 64)) }

/-- The number of cells up to the last one among the first `n` that is not zero. -/
def usedLength : Nat → Nat
  | 0 => 0
  | n + 1 => if w.cell n = 0 then usedLength n else n + 1

/-- Give up the room behind the last word that holds a key. The cells stay what they are. -/
def strip : WordArray :=
  { w with length := w.usedLength w.length }

/-- Take all keys out: the cells in use become zero, and then they are given up. -/
def clear : WordArray :=
  { w with cells := List.replicate w.length 0 ++ w.cells.drop w.length }.strip

/-- The words in use with their numbers. -/
def words : List (Nat × UInt64) :=
  (List.range w.length).map fun i => (i, w.cell i)

/-- The number of keys. -/
def size : Nat :=
  w.words.foldl (fun n p => n + popCount p.2) 0

/-- The keys in a word, computed in their type. -/
def keysInWord (p : Nat × UInt64) : List Int :=
  (wordBits p.2).map fun j => type.wrap (w.base + type.wrap ((p.1 * 64 + j : Nat) : Int))

/-- The keys of the set that a visitor sees. -/
def visit (more : List Int → Bool) : List Int :=
  (BitSet.showWords (w.keysInWord type) more [] w.words).1

/-- The array after a change, and why the change was cut short. -/
def apply : BitSet.Change → WordArray × Option KeyError
  | .insert k => w.insert type extra k
  | .insertAll ks => w.insertAll type extra ks
  | .erase k => (w.erase type k, none)
  | .clear => (w.clear, none)
  | .strip => (w.strip, none)

/-- The array after some changes. -/
def run (l : List BitSet.Change) : WordArray :=
  l.foldl (fun w c => (w.apply type extra c).1) w

end Operations

/-! ### Cells -/

section Cells

variable {extra : Nat → Nat} {w : WordArray}

private theorem lt_length_extend (i : Nat) (cells : List UInt64) :
    i < (extend extra i cells).length := by
  fun_induction extend extra i cells with
  | case1 cells h => exact h
  | case2 cells h ih => exact ih

/-- The new cells hold nothing. -/
private theorem getElem?_extend (i : Nat) (cells : List UInt64) (j : Nat) :
    (extend extra i cells)[j]?.getD 0 = cells[j]?.getD 0 := by
  fun_induction extend extra i cells with
  | case1 cells h => rfl
  | case2 cells h ih =>
    rw [ih, List.getElem?_append]
    split
    · rfl
    · next hlt =>
      -- behind the old cells there are new ones, or none, and neither holds anything
      rw [List.getElem?_eq_none (Nat.not_lt.mp hlt), List.getElem?_replicate]
      split
      · rfl
      · rfl

private theorem cell_set {i : Nat} (h : i < w.cells.length) (v : UInt64) (j : Nat) :
    cell { w with cells := w.cells.set i v } j = if j = i then v else w.cell j := by
  unfold cell
  dsimp only
  rw [List.getElem?_set]
  by_cases hj : i = j
  · rw [if_pos hj, if_pos h, if_pos hj.symm]
    rfl
  · rw [if_neg hj, if_neg (Ne.symm hj)]

private theorem usedLength_le (w : WordArray) (n : Nat) : w.usedLength n ≤ n := by
  induction n with
  | zero => exact Nat.le_refl 0
  | succ n ih =>
    rw [usedLength]
    split
    · exact Nat.le_succ_of_le ih
    · exact Nat.le_refl _

/-- What is given up is zero. -/
private theorem cell_of_usedLength_le {n i : Nat} (hlow : w.usedLength n ≤ i) (hhigh : i < n) :
    w.cell i = 0 := by
  induction n with
  | zero => exact absurd hhigh (Nat.not_lt_zero i)
  | succ n ih =>
    rw [usedLength] at hlow
    split at hlow
    · next hzero =>
      rcases Nat.lt_succ_iff_lt_or_eq.mp hhigh with hlt | rfl
      · exact ih hlow hlt
      · exact hzero
    · exact absurd hhigh (Nat.not_lt.mpr hlow)

end Cells

/-! ### What an array stores -/

/-- The array stores the set: it has the words of the set, and its spare cells hold nothing. -/
structure Stores (type : KeyType) (w : WordArray) (s : BitSet) : Prop where
  base : w.base = s.base
  fits : w.length ≤ w.cells.length
  spare : ∀ i, w.length ≤ i → w.cell i = 0
  word : ∀ i, w.cell i = BitSet.word s.words i
  unallocated : w.allocated = false → w.cells = []
  ordered : s.Ordered
  holdsBase : type.Holds s.base
  holds : ∀ k, s.contains k = true → type.Holds k
  reach : ∀ k, s.contains k = true → k - s.base < BitSet.distanceLimit

variable {type : KeyType} {extra : Nat → Nat} {w : WordArray} {s : BitSet} {k : Int}

namespace Stores

private theorem offset_eq (h : Stores type w s) (hk : type.Holds k) (hle : s.base ≤ k)
    (hreach : k - s.base < BitSet.distanceLimit) : w.offset type k = s.offset k := by
  rw [offset, h.base, KeyType.wrap_sub h.holdsBase hk hle hreach, BitSet.offset]

/-- Taking room into use brings nothing to light. -/
private theorem cell_grow (h : Stores type w s) (i j : Nat) :
    (w.grow extra i).cell j = w.cell j := by
  rw [grow, cell]
  dsimp only
  rw [getElem?_extend, cell]
  by_cases hw : w.allocated = true
  · rw [if_pos hw]
  · -- the first array is empty too
    rw [if_neg hw, h.unallocated (Bool.eq_false_iff.mpr hw)]
    rcases j with _ | _ | j
    · rfl
    · rfl
    · rfl

private theorem grow (h : Stores type w s) (i : Nat) : Stores type (w.grow extra i) s where
  base := h.base
  fits := Nat.le_refl _
  spare j hj := by
    have hnone : (w.grow extra i).cells[j]? = none := List.getElem?_eq_none hj
    rw [cell, hnone]
    rfl
  word j := (h.cell_grow i j).trans (h.word j)
  unallocated hw := by cases hw
  ordered := h.ordered
  holdsBase := h.holdsBase
  holds := h.holds
  reach := h.reach

/-- A change of one word on both sides. -/
private theorem set (h : Stores type w s) {i : Nat} (hi : i < w.length) (v : UInt64) {s' : BitSet}
    (hbase : s'.base = s.base) (hwords : s'.words = BitSet.setWord i v s.words)
    (hs' : ∀ k, s'.contains k = true → type.Holds k ∧ k - s.base < BitSet.distanceLimit) :
    Stores type { w with cells := w.cells.set i v } s' where
  base := h.base.trans hbase.symm
  fits := by
    rw [List.length_set]
    exact h.fits
  spare j hj := by
    -- the word that changes is in use
    rw [cell_set (Nat.lt_of_lt_of_le hi h.fits), if_neg (by dsimp only at hj; omega)]
    exact h.spare j hj
  word j := by
    rw [cell_set (Nat.lt_of_lt_of_le hi h.fits), hwords, BitSet.word_setWord h.ordered, h.word]
  unallocated hw := by
    -- without an array there would be no such word
    have hcells := h.unallocated hw
    have hfits := h.fits
    rw [hcells, List.length_nil] at hfits
    omega
  ordered := by
    rw [BitSet.Ordered, hwords]
    exact BitSet.OrderedWords.setWord h.ordered _ _
  holdsBase := hbase ▸ h.holdsBase
  holds k hk := (hs' k hk).1
  reach k hk := hbase ▸ (hs' k hk).2

/-! The changes. -/

/-- After a change of the set the keys are of the type and in reach, if those of the change are. -/
private theorem keys_apply (h : Stores type w s) {c : BitSet.Change} (hc : c.InReach s.base)
    (htype : ∀ k ∈ c.keys, type.Holds k) (k : Int) (hk : (c.apply s).1.contains k = true) :
    type.Holds k ∧ k - s.base < BitSet.distanceLimit := by
  rcases ((BitSet.apply_spec h.ordered hc).2.2.2 k).mp hk with hadds | ⟨hold, -⟩
  · have hmem : k ∈ c.keys := by
      cases c with
      | insert a =>
        obtain ⟨rfl, -⟩ := hadds
        exact List.mem_cons_self
      | insertAll ks => exact (List.takeWhile_sublist _).subset hadds
      | erase a => exact hadds.elim
      | clear => exact hadds.elim
      | strip => exact hadds.elim
    exact ⟨htype k hmem, hc k hmem⟩
  · exact ⟨h.holds k hold, h.reach k hold⟩

private theorem insert (h : Stores type w s) (hk : type.Holds k)
    (hreach : k - s.base < BitSet.distanceLimit) :
    Stores type (w.insert type extra k).1 (s.insert k).1 ∧
      (w.insert type extra k).2 = (s.insert k).2 := by
  by_cases hlt : k < s.base
  · rw [WordArray.insert, h.base, if_pos hlt, BitSet.insert_of_lt hlt]
    exact ⟨h, rfl⟩
  -- room is made for the word, and then it changes on both sides
  have hle := Int.not_lt.mp hlt
  have hgrown : Stores type (w.grow extra (s.offset k / 64)) s := h.grow _
  have hroom : s.offset k / 64 < (w.grow extra (s.offset k / 64)).length := lt_length_extend ..
  rw [WordArray.insert, h.base, if_neg hlt, h.offset_eq hk hle hreach, BitSet.insert_snd hle hreach]
  refine ⟨?_, rfl⟩
  dsimp only
  rw [hgrown.word]
  refine hgrown.set hroom _ (BitSet.base_insert hle (BitSet.offset_lt hreach)) ?_ ?_
  · rw [BitSet.insert_eq hle (BitSet.offset_lt hreach)]
    rfl
  · exact h.keys_apply (c := .insert k) (List.forall_mem_singleton.mpr hreach)
      (List.forall_mem_singleton.mpr hk)

private theorem insertAll {ks : List Int} :
    ∀ {w : WordArray} {s : BitSet}, Stores type w s → (∀ k ∈ ks, type.Holds k) →
      (∀ k ∈ ks, k - s.base < BitSet.distanceLimit) →
      Stores type (w.insertAll type extra ks).1 (s.insertAll ks).1 ∧
        (w.insertAll type extra ks).2 = (s.insertAll ks).2 := by
  induction ks with
  | nil => exact fun h _ _ => ⟨h, rfl⟩
  | cons k ks ih =>
    intro w s h htype hreach
    rw [List.forall_mem_cons] at htype hreach
    have hbase : (s.insert k).1.base = s.base :=
      (BitSet.apply_spec h.ordered (c := .insert k)
        (List.forall_mem_singleton.mpr hreach.1)).2.1
    have hinsert : Stores type (w.insert type extra k).1 (s.insert k).1 ∧
        (w.insert type extra k).2 = (s.insert k).2 := h.insert htype.1 hreach.1
    obtain ⟨hstep, hsame⟩ := hinsert
    rw [WordArray.insertAll, BitSet.insertAll]
    generalize w.insert type extra k = r at hstep hsame
    generalize s.insert k = r' at hstep hsame hbase
    obtain ⟨w', e⟩ := r
    obtain ⟨s', e'⟩ := r'
    -- both sides complain or both go on
    cases hsame
    cases e with
    | none => exact ih hstep htype.2 (hbase ▸ hreach.2)
    | some e => exact ⟨hstep, rfl⟩

private theorem erase (h : Stores type w s) (hk : type.Holds k)
    (hreach : k - s.base < BitSet.distanceLimit) :
    Stores type (w.erase type k) (s.erase k) := by
  have hkeys := h.keys_apply (c := .erase k) (List.forall_mem_singleton.mpr hreach)
    (List.forall_mem_singleton.mpr hk)
  simp only [BitSet.Change.apply, BitSet.erase?_eq hreach] at hkeys
  rw [WordArray.erase]
  by_cases hlt : k < s.base
  · rw [if_pos (h.base.symm ▸ hlt), BitSet.erase, if_pos hlt]
    exact h
  have hle := Int.not_lt.mp hlt
  rw [if_neg (h.base.symm ▸ hlt), h.offset_eq hk hle hreach]
  have hwords : (s.erase k).words = BitSet.setWord (s.offset k / 64)
      (BitSet.word s.words (s.offset k / 64) &&& ~~~bit (s.offset k % 64)) s.words := by
    rw [BitSet.erase, if_neg hlt]
  dsimp only
  by_cases hout : w.length ≤ s.offset k / 64
  · -- the word is beyond those in use, so there is nothing to clear
    rw [if_pos hout]
    have hzero : BitSet.word s.words (s.offset k / 64) = 0 := (h.word _).symm.trans (h.spare _ hout)
    rw [hzero, UInt64.zero_and] at hwords
    refine ⟨h.base.trans (BitSet.base_erase s k).symm, h.fits, h.spare, fun i => ?_, h.unallocated,
      h.ordered.erase k, (BitSet.base_erase s k).symm ▸ h.holdsBase, fun a ha => (hkeys a ha).1,
      fun a ha => (BitSet.base_erase s k).symm ▸ (hkeys a ha).2⟩
    rw [hwords, BitSet.word_setWord h.ordered, h.word]
    by_cases hi : i = s.offset k / 64
    · rw [if_pos hi, hi, hzero]
    · rw [if_neg hi]
  · rw [if_neg hout, h.word]
    exact h.set (Nat.not_le.mp hout) _ (BitSet.base_erase s k) hwords hkeys

/-- Giving up room gives up zeros. -/
private theorem strip (h : Stores type w s) : Stores type w.strip s.strip where
  base := h.base
  fits := Nat.le_trans (usedLength_le w _) h.fits
  spare i hi := by
    rcases Nat.lt_or_ge i w.length with hlt | hge
    · exact cell_of_usedLength_le (w := w) hi hlt
    · exact h.spare i hge
  word := h.word
  unallocated := h.unallocated
  ordered := h.ordered
  holdsBase := h.holdsBase
  holds := h.holds
  reach := h.reach

/-- The spare cells need no clearing. -/
private theorem clear (h : Stores type w s) : Stores type w.clear s.clear := by
  have hzero : ∀ i, cell { w with cells := List.replicate w.length 0 ++ w.cells.drop w.length } i =
      0 := by
    intro i
    unfold cell
    dsimp only
    rw [List.getElem?_append, List.length_replicate]
    split
    · next hlt =>
      rw [List.getElem?_replicate, if_pos hlt]
      rfl
    · next hge =>
      have hsame : w.length + (i - w.length) = i := by omega
      rw [List.getElem?_drop, hsame]
      exact h.spare i (Nat.not_lt.mp hge)
  have hempty : ∀ k, ¬ ({ s with words := [] } : BitSet).contains k = true := fun k =>
    Bool.eq_false_iff.mp (BitSet.contains_clear s k)
  refine Stores.strip (s := { s with words := [] }) ⟨h.base, ?_, fun i _ => hzero i, hzero,
    fun hw => ?_, .nil, h.holdsBase, fun k hk => absurd hk (hempty k),
    fun k hk => absurd hk (hempty k)⟩
  · rw [List.length_append, List.length_replicate]
    exact Nat.le_add_right ..
  · have hcells := h.unallocated hw
    have hfits := h.fits
    rw [hcells, List.length_nil, Nat.le_zero] at hfits
    dsimp only
    rw [hcells, hfits]
    rfl

/-- **One change** of array and set. -/
theorem apply (h : Stores type w s) {c : BitSet.Change} (hc : c.InReach s.base)
    (htype : ∀ k ∈ c.keys, type.Holds k) :
    Stores type (w.apply type extra c).1 (c.apply s).1 ∧
      (w.apply type extra c).2 = (c.apply s).2 := by
  cases c with
  | insert k => exact h.insert (htype k List.mem_cons_self) (hc k List.mem_cons_self)
  | insertAll ks => exact h.insertAll htype hc
  | erase k =>
    have hreach := hc k List.mem_cons_self
    simp only [WordArray.apply, BitSet.Change.apply, BitSet.erase?_eq hreach]
    exact ⟨h.erase (htype k List.mem_cons_self) hreach, trivial⟩
  | clear => exact ⟨h.clear, rfl⟩
  | strip => exact ⟨h.strip, rfl⟩

/-- **A whole history** of changes of array and set. -/
theorem run {l : List BitSet.Change} :
    ∀ {w : WordArray} {s : BitSet}, Stores type w s →
      (∀ c ∈ l, c.InReach s.base ∧ ∀ k ∈ c.keys, type.Holds k) →
      Stores type (w.run type extra l) (s.run l) := by
  induction l with
  | nil => exact fun h _ => h
  | cons c l ih =>
    intro w s h hl
    obtain ⟨⟨hc, htype⟩, hrest⟩ := List.forall_mem_cons.mp hl
    have hbase : (c.apply s).1.base = s.base := (BitSet.apply_spec h.ordered hc).2.1
    exact ih (h.apply hc htype).1 (hbase ▸ hrest)

/-! The answers. -/

private theorem contains_eq (h : Stores type w s) (hk : type.Holds k)
    (hreach : k - s.base < BitSet.distanceLimit) : w.contains type k = s.contains k := by
  rw [WordArray.contains, h.base]
  by_cases hlt : k < s.base
  · rw [if_pos hlt, BitSet.contains_of_lt hlt]
  have hle := Int.not_lt.mp hlt
  rw [if_neg hlt, h.offset_eq hk hle hreach, BitSet.contains, decide_eq_true hle, Bool.true_and,
    ← h.word]
  dsimp only
  split
  · next hout => rw [h.spare _ hout, BitSet.testBit_zero]
  · rfl

/-- In their type the keys are what they should be. -/
private theorem flatMap_keysInWord (h : Stores type w s) :
    w.words.flatMap (w.keysInWord type) = BitSet.keysIn s.base w.words := by
  refine List.flatMap_congr fun p hp => List.map_congr_left fun j hj => ?_
  obtain ⟨i, -, rfl⟩ := List.mem_map.mp hp
  obtain ⟨hj64, hbit⟩ := List.mem_filter.mp hj
  rw [List.mem_range] at hj64
  -- the bit stands for a key of the set
  have hoffset : s.offset (s.base + ((i * 64 + j : Nat) : Int)) = i * 64 + j := by
    rw [BitSet.offset]
    omega
  have hcontains : s.contains (s.base + ((i * 64 + j : Nat) : Int)) = true := by
    have hword : (i * 64 + j) / 64 = i := by omega
    have hplace : (i * 64 + j) % 64 = j := by omega
    rw [BitSet.contains, decide_eq_true (by omega), Bool.true_and, hoffset, hword, hplace, ← h.word]
    exact hbit
  have hk := h.holds _ hcontains
  have hreach := h.reach _ hcontains
  have hdistance := KeyType.wrap_sub h.holdsBase hk (by omega) hreach
  have hsub : s.base + ((i * 64 + j : Nat) : Int) - s.base = ((i * 64 + j : Nat) : Int) := by omega
  rw [hsub] at hdistance
  rw [h.base, hdistance, KeyType.wrap_of_holds hk]

private theorem pairwise_words (w : WordArray) : BitSet.OrderedWords w.words := by
  rw [words, BitSet.OrderedWords, List.pairwise_map]
  exact List.pairwise_lt_range

/-- The array lists the keys that the set lists. -/
private theorem keysIn_words (h : Stores type w s) : BitSet.keysIn s.base w.words = s.toList := by
  -- both lists increase, so it is enough that they have the same members
  refine BitSet.eq_of_pairwise (BitSet.pairwise_keysIn s.base (pairwise_words w))
    (BitSet.pairwise_keysIn s.base h.ordered) fun k => ?_
  rw [BitSet.mem_toList h.ordered, BitSet.mem_keysIn, BitSet.contains, Bool.and_eq_true,
    decide_eq_true_iff, ← h.word, BitSet.offset]
  constructor
  · rintro ⟨p, hp, hle, hword, hbit⟩
    obtain ⟨i, -, rfl⟩ := List.mem_map.mp hp
    rw [hword]
    exact ⟨hle, hbit⟩
  · rintro ⟨hle, hbit⟩
    refine ⟨((k - s.base).toNat / 64, w.cell ((k - s.base).toNat / 64)), ?_, hle, rfl, hbit⟩
    refine List.mem_map.mpr ⟨_, List.mem_range.mpr (Nat.not_le.mp fun hout => ?_), rfl⟩
    rw [h.spare _ hout, BitSet.testBit_zero] at hbit
    cases hbit

private theorem size_eq (h : Stores type w s) : w.size = s.size := by
  rw [WordArray.size, ← BitSet.length_keysIn s.base, h.keysIn_words, BitSet.size_eq_length]

private theorem visit_eq (h : Stores type w s) (more : List Int → Bool) :
    w.visit type more = s.visit more := by
  rw [WordArray.visit, BitSet.visit, BitSet.showWords_eq, BitSet.showWords_eq,
    h.flatMap_keysInWord, h.keysIn_words]
  rfl

end Stores

/-! ### New sets -/

/-- A set and an array that were made in the same way: never used, empty, or empty with some
room. -/
inductive Created (extra : Nat → Nat) : BitSet → WordArray → Prop
  | unused : Created extra {} {}
  | empty (base : Int) : Created extra (.empty base) (.empty base)
  | withCapacity (base : Int) {n : Int} (hn : 0 ≤ n) :
      Created extra (.withCapacity base n) (.withCapacity extra base n)

private theorem Created.fresh (h : Created extra s w) : s.Fresh := by
  cases h with
  | unused => exact .unused
  | empty base => exact .empty base
  | withCapacity base hn => exact .withCapacity base hn

/-- Zeros store a set without words. -/
private theorem stores_of_words_eq_nil (hs : s.words = []) (hbase : w.base = s.base)
    (htype : type.Holds s.base) (hfits : w.length ≤ w.cells.length) (hzero : ∀ i, w.cell i = 0)
    (hw : w.allocated = false → w.cells = []) : Stores type w s := by
  have hempty : ∀ k, ¬ s.contains k = true := by
    intro k
    rw [BitSet.contains, hs, BitSet.word, BitSet.testBit_zero, Bool.and_false]
    exact Bool.false_ne_true
  refine ⟨hbase, hfits, fun i _ => hzero i, fun i => ?_, hw, ?_, htype,
    fun k hk => absurd hk (hempty k), fun k hk => absurd hk (hempty k)⟩
  · rw [hzero, hs, BitSet.word]
  · rw [BitSet.Ordered, hs]
    exact .nil

private theorem Created.stores (h : Created extra s w) (htype : type.Holds s.base) :
    Stores type w s := by
  have hempty : ∀ base, type.Holds base → Stores type (.empty base) (.empty base) := by
    intro base hbase
    refine stores_of_words_eq_nil rfl rfl hbase (Nat.le_refl _) ?_ fun hw => by cases hw
    rintro (_ | _ | i)
    · rfl
    · rfl
    · rfl
  cases h with
  | unused => exact stores_of_words_eq_nil rfl rfl htype (Nat.le_refl _) (fun _ => rfl) fun _ => rfl
  | empty base => exact hempty base htype
  | @withCapacity base n hn =>
    -- growing is all that happens, and the set has no words to store
    have hgrown : Stores type (.withCapacity extra base n) (.empty base) :=
      (hempty base htype).grow _
    exact stores_of_words_eq_nil rfl rfl htype hgrown.fits hgrown.word fun hw => by cases hw

/-! ### Answers -/

/-- The set and the array give the answers of the finite set whose members, in increasing order, are
`keys`: about membership, about the number of keys, and to a visitor, who sees them in that
order. -/
structure Answers (type : KeyType) (keys : List Int) (s : BitSet) (w : WordArray) : Prop where
  increasing : keys.Pairwise (· < ·)
  contains : ∀ k, k - s.base < BitSet.distanceLimit →
    ∃ b, s.contains? k = .ok b ∧ (b = true ↔ k ∈ keys)
  size : s.size = keys.length
  toList : s.toList = keys
  visit : ∀ more, BitSet.Walk more keys (s.visit more)
  containsArray : ∀ k, type.Holds k → k - s.base < BitSet.distanceLimit →
    (w.contains type k = true ↔ k ∈ keys)
  sizeArray : w.size = keys.length
  visitArray : ∀ more, BitSet.Walk more keys (w.visit type more)

private theorem Stores.answers (h : Stores type w s) : Answers type s.toList s w where
  increasing := BitSet.pairwise_keysIn s.base h.ordered
  contains k hk := ⟨s.contains k, BitSet.contains?_eq hk, (BitSet.mem_toList h.ordered).symm⟩
  size := BitSet.size_eq_length s
  toList := rfl
  visit more := BitSet.walk_showWords _ _
  containsArray k htype hk := by rw [h.contains_eq htype hk, BitSet.mem_toList h.ordered]
  sizeArray := h.size_eq.trans (BitSet.size_eq_length s)
  visitArray more := by
    rw [h.visit_eq]
    exact BitSet.walk_showWords _ _

end WordArray

/-! ### The law of key sets -/

namespace BitSet

variable {type : KeyType} {extra : Nat → Nat} {s : BitSet} {w : WordArray}

/-- **A bit set is a finite set.** Take a new set, and an array made in the same way, and change
both by a history of changes whose keys are of the type of keys and in reach. Then

* the keys that were added and not removed since, none of them below the base, are a finite set, and
  both answer as this set does, before and after giving up room;
* the next change is cut short at the first key below the base that it should add, and nowhere else;
* a key that is not in is not in after any further changes that do not add it, however much room
  they take or give up. -/
theorem finite_set_after_changes (hnew : WordArray.Created extra s w) (hbase : type.Holds s.base)
    (l : List Change) (hl : ∀ c ∈ l, c.InReach s.base ∧ ∀ k ∈ c.keys, type.Holds k) :
    ∃ keys : List Int,
      (∀ k, k ∈ keys ↔ HeldAfter s.base l k) ∧ (∀ k ∈ keys, s.base ≤ k) ∧
      WordArray.Answers type keys (s.run l) (w.run type extra l) ∧
      WordArray.Answers type keys (s.run l).strip (w.run type extra l).strip ∧
      (∀ c : Change, c.InReach s.base → (∀ k ∈ c.keys, type.Holds k) →
        (c.apply (s.run l)).2 = c.refusal s.base ∧
          ((w.run type extra l).apply type extra c).2 = c.refusal s.base) ∧
      ∀ l' : List Change, (∀ c ∈ l', c.InReach s.base ∧ ∀ k ∈ c.keys, type.Holds k) →
        ∀ k, type.Holds k → k - s.base < distanceLimit → k ∉ keys →
          (∀ c ∈ l', ¬ c.Adds s.base k) →
            (s.run (l ++ l')).contains? k = .ok false ∧
              (w.run type extra (l ++ l')).contains type k = false := by
  have hstores := hnew.stores hbase
  have hrun : WordArray.Stores type (w.run type extra l) (s.run l) := hstores.run hl
  obtain ⟨hordered, hsame, hheld⟩ := hnew.fresh.run_spec l fun c hc => (hl c hc).1
  have hmem : ∀ k, k ∈ (s.run l).toList ↔ HeldAfter s.base l k := fun k =>
    (mem_toList hordered).trans (hheld k)
  refine ⟨(s.run l).toList, hmem, fun k hk => ?_, hrun.answers, hrun.strip.answers,
    fun c hc htype => ?_, fun l' hl' k htype hk hnot hadds => ?_⟩
  · -- a key below the base is not contained
    refine Int.not_lt.mp fun hlt => ?_
    rw [mem_toList hordered, contains_of_lt (hsame.symm ▸ hlt)] at hk
    cases hk
  · -- the complaint of the array is that of the set
    have hrefusal := (apply_spec hordered (c := c) (hsame.symm ▸ hc)).2.2.1
    rw [hsame] at hrefusal
    exact ⟨hrefusal, (hrun.apply (hsame.symm ▸ hc) htype).2.trans hrefusal⟩
  · -- it is not held after the longer history either
    have hall : ∀ c ∈ l ++ l', c.InReach s.base ∧ ∀ k ∈ c.keys, type.Holds k :=
      List.forall_mem_append.mpr ⟨hl, hl'⟩
    obtain ⟨-, hsame', hheld'⟩ := hnew.fresh.run_spec (l ++ l') fun c hc => (hall c hc).1
    have hfalse : (s.run (l ++ l')).contains k = false := by
      rw [← Bool.not_eq_true, hheld']
      exact fun hafter => hnot ((hmem k).mpr (hafter.of_append hadds))
    have hk' : k - (s.run (l ++ l')).base < distanceLimit := hsame'.symm ▸ hk
    have hrun' : WordArray.Stores type (w.run type extra (l ++ l')) (s.run (l ++ l')) :=
      hstores.run hall
    rw [contains?_eq hk', hrun'.contains_eq htype hk', hfalse]
    exact ⟨rfl, rfl⟩

/-- Two keys are added before one below the base, all are removed, and the array grows again. -/
theorem finite_set_after_changes_regrown :
    ∃ keys : List Int,
      (∀ k, k ∈ keys ↔ HeldAfter 0x8000
        [.insertAll [0x8003, 0x80c8, 0x7fff, 0x8005], .clear, .strip, .insert 0x8064] k) ∧
      WordArray.Answers .uint32 keys
        ((empty 0x8000).run
          [.insertAll [0x8003, 0x80c8, 0x7fff, 0x8005], .clear, .strip, .insert 0x8064])
        ((WordArray.empty 0x8000).run .uint32 id
          [.insertAll [0x8003, 0x80c8, 0x7fff, 0x8005], .clear, .strip, .insert 0x8064]) ∧
      keys = [0x8064] := by
  have hnew : WordArray.Created id (empty 0x8000) (.empty 0x8000) := .empty 0x8000
  have hbase : KeyType.uint32.Holds (empty 0x8000).base := ⟨by decide, by decide⟩
  obtain ⟨keys, hheld, -, hanswers, -⟩ := finite_set_after_changes hnew hbase
    [.insertAll [0x8003, 0x80c8, 0x7fff, 0x8005], .clear, .strip, .insert 0x8064]
    (by simp [Change.InReach, Change.keys, KeyType.Holds, distanceLimit, empty])
  exact ⟨keys, hheld, hanswers, hanswers.toList.symm.trans (by decide)⟩

end BitSet

end TraceIR
