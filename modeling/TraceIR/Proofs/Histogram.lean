import Mathlib
import TraceIR.Histogram
import TraceIR.Proofs.DumpLines
import TraceIR.Proofs.Manipulations

/-!
# Exact histograms

A histogram is made in two steps. The instructions are counted, and the opcodes that occur go into a
heap, which hands them out again one by one. The first step is compared here with the sets of
instructions that the trace holds. The second is taken with any heap that hands out a least element:
the order on rows leaves no ties, so all such heaps hand out one and the same list.

## Main definitions

* `Heap`, `Heap.PopsLeast` — a heap, and what is relied on. `Heap.Drains` is the loop that empties
  it.
* `Histogram.RowPrecedes` — the order of the rows: by the number, the highest first, and then by
  the opcode.
* `Trace.occurrences`, `Trace.internedConstants` — what there is to count.
* `Histogram.CountsExactly` — the rows say for every opcode how often it occurs.

## Main results

* `Heap.PopsLeast.drains_iff`: a heap is drained in the one order in which nothing comes too late.
* `Histogram.pairwise_counts`: the rows of a histogram are in order. Rows with the same number keep
  the order in which they were counted (`Histogram.filter_counts`).
* `Histogram.sum_counts`: the numbers add up to that of the instructions.
* `Histogram.written_injective`: a printed histogram shows its numbers and its rows, whatever
  formatter writes the numbers.
* `Trace.Manipulated.histogram_exact`: the histogram of any trace, whatever was done to it.
-/

namespace TraceIR

/-! ### Heaps -/

/-- A heap: elements are put in and counted, and one of them is taken out at a time. Which one, and
what an empty heap does, is its own business. -/
structure Heap (α : Type) where
  State : Type
  empty : State
  push : State → α → State
  size : State → Nat
  pop : State → α × State

namespace Heap

variable {α : Type} {heap : Heap α} {less : α → α → Prop} {contents : heap.State → List α}

/-- The heap holds the elements that were put in, in any order, and takes out one that no other one
is less than. -/
structure PopsLeast (heap : Heap α) (less : α → α → Prop) (contents : heap.State → List α) :
    Prop where
  empty : contents heap.empty = []
  push : ∀ s a, (contents (heap.push s a)).Perm (a :: contents s)
  size : ∀ s, heap.size s = (contents s).length
  pop : ∀ s, contents s ≠ [] → (contents s).Perm ((heap.pop s).1 :: contents (heap.pop s).2)
  least : ∀ s, contents s ≠ [] → ∀ a ∈ contents s, ¬ less a (heap.pop s).1

/-- Put some elements into an empty heap. -/
def ofList (heap : Heap α) (l : List α) : heap.State :=
  l.foldl heap.push heap.empty

/-- Elements are taken out as long as there are any, and these are they. -/
inductive Drains (heap : Heap α) : heap.State → List α → Prop
  | done {s : heap.State} (h : heap.size s = 0) : Drains heap s []
  | pop {s : heap.State} {l : List α} (h : heap.size s ≠ 0) (hrest : Drains heap (heap.pop s).2 l) :
      Drains heap s ((heap.pop s).1 :: l)

namespace PopsLeast

private theorem size_eq_zero_iff (h : heap.PopsLeast less contents) (s : heap.State) :
    heap.size s = 0 ↔ contents s = [] := by
  rw [h.size, List.length_eq_zero_iff]

private theorem contents_foldl (h : heap.PopsLeast less contents) (l : List α) :
    ∀ s, (contents (l.foldl heap.push s)).Perm (l ++ contents s) := by
  induction l with
  | nil => exact fun s => .refl _
  | cons a l ih =>
    intro s
    have hlater := ih (heap.push s a)
    have hfirst := (h.push s a).append_left l
    -- `a` goes in first, but where it stands does not matter
    exact (hlater.trans hfirst).trans List.perm_middle

private theorem contents_ofList (h : heap.PopsLeast less contents) (l : List α) :
    (contents (heap.ofList l)).Perm l := by
  have hperm := h.contents_foldl l heap.empty
  rwa [h.empty, List.append_nil] at hperm

/-- What a heap is drained of is what it held, and nothing comes after what it is less than. -/
private theorem of_drains (h : heap.PopsLeast less contents) {s : heap.State} {l : List α}
    (hl : heap.Drains s l) : l.Perm (contents s) ∧ l.Pairwise fun a b => ¬ less b a := by
  induction hl with
  | done hsize =>
    rw [(h.size_eq_zero_iff _).mp hsize]
    exact ⟨.refl _, .nil⟩
  | @pop s l hsize _ ih =>
    obtain ⟨hperm, hsorted⟩ := ih
    have hne := mt (h.size_eq_zero_iff s).mpr hsize
    have hpop := h.pop s hne
    refine ⟨(hperm.cons _).trans hpop.symm, .cons (fun b hb => ?_) hsorted⟩
    -- what comes later was there when the first one was taken out
    exact h.least s hne b (hpop.mem_iff.mpr (List.mem_cons_of_mem _ (hperm.mem_iff.mp hb)))

/-- Draining ends: every element that is taken out leaves one less. -/
private theorem exists_drains (h : heap.PopsLeast less contents) (n : Nat) :
    ∀ {s : heap.State}, (contents s).length = n → ∃ l, heap.Drains s l := by
  induction n with
  | zero =>
    intro s hn
    exact ⟨[], .done ((h.size s).trans hn)⟩
  | succ n ih =>
    intro s hn
    have hne : contents s ≠ [] := by
      rw [← List.length_pos_iff]
      omega
    have hlength := (h.pop s hne).length_eq
    rw [hn, List.length_cons] at hlength
    obtain ⟨l, hl⟩ := ih (Nat.succ.inj hlength).symm
    exact ⟨_, .pop (mt (h.size_eq_zero_iff s).mp hne) hl⟩

/-- **Draining.** If the order leaves no ties, a heap is drained in one order only. -/
theorem drains_iff (h : heap.PopsLeast less contents)
    (hties : ∀ a b, ¬ less a b → ¬ less b a → a = b) {s : heap.State} {sorted : List α}
    (hperm : sorted.Perm (contents s)) (hsorted : sorted.Pairwise fun a b => ¬ less b a)
    (l : List α) : heap.Drains s l ↔ l = sorted := by
  have hunique : ∀ {l}, heap.Drains s l → l = sorted := by
    intro l hl
    obtain ⟨hperm', hsorted'⟩ := h.of_drains hl
    refine List.Perm.eq_of_pairwise ?_ hsorted' hsorted (hperm'.trans hperm.symm)
    intro a b _ _ hba hab
    exact hties a b hab hba
  refine ⟨hunique, ?_⟩
  rintro rfl
  obtain ⟨l, hl⟩ := h.exists_drains _ (s := s) rfl
  rwa [← hunique hl]

end PopsLeast

end Heap

/-! ### The list of opcodes -/

namespace Opcode

private theorem ne_of_index_lt {a b : Opcode} (h : a.index.val < b.index.val) : a ≠ b := by
  rintro rfl
  exact Nat.lt_irrefl _ h

/-- All opcodes are listed in order. -/
private theorem pairwise_all : all.Pairwise fun a b => a.index.val < b.index.val := by
  have hindices : all.map (·.index.val) = List.range count := by decide
  rw [← List.pairwise_map (R := fun a b => a < b), hindices]
  exact List.pairwise_lt_range

private theorem nodup_all : all.Nodup :=
  pairwise_all.imp ne_of_index_lt

end Opcode

namespace Histogram

/-! ### Rows -/

/-- The row comes first: it has the higher number, or the same one and the earlier opcode. -/
def RowPrecedes (a b : Opcode × Nat) : Prop :=
  b.2 < a.2 ∨ a.2 = b.2 ∧ a.1.index.val < b.1.index.val

instance : DecidableRel RowPrecedes :=
  fun a b => inferInstanceAs (Decidable (b.2 < a.2 ∨ a.2 = b.2 ∧ a.1.index.val < b.1.index.val))

private theorem RowPrecedes.asymm {a b : Opcode × Nat} (h : RowPrecedes a b) :
    ¬ RowPrecedes b a := by
  unfold RowPrecedes at *
  omega

private theorem RowPrecedes.trans {a b c : Opcode × Nat} (h : RowPrecedes a b)
    (h' : RowPrecedes b c) :
    RowPrecedes a c := by
  unfold RowPrecedes at *
  omega

/-- Two rows of which none comes first are the same. -/
private theorem eq_of_not_precedes {a b : Opcode × Nat} (h : ¬ RowPrecedes a b)
    (h' : ¬ RowPrecedes b a) : a = b := by
  unfold RowPrecedes at h h'
  have hindex : a.1.index = b.1.index := Fin.ext (by omega)
  exact Prod.ext (Opcode.index_injective hindex) (by omega)

/-- The opcodes that occur, each with its number of occurrences, in the order of opcodes. -/
def entries (ops : List Opcode) : List (Opcode × Nat) :=
  (Opcode.all.map fun op => (op, ops.count op)).filter fun row => row.2 ≠ 0

/-- The histogram sorts these by their numbers. -/
private theorem counts_eq (ops : List Opcode) :
    counts ops = (entries ops).mergeSort fun a b => b.2 ≤ a.2 := rfl

private theorem counts_perm (ops : List Opcode) : (counts ops).Perm (entries ops) := by
  rw [counts_eq]
  exact List.mergeSort_perm ..

private theorem mem_entries_iff {ops : List Opcode} {op : Opcode} {n : Nat} :
    (op, n) ∈ entries ops ↔ ops.count op = n ∧ 0 < n := by
  rw [entries, List.mem_filter, List.mem_map]
  constructor
  · rintro ⟨⟨op', -, heq⟩, hn⟩
    cases heq
    exact ⟨rfl, Nat.pos_of_ne_zero (of_decide_eq_true hn)⟩
  · rintro ⟨rfl, hn⟩
    exact ⟨⟨op, Opcode.mem_all op, rfl⟩, decide_eq_true (Nat.ne_of_gt hn)⟩

/-! ### Their order -/

private theorem pairwise_entries (ops : List Opcode) :
    (entries ops).Pairwise fun a b => a.1.index.val < b.1.index.val :=
  List.Pairwise.filter _ (List.pairwise_map.mpr Opcode.pairwise_all)

/-! Sorting compares numbers alone. -/

private theorem number_trans (a b c : Opcode × Nat) (hab : decide (b.2 ≤ a.2) = true)
    (hbc : decide (c.2 ≤ b.2) = true) : decide (c.2 ≤ a.2) = true := by
  rw [decide_eq_true_eq] at *
  exact Nat.le_trans hbc hab

private theorem number_total (a b : Opcode × Nat) :
    (decide (b.2 ≤ a.2) || decide (a.2 ≤ b.2)) = true := by
  rw [Bool.or_eq_true, decide_eq_true_eq, decide_eq_true_eq]
  exact Nat.le_total b.2 a.2

/-- **Sorting is stable.** Rows with the same number stay in the order of opcodes. -/
theorem filter_counts (ops : List Opcode) (n : Nat) :
    (counts ops).filter (fun row => row.2 = n) = (entries ops).filter fun row => row.2 = n := by
  -- rows with the same number are in order as they are, so sorting keeps them as a sublist
  have hsame : ((entries ops).filter fun row => row.2 = n).Pairwise fun a b =>
      decide (b.2 ≤ a.2) = true := by
    refine List.pairwise_of_forall_mem_list fun a ha b hb => ?_
    have ha := of_decide_eq_true (List.mem_filter.mp ha).2
    have hb := of_decide_eq_true (List.mem_filter.mp hb).2
    exact decide_eq_true (Nat.le_of_eq (hb.trans ha.symm))
  have hsublist : ((entries ops).filter fun row => row.2 = n).Sublist (counts ops) := by
    rw [counts_eq]
    exact List.sublist_mergeSort number_trans number_total hsame List.filter_sublist
  have hfilter := hsublist.filter fun row => row.2 = n
  simp only [List.filter_filter, Bool.and_self] at hfilter
  -- there are as many of them before as after
  exact (hfilter.eq_of_length ((counts_perm ops).filter _).length_eq.symm).symm

/-- **The rows are in order.** -/
theorem pairwise_counts (ops : List Opcode) : (counts ops).Pairwise RowPrecedes := by
  rw [List.pairwise_iff_forall_sublist]
  intro a b hab
  have hsorted : (counts ops).Pairwise fun a b => decide (b.2 ≤ a.2) = true := by
    rw [counts_eq]
    exact List.pairwise_mergeSort number_trans number_total _
  have hle : b.2 ≤ a.2 :=
    of_decide_eq_true (List.pairwise_iff_forall_sublist.mp hsorted hab)
  rcases Nat.lt_or_eq_of_le hle with hlt | heq
  · exact .inl hlt
  · -- two rows with the same number stand as they were counted
    have hfilter := hab.filter fun row => row.2 = a.2
    rw [filter_counts, List.filter_cons_of_pos (by simp), List.filter_cons_of_pos (by simp [heq]),
      List.filter_nil] at hfilter
    have hentries := hfilter.trans List.filter_sublist
    exact .inr ⟨heq.symm, List.pairwise_iff_forall_sublist.mp (pairwise_entries ops) hentries⟩

/-- Every opcode has one row at most. -/
private theorem nodup_counts (ops : List Opcode) : ((counts ops).map Prod.fst).Nodup := by
  rw [((counts_perm ops).map Prod.fst).nodup_iff, List.Nodup, List.pairwise_map]
  exact (pairwise_entries ops).imp Opcode.ne_of_index_lt

/-! ### Their sum -/

/-- **The numbers add up** to that of all opcodes that were counted. -/
theorem sum_counts (ops : List Opcode) : ((counts ops).map Prod.snd).sum = ops.length := by
  have hentries : entries ops =
      (Opcode.all.filter fun op => op ∈ ops).map fun op => (op, ops.count op) := by
    rw [entries, List.filter_map]
    congr 1
    refine List.filter_congr fun op _ => ?_
    exact decide_eq_decide.mpr (Nat.pos_iff_ne_zero.symm.trans List.count_pos_iff)
  -- the opcodes that occur are listed once each, if in another order
  have hperm : (Opcode.all.filter fun op => op ∈ ops).Perm ops.dedup := by
    refine (List.perm_ext_iff_of_nodup (Opcode.nodup_all.filter _) ops.nodup_dedup).mpr fun op => ?_
    rw [List.mem_filter, List.mem_dedup, decide_eq_true_eq]
    exact and_iff_right (Opcode.mem_all op)
  calc ((counts ops).map Prod.snd).sum
    _ = ((entries ops).map Prod.snd).sum := ((counts_perm ops).map _).sum_eq
    _ = ((Opcode.all.filter fun op => op ∈ ops).map fun op => ops.count op).sum := by
      rw [hentries, List.map_map]
      rfl
    _ = (ops.dedup.map fun op => ops.count op).sum := (hperm.map _).sum_eq
    _ = ops.length := List.sum_map_count_dedup_eq_length ops

end Histogram

/-! ### What there is to count -/

/-- Numbers that are small enough are told apart as words. -/
private theorem Ref.ofNat_injOn {n : Nat} (hn : n ≤ 0x10000) :
    ∀ i ∈ List.range n, ∀ j ∈ List.range n, UInt32.ofNat i = UInt32.ofNat j → i = j := by
  intro i hi j hj heq
  rw [List.mem_range] at hi hj
  have hsize : UInt32.size = 0x100000000 := rfl
  have hi' : (UInt32.ofNat i).toNat = i := UInt32.toNat_ofNat_of_lt (by omega)
  have hj' : (UInt32.ofNat j).toNat = j := UInt32.toNat_ofNat_of_lt (by omega)
  rw [← hi', heq, hj']

private theorem mapM_eq_ok_map {ε α β : Type} {f : α → Except ε β} {g : α → β} {l : List α}
    (h : ∀ a ∈ l, f a = .ok (g a)) : l.mapM f = .ok (l.map g) := by
  induction l with
  | nil => rfl
  | cons a l ih =>
    obtain ⟨ha, hl⟩ := List.forall_mem_cons.mp h
    rw [List.mapM_cons, ha, ih hl]
    rfl

namespace Trace

variable {t : Trace} {r : Ref}

/-- The instructions after `BASE`. -/
def instructions (t : Trace) : Set Ref :=
  {r | Ref.first ≤ r ∧ r < t.nins}

/-- The instructions after `BASE` that have the opcode. -/
def occurrences (t : Trace) (op : Opcode) : Set Ref :=
  {r | r ∈ t.instructions ∧ ∃ x, t.record? r = .ok x ∧ x.op = op}

/-- The constants on their side of the border, but for the fixed ones. -/
def internedConstants (t : Trace) : Set Ref :=
  {r | r.isConst = true ∧ ¬ r.IsFixed ∧ ∃ x, t.record? r = .ok x ∧ x.op.isConst = true}

/-- Counting a set by a list of its members. -/
private theorem ncard_eq_length {s : Set Ref} {refs : List Ref} (hnodup : refs.Nodup)
    (hmem : ∀ r, r ∈ refs ↔ r ∈ s) : s.ncard = refs.length := by
  have hset : s = (refs.toFinset : Set Ref) := by
    ext r
    rw [Finset.mem_coe, List.mem_toFinset, hmem]
  rw [hset, Set.ncard_coe_finset, List.toFinset_card_of_nodup hnodup]

/-- The instructions after `BASE`, oldest first. -/
def laterRefs (t : Trace) : List Ref :=
  (List.range (t.nins.toNat - Ref.first.toNat)).map fun i => Ref.first + UInt32.ofNat i

private theorem Laid.nodup_laterRefs (h : t.Laid) : t.laterRefs.Nodup := by
  have hlimit := UInt32.le_iff_toNat_le.mp h.nins_le
  rw [Ref.toNat_limit] at hlimit
  refine List.Nodup.map_on (fun i hi j hj heq => ?_) List.nodup_range
  exact Ref.ofNat_injOn (by omega) i hi j hj ((UInt32.add_right_inj _).mp heq)

private theorem Laid.mem_laterRefs_iff (h : t.Laid) : r ∈ t.laterRefs ↔ r ∈ t.instructions :=
  Dump.mem_map_range_iff h.nins_le

private theorem Laid.ncard_instructions (h : t.Laid) :
    t.instructions.ncard = t.nins.toNat - Ref.first.toNat := by
  rw [ncard_eq_length h.nodup_laterRefs fun r => h.mem_laterRefs_iff, laterRefs, List.length_map,
    List.length_range]

/-- What lies between the lowest constant and the fixed ones are the interned ones. -/
private theorem RespectsBorder.mem_constantRefs_iff (h : t.RespectsBorder) :
    r ∈ Dump.constantRefs t ↔ r ∈ t.internedConstants := by
  have hborder : Ref.true < Ref.base := by decide
  rw [Dump.mem_constantRefs_iff h.laid]
  constructor
  · rintro ⟨hlow, htrue⟩
    obtain ⟨x, hx⟩ := h.laid.exists_record
      ⟨hlow, UInt32.lt_trans htrue (UInt32.lt_trans hborder h.laid.base_lt)⟩
    have hconst : r.isConst = true := by
      rw [Ref.isConst_iff]
      rw [UInt32.lt_iff_toNat_lt, Ref.toNat_true] at htrue
      omega
    refine ⟨hconst, ?_, x, record?_eq_ok_iff.mpr hx, h.view.constant hx hconst⟩
    rw [Ref.isFixed_iff]
    exact fun hfixed => absurd htrue (UInt32.not_lt.mpr hfixed.1)
  · rintro ⟨hconst, hfixed, x, hx, -⟩
    have hlive := (t.isLive_iff r).mp (isLive_of_record? hx)
    refine ⟨hlive.1, UInt32.not_le.mp fun htrue => hfixed (Ref.isFixed_iff.mpr ⟨htrue, ?_⟩)⟩
    rw [UInt32.lt_iff_toNat_lt, Ref.toNat_base]
    exact (Ref.isConst_iff r).mp hconst

private theorem RespectsBorder.ncard_internedConstants (h : t.RespectsBorder) :
    t.internedConstants.ncard = Ref.true.toNat - t.nk.toNat := by
  have hnodup : (Dump.constantRefs t).Nodup := by
    refine List.Nodup.map_on (fun i hi j hj heq => ?_) List.nodup_range
    refine Ref.ofNat_injOn ?_ i hi j hj ((UInt32.sub_right_inj _).mp heq)
    rw [Ref.toNat_true]
    omega
  rw [ncard_eq_length hnodup fun r => h.mem_constantRefs_iff, Dump.constantRefs, List.length_map,
    List.length_range]

/-! ### Counting -/

/-- The opcode of the record at a reference, `NOP` if there is none. -/
def opcodeAt (t : Trace) (r : Ref) : Opcode :=
  match t.record? r with
  | .ok x => x.op
  | .error _ => .nop

private theorem opcodeAt_of_ok {x : Record} (h : t.record? r = .ok x) : t.opcodeAt r = x.op := by
  rw [opcodeAt, h]

private theorem Laid.exists_record?_of_mem (h : t.Laid) (hr : r ∈ t.instructions) :
    ∃ x, t.record? r = .ok x := by
  obtain ⟨hfirst, hnins⟩ := hr
  have hborder : Ref.true ≤ Ref.first := by decide
  obtain ⟨x, hx⟩ := h.exists_record
    ⟨UInt32.le_trans h.nk_le (UInt32.le_trans hborder hfirst), hnins⟩
  exact ⟨x, record?_eq_ok_iff.mpr hx⟩

/-- Every instruction is counted under its opcode. -/
private theorem Laid.opcodes_eq (h : t.Laid) :
    Histogram.opcodes t = .ok (t.laterRefs.map t.opcodeAt) := by
  refine mapM_eq_ok_map fun r hr => ?_
  obtain ⟨x, hx⟩ := h.exists_record?_of_mem (h.mem_laterRefs_iff.mp hr)
  rw [hx, opcodeAt_of_ok hx]
  rfl

/-- **Counting is exact.** -/
theorem Laid.count_opcodes (h : t.Laid) (op : Opcode) :
    (t.laterRefs.map t.opcodeAt).count op = (t.occurrences op).ncard := by
  have hnodup : (t.laterRefs.filter fun r => t.opcodeAt r == op).Nodup :=
    h.nodup_laterRefs.filter _
  rw [ncard_eq_length hnodup fun r => ?_, List.count, List.countP_map, List.countP_eq_length_filter]
  · rfl
  · rw [List.mem_filter, h.mem_laterRefs_iff, beq_iff_eq]
    refine and_congr_right fun hr => ?_
    obtain ⟨x, hx⟩ := h.exists_record?_of_mem hr
    rw [opcodeAt_of_ok hx]
    constructor
    · intro hop
      exact ⟨x, hx, hop⟩
    · rintro ⟨y, hy, hop⟩
      obtain rfl := Except.ok.inj (hx.symm.trans hy)
      exact hop

end Trace

namespace Histogram

/-! ### Printed rows -/

/-- The line above the rows. -/
def heading (f : Formatter) (instructions constants : Nat) : Bytes :=
  Bytes.ascii "---- stats: " ++ f.number 0 instructions ++ Bytes.ascii " ins "
    ++ f.number 0 constants ++ Bytes.ascii " consts\n"

/-- The printed form of a histogram with some rows. -/
def written (f : Formatter) (instructions constants : Nat) (rows : List (Opcode × Nat)) : Bytes :=
  heading f instructions constants ++ rows.flatMap fun row => countLine row.1 row.2 f

section

variable {f : Formatter} (hf : f.WritesDecimals)
include hf

/-- **The line above the rows** shows both numbers. -/
theorem heading_injective {i c i' c' : Nat} (h : heading f i c = heading f i' c') :
    i = i' ∧ c = c' := by
  have hbreaks : ∀ b, Bytes.Breaks (Bytes.ascii " ins " ++ b) := fun b => Bytes.breaks_cons _
  simp only [heading, List.append_assoc] at h
  obtain ⟨hi, hrest⟩ := hf.isWord.append_inj hf.isWord (hbreaks _) (hbreaks _)
    (List.append_cancel_left h)
  have hc := List.append_cancel_right (List.append_cancel_left hrest)
  exact ⟨hf.injective hi, hf.injective hc⟩

private theorem isLine_heading (i c : Nat) : (heading f i c).IsLine := by
  have hend : Bytes.ascii " consts\n" = Bytes.ascii " consts" ++ [0x0a] := by decide
  unfold heading
  rw [hend, ← List.append_assoc]
  refine ⟨_, rfl, ?_⟩
  simp only [List.mem_append, not_or]
  exact ⟨⟨⟨⟨by decide, hf.isWord.newline_notMem⟩, by decide⟩, hf.isWord.newline_notMem⟩,
    by decide⟩

omit hf in
private theorem breaks_padding (n : Nat) (b : Bytes) :
    Bytes.Breaks (List.replicate n 0x20 ++ (Bytes.ascii " " ++ b)) := by
  cases n with
  | zero => exact Bytes.breaks_cons b
  | succ n => exact Bytes.breaks_cons _

/-- **The line of a row** shows the opcode and its number. -/
theorem countLine_injective {op op' : Opcode} {n n' : Nat}
    (h : countLine op n f = countLine op' n' f) : op = op' ∧ n = n' := by
  simp only [countLine, Dump.opcodeColumn, Bytes.padRight, List.append_assoc] at h
  obtain ⟨hname, hrest⟩ := op.nameBytes_word.1.append_inj op'.nameBytes_word.1
    (breaks_padding _ _) (breaks_padding _ _) h
  obtain rfl := Opcode.nameBytes_injective hname
  -- behind the same name there are as many spaces
  have hnumber := List.append_cancel_left (List.append_cancel_left hrest)
  exact ⟨rfl, hf.injective (List.append_cancel_right hnumber)⟩

private theorem isLine_countLine (op : Opcode) (n : Nat) : (countLine op n f).IsLine := by
  refine ⟨_, rfl, ?_⟩
  simp only [Dump.opcodeColumn, Bytes.padRight, List.mem_append, not_or]
  refine ⟨⟨⟨op.nameBytes_word.1.newline_notMem, fun hmem => ?_⟩, by decide⟩,
    hf.isWord.newline_notMem⟩
  cases List.eq_of_mem_replicate hmem

/-- **A printed histogram** shows its numbers and its rows. -/
theorem written_injective {i c i' c' : Nat} {rows rows' : List (Opcode × Nat)}
    (h : written f i c rows = written f i' c' rows') : i = i' ∧ c = c' ∧ rows = rows' := by
  have hlines : ∀ (i c : Nat) (rows : List (Opcode × Nat)),
      ∀ l ∈ heading f i c :: rows.map (fun row => countLine row.1 row.2 f), l.IsLine := by
    intro i c rows
    rw [List.forall_mem_cons, List.forall_mem_map]
    exact ⟨isLine_heading hf i c, fun row _ => isLine_countLine hf row.1 row.2⟩
  obtain ⟨hheading, hrows⟩ := List.cons.inj
    (Bytes.flatten_injective (hlines i c rows) (hlines i' c' rows') h)
  obtain ⟨rfl, rfl⟩ := heading_injective hf hheading
  refine ⟨rfl, rfl, List.map_injective_iff.mpr (fun a b hab => ?_) hrows⟩
  obtain ⟨hop, hn⟩ := countLine_injective hf hab
  exact Prod.ext hop hn

end

/-! ### The histogram of a trace -/

/-- The rows that come out of a heap into which the opcodes that occur in the trace were put, each
with its number. -/
def Listed (heap : Heap (Opcode × Nat)) (t : Trace) (rows : List (Opcode × Nat)) : Prop :=
  ∃ ops, opcodes t = .ok ops ∧ heap.Drains (heap.ofList (entries ops)) rows

/-- The rows say how often every opcode occurs in the trace. -/
structure CountsExactly (t : Trace) (rows : List (Opcode × Nat)) : Prop where
  mem_iff : ∀ op n, (op, n) ∈ rows ↔ (t.occurrences op).ncard = n ∧ 0 < n
  once : (rows.map Prod.fst).Nodup
  ordered : rows.Pairwise RowPrecedes
  sum_eq : (rows.map Prod.snd).sum = t.instructions.ncard

variable {t : Trace}

private theorem text_eq (h : t.RespectsBorder) (f : Formatter) :
    text t f = .ok (written f t.instructions.ncard t.internedConstants.ncard
      (counts (t.laterRefs.map t.opcodeAt))) := by
  have hfirst : Ref.first ≤ t.nins := by
    have hbase := h.laid.base_lt
    grind
  rw [text, h.laid.opcodes_eq, h.laid.ncard_instructions, h.ncard_internedConstants,
    UInt32.toNat_sub_of_le _ _ hfirst, UInt32.toNat_sub_of_le _ _ h.laid.nk_le]
  rfl

private theorem countsExactly_counts (h : t.Laid) :
    CountsExactly t (counts (t.laterRefs.map t.opcodeAt)) where
  mem_iff op n := by
    rw [(counts_perm _).mem_iff, mem_entries_iff, h.count_opcodes]
  once := nodup_counts _
  ordered := pairwise_counts _
  sum_eq := by
    rw [sum_counts, List.length_map, Trace.ncard_eq_length h.nodup_laterRefs fun r =>
      h.mem_laterRefs_iff]

/-- Whatever heap is used, the rows that come out of it are those of the histogram. -/
private theorem listed_iff (h : t.Laid) {heap : Heap (Opcode × Nat)}
    {contents : heap.State → List (Opcode × Nat)} (hheap : heap.PopsLeast RowPrecedes contents)
    (rows : List (Opcode × Nat)) :
    Listed heap t rows ↔ rows = counts (t.laterRefs.map t.opcodeAt) := by
  have hdrains := hheap.drains_iff (fun _ _ => eq_of_not_precedes)
    ((counts_perm _).trans (hheap.contents_ofList _).symm)
    ((pairwise_counts (t.laterRefs.map t.opcodeAt)).imp RowPrecedes.asymm) rows
  rw [← hdrains]
  constructor
  · rintro ⟨ops, hops, hrows⟩
    obtain rfl := Except.ok.inj (h.opcodes_eq.symm.trans hops)
    exact hrows
  · exact fun hrows => ⟨_, h.opcodes_eq, hrows⟩

end Histogram

namespace Trace

variable {t : Trace}

/-- **Histograms are exact and ordered.** Whatever was done to a trace, its histogram is printed. It
has one row for every opcode that occurs among the instructions after `BASE` and no others. The rows
have the exact numbers, and come in the order of these and then of the opcodes. Above them stand the
sum of the numbers, which is that of the instructions, and the number of interned constants; the
text cannot be read in another way. Any heap that hands out a least row leads to these rows and to
no others, and any formatter that writes numbers in base ten will do. -/
theorem Manipulated.histogram_exact (h : Manipulated t) {heap : Heap (Opcode × Nat)}
    {contents : heap.State → List (Opcode × Nat)}
    (hheap : heap.PopsLeast Histogram.RowPrecedes contents) {f : Formatter}
    (hf : f.WritesDecimals) :
    ∃ rows, (∀ l, Histogram.Listed heap t l ↔ l = rows) ∧
      (∀ i c l, Histogram.text t f = .ok (Histogram.written f i c l) ↔
        i = (rows.map Prod.snd).sum ∧ c = t.internedConstants.ncard ∧ l = rows) ∧
      Histogram.CountsExactly t rows := by
  have hborder := h.respectsBorder
  have hexact := Histogram.countsExactly_counts hborder.laid
  refine ⟨_, Histogram.listed_iff hborder.laid hheap, fun i c l => ?_, hexact⟩
  rw [hexact.sum_eq, Histogram.text_eq hborder]
  constructor
  · intro htext
    exact Histogram.written_injective hf (Except.ok.inj htext).symm
  · rintro ⟨rfl, rfl, rfl⟩
    rfl

end Trace

/-! ### A heap that searches -/

namespace Histogram

/-- The first of some rows. -/
def foremost (row : Opcode × Nat) : List (Opcode × Nat) → Opcode × Nat
  | [] => row
  | r :: rows => foremost (if RowPrecedes r row then r else row) rows

private theorem foremost_mem (rows : List (Opcode × Nat)) :
    ∀ row, foremost row rows ∈ row :: rows := by
  induction rows with
  | nil => exact fun row => List.mem_singleton_self row
  | cons r rows ih =>
    intro row
    have hmem := ih (if RowPrecedes r row then r else row)
    rw [List.mem_cons] at hmem
    rcases hmem with heq | hmem
    · rw [foremost, heq]
      split
      · exact List.mem_cons_of_mem _ List.mem_cons_self
      · exact List.mem_cons_self
    · exact List.mem_cons_of_mem _ (List.mem_cons_of_mem _ hmem)

private theorem not_precedes_foremost (rows : List (Opcode × Nat)) :
    ∀ row, ∀ a ∈ row :: rows, ¬ RowPrecedes a (foremost row rows) := by
  induction rows with
  | nil =>
    intro row a ha
    obtain rfl := List.mem_singleton.mp ha
    exact fun h => h.asymm h
  | cons r rows ih =>
    intro row a ha
    -- the search goes on with the first of `row` and `r`
    have hbest := ih (if RowPrecedes r row then r else row)
    rw [foremost]
    generalize foremost _ rows = m at hbest ⊢
    have hhead := hbest _ List.mem_cons_self
    rcases List.mem_cons.mp ha with rfl | ha
    · split at hhead
      · next hr => exact fun h => hhead (hr.trans h)
      · exact hhead
    rcases List.mem_cons.mp ha with rfl | ha
    · split at hhead
      · exact hhead
      · next hr =>
        intro h
        by_cases hm : RowPrecedes m row
        · exact hr (h.trans hm)
        · obtain rfl := eq_of_not_precedes hhead hm
          exact hr h
    · exact hbest a (List.mem_cons_of_mem _ ha)

/-- A heap that keeps its rows as they come and searches them for the first one. -/
def searching : Heap (Opcode × Nat) where
  State := List (Opcode × Nat)
  empty := []
  push s a := a :: s
  size s := s.length
  pop
    | [] => ((.nop, 0), [])
    | a :: s => (foremost a s, (a :: s).erase (foremost a s))

private theorem popsLeast_searching : searching.PopsLeast RowPrecedes id where
  empty := rfl
  push _ _ := .refl _
  size _ := rfl
  pop s hs := by
    cases s with
    | nil => exact absurd rfl hs
    | cons a s => exact List.perm_cons_erase (foremost_mem s a)
  least s hs := by
    cases s with
    | nil => exact absurd rfl hs
    | cons a s => exact not_precedes_foremost s a

end Histogram

namespace Trace

/-- Two loads that stay, two instructions that nobody needs, a constant among the instructions that
stays because it is marked as a guard, and a pass that eliminates dead code. -/
def mixedManipulations : List Manipulation :=
  [.move (.step (.intern (.int 7))), .move (.emitRaw .sload Ty.int 1 0),
    .move (.emitRaw .add Ty.int Ref.nil Ref.nil),
    .move (.emitRaw .knull Ty.int.guarded Ref.none Ref.none), .move (.emitRaw .sload Ty.int 2 0),
    .move (.emitRaw .mul Ty.int Ref.nil Ref.nil), .eliminate]

/-- The pass leaves two `NOP`s, as many as there are loads, and they come first because their opcode
does. -/
theorem histogram_exact_of_mixedManipulations :
    ∃ t, Manipulated t ∧ Histogram.searching.PopsLeast Histogram.RowPrecedes id ∧
      Histogram.opcodes t = .ok [.sload, .nop, .knull, .sload, .nop] ∧
      Histogram.text t =
        .ok (Histogram.written .decimal 5 1 [(.nop, 2), (.sload, 2), (.knull, 1)]) ∧
      Histogram.CountsExactly t [(.nop, 2), (.sload, 2), (.knull, 1)] := by
  obtain ⟨t₀, hstart⟩ : ∃ t, start {} {} = .ok t := ⟨_, rfl⟩
  have hmanipulated : Manipulated (t₀.manipulateAll mixedManipulations) :=
    (Manipulated.start hstart).manipulateAll _
  have hops : Histogram.opcodes (t₀.manipulateAll mixedManipulations) =
      .ok [.sload, .nop, .knull, .sload, .nop] := by
    cases hstart
    decide +kernel
  have hnk : (t₀.manipulateAll mixedManipulations).nk = Ref.true - 1 := by
    cases hstart
    decide +kernel
  generalize t₀.manipulateAll mixedManipulations = t at hmanipulated hops hnk
  have hentries : Histogram.entries [.sload, .nop, .knull, .sload, .nop] =
      [(.nop, 2), (.knull, 1), (.sload, 2)] := by decide +kernel
  have hlisted : Histogram.Listed Histogram.searching t
      [(.nop, 2), (.sload, 2), (.knull, 1)] := by
    refine ⟨_, hops, ?_⟩
    rw [hentries]
    exact .pop (by decide) (.pop (by decide) (.pop (by decide) (.done (by decide))))
  have hconstants : t.internedConstants.ncard = 1 := by
    rw [hmanipulated.respectsBorder.ncard_internedConstants, hnk]
    rfl
  obtain ⟨rows, hrows, htext, hexact⟩ := hmanipulated.histogram_exact
    Histogram.popsLeast_searching Formatter.writesDecimals_decimal
  obtain rfl := (hrows _).mp hlisted
  have hprinted := (htext 5 1 _).mpr ⟨rfl, hconstants.symm, rfl⟩
  exact ⟨t, hmanipulated, Histogram.popsLeast_searching, hops, hprinted, hexact⟩

end Trace

end TraceIR
