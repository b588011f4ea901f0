import TraceIR.Proofs.BitSet
import TraceIR.Proofs.Recording
import TraceIR.Trace.DeadCode

/-!
# Needed instructions

Which instructions a trace needs, said as a least set, and how the backward walk finds them with
one set of marks.

* `Trace.Needed` — what snapshots name, guards and side effects, and the operands of all that.
* `Trace.Sweepable` — a trace that dead code elimination is made for. `Trace.Grounded` is the part
  of it that does not speak of `NOP`s.
* `Trace.Kept` — what the walk keeps in any trace. It passes each instruction once, so an operand
  that is newer than its user is not kept for that. In a grounded trace there are no such operands,
  and what is kept is what is needed (`Grounded.kept_iff_needed`).
* `kept_iff` — an instruction is kept if it is a guard, has a side effect, or is demanded by a
  snapshot or by a newer instruction that is kept (`Trace.Demanded`). The marks say who is demanded:
  `Sweep.marked_keep` and `exists_needSnapshots`.
-/

namespace TraceIR

/-- The instruction `r` is an operand of the record. -/
def Record.HasOperand (x : Record) (r : Ref) : Prop :=
  r.isConst = false ∧
    (x.op.shape.left = .ref ∧ x.left = r ∨ x.op.shape.right = .ref ∧ x.right = r)

/-- The reference, of a constant or of an instruction, is an operand of the record. -/
def Record.RefersTo (x : Record) (r : Ref) : Prop :=
  x.op.shape.left = .ref ∧ x.left = r ∨ x.op.shape.right = .ref ∧ x.right = r

namespace Trace

/-- The record at `u` has the instruction `r` as an operand. -/
def Uses (t : Trace) (u r : Ref) : Prop :=
  ∃ x, t.record? u = .ok x ∧ x.HasOperand r

/-- The least set of instructions that holds those named by a snapshot, the guards and the ones
with a side effect, and with each instruction its operands. -/
inductive Needed (t : Trace) : Ref → Prop
  | snapshot {refs : List Ref} {r : Ref} (hrefs : refs ∈ t.snapshots) (hr : r ∈ refs)
      (hins : r.isConst = false) : Needed t r
  | root {r : Ref} {x : Record} (hr : Ref.first ≤ r) (hx : t.record? r = .ok x)
      (hroot : x.ty.isGuard = true ∨ x.op.hasSideEffect = true) : Needed t r
  | operand {u r : Ref} (hu : Needed t u) (huse : t.Uses u r) : Needed t r

/-- A sound trace without `NOP`s whose snapshots and operands refer to what is there: snapshots to
live references, and instructions to older ones. -/
structure Sweepable (t : Trace) : Prop where
  sound : t.Sound
  op_ne_nop : ∀ {r x}, Ref.base ≤ r → t.record? r = .ok x → x.op ≠ .nop
  snapshot_lt : ∀ refs ∈ t.snapshots, ∀ r ∈ refs, r < t.nins
  operand_lt : ∀ {u r}, Ref.base ≤ u → t.Uses u r → r < u

/-- A sound trace whose snapshots and operands refer to what is there. It may hold `NOP`s. -/
structure Grounded (t : Trace) : Prop where
  sound : t.Sound
  snapshot_lt : ∀ refs ∈ t.snapshots, ∀ r ∈ refs, r < t.nins
  operand_lt : ∀ {u r}, Ref.base ≤ u → t.Uses u r → r < u

theorem Sweepable.grounded {t : Trace} (h : t.Sweepable) : t.Grounded :=
  ⟨h.sound, h.snapshot_lt, h.operand_lt⟩

/-- The least set of instructions that holds those named by a snapshot, the guards and the ones
with a side effect, and with each instruction its older operands. -/
inductive Kept (t : Trace) : Ref → Prop
  | snapshot {refs : List Ref} {r : Ref} (hrefs : refs ∈ t.snapshots) (hr : r ∈ refs)
      (hins : r.isConst = false) : Kept t r
  | root {r : Ref} {x : Record} (hr : Ref.first ≤ r) (hx : t.record? r = .ok x)
      (hroot : x.ty.isGuard = true ∨ x.op.hasSideEffect = true) : Kept t r
  | operand {u r : Ref} (hfirst : Ref.first ≤ u) (hu : Kept t u) (huse : t.Uses u r)
      (hlt : r < u) : Kept t r

/-- A snapshot names `r`, or an instruction from `bound` on that is kept has it as an operand. -/
def Demanded (t : Trace) (r bound : Ref) : Prop :=
  (∃ refs ∈ t.snapshots, r ∈ refs) ∨ ∃ u, bound ≤ u ∧ t.Kept u ∧ t.Uses u r

theorem isConst_eq_false_of_le {r : Ref} (h : Ref.base ≤ r) : r.isConst = false := by
  rw [Ref.isConst_eq_false_iff]
  exact UInt32.le_iff_toNat_le.mp h

theorem base_le_of_not_const {r : Ref} (h : r.isConst = false) : Ref.base ≤ r := by
  rw [Ref.isConst_eq_false_iff] at h
  exact UInt32.le_iff_toNat_le.mpr h

theorem base_le_of_first_le {r : Ref} (h : Ref.first ≤ r) : Ref.base ≤ r :=
  UInt32.le_trans (by decide) h

/-- Only instructions are needed. -/
theorem Needed.base_le {t : Trace} {r : Ref} (h : t.Needed r) : Ref.base ≤ r := by
  cases h with
  | snapshot _ _ hins => exact base_le_of_not_const hins
  | root hr => exact base_le_of_first_le hr
  | operand _ huse =>
    obtain ⟨x, -, hop⟩ := huse
    exact base_le_of_not_const hop.1

/-- In a grounded trace what is needed is kept, and nothing else. -/
theorem Grounded.kept_iff_needed {t : Trace} (h : t.Grounded) {r : Ref} : t.Kept r ↔ t.Needed r := by
  constructor
  · intro hkept
    induction hkept with
    | snapshot hrefs hr hins => exact .snapshot hrefs hr hins
    | root hr hx hroot => exact .root hr hx hroot
    | operand _ _ huse _ ih => exact .operand ih huse
  · intro hneeded
    induction hneeded with
    | snapshot hrefs hr hins => exact .snapshot hrefs hr hins
    | root hr hx hroot => exact .root hr hx hroot
    | @operand u r hu huse ih =>
      have hlt := h.operand_lt hu.base_le huse
      -- nothing is older than `BASE`, so `BASE` has no operands
      obtain ⟨x, hx, hins, hop⟩ := huse
      have hbase := base_le_of_not_const hins
      exact .operand (by grind) ih ⟨x, hx, hins, hop⟩ hlt

/-- One more instruction adds its own demands. -/
theorem demanded_iff {t : Trace} {q r : Ref} (hr : r < Ref.limit) :
    t.Demanded q r ↔ t.Demanded q (r + 1) ∨ t.Kept r ∧ t.Uses r q := by
  rw [Demanded, Demanded, or_assoc]
  refine or_congr_right ⟨?_, ?_⟩
  · rintro ⟨u, hu, hkept, huse⟩
    by_cases hur : u = r
    · subst hur
      exact .inr ⟨hkept, huse⟩
    · have hlt := UInt32.lt_of_le_of_ne hu (Ne.symm hur)
      exact .inl ⟨u, (Ref.succ_le_iff hr).mpr hlt, hkept, huse⟩
  · rintro (⟨u, hu, hkept, huse⟩ | ⟨hkept, huse⟩)
    · exact ⟨u, UInt32.le_of_lt ((Ref.succ_le_iff hr).mp hu), hkept, huse⟩
    · exact ⟨r, UInt32.le_rfl, hkept, huse⟩

theorem uses_iff {t : Trace} {q r : Ref} {x : Record} (hx : t.view.record r = some x) :
    t.Uses r q ↔ x.HasOperand q := by
  refine ⟨?_, fun hop => ⟨x, record?_eq_ok_iff.mpr hx, hop⟩⟩
  rintro ⟨y, hy, hop⟩
  rw [record?_eq_ok_iff, hx] at hy
  obtain rfl := Option.some.inj hy
  exact hop

/-- **Backward liveness.** Whether an instruction is kept can be told from the newer ones. -/
theorem kept_iff {t : Trace} {r : Ref} {x : Record} (hr : Ref.first ≤ r) (hlimit : r < Ref.limit)
    (hx : t.record? r = .ok x) :
    t.Kept r ↔ t.Demanded r (r + 1) ∨ x.ty.isGuard = true ∨ x.op.hasSideEffect = true := by
  constructor
  · intro hkept
    cases hkept with
    | snapshot hrefs hmem _ => exact .inl (.inl ⟨_, hrefs, hmem⟩)
    | root _ hy hroot =>
      obtain rfl := Except.ok.inj (hx.symm.trans hy)
      exact .inr hroot
    | operand _ hu huse hlt =>
      exact .inl (.inr ⟨_, (Ref.succ_le_iff hlimit).mpr hlt, hu, huse⟩)
  · rintro ((⟨refs, hrefs, hmem⟩ | ⟨u, hle, hu, huse⟩) | hroot)
    · exact .snapshot hrefs hmem (isConst_eq_false_of_le (base_le_of_first_le hr))
    · have hlt := (Ref.succ_le_iff hlimit).mp hle
      exact .operand (UInt32.le_of_lt (UInt32.lt_of_le_of_lt hr hlt)) hu huse hlt
    · exact .root hr hx hroot

/-! ### Marks -/

namespace Sweep

/-- The set of marks begins at `BASE`, and its words are in order. -/
structure Ready (s : Sweep) : Prop where
  ordered : s.needed.Ordered
  base : s.needed.base = key Ref.base

/-- The instruction is marked. -/
def Marked (s : Sweep) (r : Ref) : Prop :=
  s.needed.contains (key r) = true

private theorem key_inj {q r : Ref} : key q = key r ↔ q = r := by
  rw [key, key, Int.ofNat_inj, UInt32.toNat_inj]

variable {s : Sweep} {r : Ref}

private theorem Ready.base_le (hs : s.Ready) (hr : r.isConst = false) : s.needed.base ≤ key r := by
  rw [hs.base, key, key]
  exact Int.ofNat_le.mpr ((Ref.isConst_eq_false_iff r).mp hr)

private theorem Ready.offset_lt (hs : s.Ready) (r : Ref) :
    s.needed.offset (key r) < BitSet.distanceLimit := by
  have hr := r.toNat_lt
  rw [BitSet.offset, hs.base, key, key, Ref.toNat_base]
  unfold BitSet.distanceLimit
  omega

private theorem Ready.need (hs : s.Ready) (hr : r.isConst = false) : (s.need r).Ready where
  ordered := hs.ordered.insert (hs.base_le hr) (hs.offset_lt r)
  base := (BitSet.base_insert (hs.base_le hr) (hs.offset_lt r)).trans hs.base

private theorem marked_need (hs : s.Ready) (hr : r.isConst = false) (q : Ref) :
    (s.need r).Marked q ↔ s.Marked q ∨ q = r := by
  rw [Marked, need, BitSet.contains_insert hs.ordered (hs.base_le hr) (hs.offset_lt r), key_inj]
  rfl

private theorem Ready.needOperand (hs : s.Ready) (kind : OperandKind) (r : Ref) :
    (s.needOperand kind r).Ready := by
  rw [Sweep.needOperand]
  by_cases hop : kind = .ref ∧ (!r.isConst) = true
  · rw [if_pos hop]
    exact hs.need (by simpa using hop.2)
  · rw [if_neg hop]
    exact hs

private theorem marked_needOperand (hs : s.Ready) (kind : OperandKind) (r q : Ref) :
    (s.needOperand kind r).Marked q ↔
      s.Marked q ∨ q.isConst = false ∧ kind = .ref ∧ r = q := by
  rw [needOperand]
  by_cases hop : kind = .ref ∧ (!r.isConst) = true
  · have hr : r.isConst = false := by simpa using hop.2
    rw [if_pos hop, marked_need hs hr]
    refine or_congr_right ⟨?_, fun hq => hq.2.2.symm⟩
    rintro rfl
    exact ⟨hr, hop.1, rfl⟩
  · rw [if_neg hop]
    refine ⟨.inl, fun hq => hq.resolve_right ?_⟩
    rintro ⟨hconst, hkind, rfl⟩
    exact hop ⟨hkind, by rw [hconst]; rfl⟩

@[simp] theorem needOperand_links (s : Sweep) (kind : OperandKind) (r : Ref) :
    (s.needOperand kind r).links = s.links := by
  rw [needOperand]
  split
  · rfl
  · rfl

@[simp] theorem needOperand_removed (s : Sweep) (kind : OperandKind) (r : Ref) :
    (s.needOperand kind r).removed = s.removed := by
  rw [needOperand]
  split
  · rfl
  · rfl

theorem Ready.keep (hs : s.Ready) (r : Ref) (x : Record) : (s.keep r x).Ready := by
  have hlinked : { s with links := s.links.set x.op r : Sweep }.Ready := ⟨hs.ordered, hs.base⟩
  exact (hlinked.needOperand _ _).needOperand _ _

/-- Keeping an instruction marks its operands. -/
theorem marked_keep (hs : s.Ready) (r : Ref) (x : Record) (q : Ref) :
    (s.keep r x).Marked q ↔ s.Marked q ∨ x.HasOperand q := by
  have hlinked : { s with links := s.links.set x.op r : Sweep }.Ready := ⟨hs.ordered, hs.base⟩
  rw [Sweep.keep, marked_needOperand (hlinked.needOperand _ _), marked_needOperand hlinked,
    Record.HasOperand, or_assoc, ← and_or_left]
  rfl

@[simp] theorem keep_links (s : Sweep) (r : Ref) (x : Record) :
    (s.keep r x).links = s.links.set x.op r := by
  simp [keep]

@[simp] theorem keep_removed (s : Sweep) (r : Ref) (x : Record) :
    (s.keep r x).removed = s.removed := by
  simp [keep]

/-- Forget the mark of an instruction. -/
def forget (s : Sweep) (r : Ref) : Sweep :=
  { s with needed := s.needed.erase (key r) }

theorem Ready.forget (hs : s.Ready) (r : Ref) : (s.forget r).Ready :=
  ⟨hs.ordered.erase _, (BitSet.base_erase ..).trans hs.base⟩

theorem marked_forget (hs : s.Ready) (hr : r.isConst = false) (q : Ref) :
    (s.forget r).Marked q ↔ s.Marked q ∧ q ≠ r := by
  rw [Marked, forget, BitSet.contains_erase hs.ordered (hs.base_le hr), Ne, key_inj]
  rfl

end Sweep

/-- What marking snapshots leaves alone. -/
structure Sweep.OnlyMarks (s s' : Sweep) (new : Ref → Prop) : Prop where
  ready : s'.Ready
  marked : ∀ q, s'.Marked q ↔ s.Marked q ∨ q.isConst = false ∧ new q
  links : s'.links = s.links
  removed : s'.removed = s.removed

/-- A snapshot whose references lie below the end marks its instructions. -/
private theorem exists_needSnapshot (index : Nat) {high : Ref} (refs : List Ref) :
    ∀ {s : Sweep}, s.Ready → (∀ r ∈ refs, r < high) →
      ∃ s', needSnapshot index high s refs = .ok s' ∧ s.OnlyMarks s' (· ∈ refs) := by
  induction refs with
  | nil => exact fun hs _ => ⟨_, rfl, hs, fun q => by simp, rfl, rfl⟩
  | cons r refs ih =>
    intro s hs hrefs
    obtain ⟨hr, hrest⟩ := List.forall_mem_cons.mp hrefs
    rw [needSnapshot]
    cases hconst : r.isConst with
    | true =>
      obtain ⟨s', hrun, hmarks⟩ := ih hs hrest
      refine ⟨s', by rw [if_pos rfl, hrun], hmarks.ready, fun q => ?_, hmarks.links,
        hmarks.removed⟩
      -- a constant has no mark
      rw [hmarks.marked, List.mem_cons]
      refine or_congr_right (and_congr_right fun hq => ⟨.inr, fun hmem => hmem.resolve_left ?_⟩)
      rintro rfl
      rw [hconst] at hq
      cases hq
    | false =>
      obtain ⟨s', hrun, hmarks⟩ := ih (hs.need hconst) hrest
      refine ⟨s', ?_, hmarks.ready, fun q => ?_, hmarks.links, hmarks.removed⟩
      · rw [if_neg (by decide), if_neg (UInt32.not_le.mpr hr), hrun]
      · rw [hmarks.marked, Sweep.marked_need hs hconst, List.mem_cons, or_assoc, and_or_left]
        refine or_congr_right (or_congr_left ⟨?_, And.right⟩)
        rintro rfl
        exact ⟨hconst, rfl⟩

private theorem exists_foldlM_needSnapshot {high : Ref} (l : List (List Ref × Nat)) :
    ∀ {s : Sweep}, s.Ready → (∀ p ∈ l, ∀ r ∈ p.1, r < high) →
      ∃ s', l.foldlM (fun s (refs, i) => needSnapshot i high s refs) s = .ok s' ∧
        s.OnlyMarks s' fun q => ∃ p ∈ l, q ∈ p.1 := by
  induction l with
  | nil => exact fun hs _ => ⟨_, rfl, hs, fun q => by simp, rfl, rfl⟩
  | cons p l ih =>
    intro s hs hl
    obtain ⟨hp, hrest⟩ := List.forall_mem_cons.mp hl
    obtain ⟨s₁, hrun₁, hmarks₁⟩ := exists_needSnapshot p.2 p.1 hs hp
    obtain ⟨s₂, hrun₂, hmarks₂⟩ := ih hmarks₁.ready hrest
    refine ⟨s₂, ?_, hmarks₂.ready, fun q => ?_, hmarks₂.links.trans hmarks₁.links,
      hmarks₂.removed.trans hmarks₁.removed⟩
    · rw [List.foldlM_cons]
      show (needSnapshot p.2 high s p.1 >>= fun s => List.foldlM _ s l) = _
      rw [hrun₁]
      exact hrun₂
    · rw [hmarks₂.marked, hmarks₁.marked, or_assoc, ← and_or_left, List.exists_mem_cons_iff]

/-- The walk begins with what snapshots name. -/
theorem exists_needSnapshots {t : Trace}
    (h : ∀ refs ∈ t.snapshots, ∀ r ∈ refs, r < t.nins) :
    ∃ s, t.needSnapshots = .ok s ∧ s.Ready ∧ s.links = .empty ∧ s.removed = 0 ∧
      ∀ q, s.Marked q ↔ q.isConst = false ∧ ∃ refs ∈ t.snapshots, q ∈ refs := by
  have hmem : ∀ refs, (∃ p ∈ t.snapshots.toList.zipIdx, p.1 = refs) ↔ refs ∈ t.snapshots := by
    intro refs
    rw [← Array.mem_toList_iff]
    constructor
    · rintro ⟨p, hp, rfl⟩
      exact List.fst_mem_of_mem_zipIdx hp
    · intro hrefs
      obtain ⟨i, hi⟩ := List.mem_iff_getElem?.mp hrefs
      exact ⟨(refs, i), List.mk_mem_zipIdx_iff_getElem?.mpr hi, rfl⟩
  have hready : Sweep.Ready
      { needed := .withCapacity (key Ref.base) (key (t.nins - Ref.base)) } :=
    ⟨BitSet.ordered_withCapacity .., rfl⟩
  obtain ⟨s, hrun, hmarks⟩ := exists_foldlM_needSnapshot t.snapshots.toList.zipIdx hready
    fun p hp => h p.1 ((hmem p.1).mp ⟨p, hp, rfl⟩)
  refine ⟨s, hrun, hmarks.ready, hmarks.links, hmarks.removed, fun q => ?_⟩
  -- nothing was marked before
  rw [hmarks.marked, Sweep.Marked, BitSet.contains_withCapacity]
  have hnamed : (∃ p ∈ t.snapshots.toList.zipIdx, q ∈ p.1) ↔ ∃ refs ∈ t.snapshots, q ∈ refs := by
    constructor
    · rintro ⟨p, hp, hq⟩
      exact ⟨p.1, (hmem p.1).mp ⟨p, hp, rfl⟩, hq⟩
    · rintro ⟨refs, hrefs, hq⟩
      obtain ⟨p, hp, rfl⟩ := (hmem refs).mpr hrefs
      exact ⟨p, hp, hq⟩
  rw [hnamed]
  exact ⟨fun hq => hq.resolve_left (by decide), .inr⟩

end Trace

end TraceIR
