import TraceIR.Proofs.Liveness
import TraceIR.Proofs.Relink

/-!
# What survives the elimination of dead code

A recording may hold `NOP`s of its own. Then the chain of `NOP`s need not come out right, but every
instruction is still treated as it should be.

* `Trace.Walked` — the invariant of the backward walk that leaves links out of account. Behind the
  walk each instruction is what it will be up to its link, ahead of it nothing has changed, the marks
  ahead are what is demanded from behind, and for every opcode the oldest record behind is
  remembered.
* `Trace.SweepStep` — what one step of the walk can do: keep an instruction, or drop it and put it
  into the chain of `NOP`s. `Walked.sweepAt` says that a step never fails and does one of the two.
* `Walked.sweepBelow` — the whole walk, together with anything else that its steps keep
  (`Trace.WalkInvariant`). What is said about chains elsewhere is said through this.
* `Trace.Survives` and `Grounded.run_eliminateDeadCode` — dead code elimination keeps what is needed
  and blanks the rest. The only thing it trips over is a snapshot that names what is not there
  (`Laid.run_eliminateDeadCode_of_beyond`).
-/

namespace TraceIR.Trace

/-- The walk over `t₀` has come down to `r` and made it `t`. Links may be anything. -/
structure Walked (t₀ t : Trace) (s : Sweep) (r : Ref) : Prop where
  laid : t.Laid
  outline : t₀.view.SameOutline t.view
  ahead : ∀ {q}, q < r → t.view.record q = t₀.view.record q
  kept : ∀ {q}, r ≤ q → t₀.Kept q →
    (t.view.record q).map Record.unlinked = (t₀.view.record q).map Record.unlinked
  dropped : ∀ {q}, r ≤ q → q < t₀.nins → ¬ t₀.Kept q →
    (t.view.record q).map Record.unlinked = some .blank
  ready : s.Ready
  marked : ∀ {q}, Ref.base ≤ q → q < r → (s.Marked q ↔ t₀.Demanded q r)
  oldest : ∀ op, t.view.IsOldest op r (s.links.get op)

/-- One step of the walk over `t₀`: the instruction at `r` is kept or dropped. -/
inductive SweepStep (t₀ t : Trace) (s : Sweep) (r : Ref) : Sweep → Trace → Prop
  | keep {x : Record} {s' : Sweep} (hx : t.view.record r = some x) (hkept : t₀.Kept r)
      (hlinks : s'.links = s.links.set x.op r) (hremoved : s'.removed = s.removed) :
      SweepStep t₀ t s r s' t
  | drop {x : Record} {s' : Sweep} {t' : Trace} (hx : t.view.record r = some x)
      (hdropped : ¬ t₀.Kept r) (hview : t'.view = t.view.retire s.links r x)
      (hlinks : s'.links = s.links.set .nop r)
      (hremoved : s'.removed = if x.op = .nop then s.removed else s.removed + 1) :
      SweepStep t₀ t s r s' t'

/-! ### Beginning -/

/-- The walk begins at the end, with what snapshots demand. -/
private theorem Laid.walked {t : Trace} (h : t.Laid)
    (hsnapshots : ∀ refs ∈ t.snapshots, ∀ r ∈ refs, r < t.nins) :
    ∃ s, t.needSnapshots = .ok s ∧ s.links = .empty ∧ s.removed = 0 ∧ Walked t t s t.nins := by
  obtain ⟨s, hrun, hready, hlinks, hremoved, hmarked⟩ := exists_needSnapshots hsnapshots
  have hdead : ∀ {q x}, t.nins ≤ q → t.view.record q ≠ some x := by
    intro q x hq hx
    have hlive := (h.record_isSome_iff q).mp (Option.isSome_iff_exists.mpr ⟨x, hx⟩)
    exact absurd hlive.2 (UInt32.not_lt.mpr hq)
  refine ⟨s, hrun, hlinks, hremoved,
    { laid := h
      outline := .refl _
      ahead := fun _ => rfl
      kept := fun _ _ => rfl
      dropped := fun hle hlt => absurd hlt (UInt32.not_lt.mpr hle)
      ready := hready
      marked := fun {q} hbase hlt => ?_
      oldest := fun op => ?_ }⟩
  · rw [hmarked, and_iff_right (isConst_eq_false_of_le hbase), Demanded]
    refine ⟨.inl, fun hdemanded => hdemanded.resolve_right ?_⟩
    -- beyond the end there is no instruction that could demand anything
    rintro ⟨u, hu, -, x, hx, -⟩
    exact hdead hu (record?_eq_ok_iff.mp hx)
  · rw [hlinks, Heads.get_empty]
    exact .inl ⟨rfl, fun q x hq hx => absurd hx (hdead hq)⟩

/-! ### One step -/

namespace Walked

variable {t₀ t t' : Trace} {s : Sweep} {r : Ref} {x : Record}

/-- The walk remembers the instruction that it keeps. -/
private theorem oldest_keep (hs : Walked t₀ t s (r + 1)) (hr : r < Ref.limit)
    (hx : t.view.record r = some x) (op : Opcode) :
    t.view.IsOldest op r ((s.links.set x.op r).get op) := by
  by_cases hop : x.op = op
  · subst hop
    rw [Heads.get_set_self]
    exact View.isOldest_self hx
  · rw [Heads.get_set_of_ne _ _ hop]
    refine (hs.oldest op).pass hr (fun _ _ => rfl) fun y hy => ?_
    rw [hx] at hy
    obtain rfl := Option.some.inj hy
    exact hop

/-- The walk remembers the instruction that it drops as a `NOP`. -/
private theorem oldest_drop (hs : Walked t₀ t s (r + 1)) (hr : r < Ref.limit) (op : Opcode) :
    (t.view.retire s.links r x).IsOldest op r ((s.links.set .nop r).get op) := by
  by_cases hop : Opcode.nop = op
  · subst hop
    rw [Heads.get_set_self]
    exact View.isOldest_self View.retire_record_self
  · rw [Heads.get_set_of_ne _ _ hop]
    refine (hs.oldest op).pass hr (fun q hq => ?_) fun y hy => ?_
    · exact View.retire_record_unlinked (UInt32.ne_of_lt hq).symm
    · rw [View.retire_record_self] at hy
      obtain rfl := Option.some.inj hy
      exact hop

/-- A step that keeps the instruction. -/
private theorem keep (hs : Walked t₀ t s (r + 1)) {s' : Sweep} (hr : r < Ref.limit)
    (hx : t.view.record r = some x) (hkept : t₀.Kept r) (hready : s'.Ready)
    (hmarked : ∀ q, q < r → (s'.Marked q ↔ s.Marked q)) (hlinks : s'.links = s.links) :
    Walked t₀ t (s'.keep r x) r := by
  have hx₀ : t₀.view.record r = some x := (hs.ahead (Ref.lt_succ hr)).symm.trans hx
  -- what lies behind the walk now is the instruction itself or lay behind it before
  refine
    { laid := hs.laid
      outline := hs.outline
      ahead := fun hlt => hs.ahead (UInt32.lt_trans hlt (Ref.lt_succ hr))
      kept := fun {q} hle hq => ?_
      dropped := fun {q} hle hlt hq => ?_
      ready := hready.keep r x
      marked := fun {q} hbase hlt => ?_
      oldest := fun op => ?_ }
  · rcases Ref.eq_or_succ_le hr hle with rfl | hle
    · rw [hx, hx₀]
    · exact hs.kept hle hq
  · rcases Ref.eq_or_succ_le hr hle with rfl | hle
    · exact absurd hkept hq
    · exact hs.dropped hle hlt hq
  · -- what is kept demands its operands
    rw [Sweep.marked_keep hready, hmarked q hlt,
      hs.marked hbase (UInt32.lt_trans hlt (Ref.lt_succ hr))]
    rw [demanded_iff hr, uses_iff hx₀, and_iff_right hkept]
  · rw [Sweep.keep_links, hlinks]
    exact hs.oldest_keep hr hx op

/-- A step that drops the instruction, on views. -/
private theorem drop (hs : Walked t₀ t s (r + 1)) (hr : r < Ref.limit) (hdropped : ¬ t₀.Kept r)
    (hlaid : t'.Laid) (hview : t'.view = t.view.retire s.links r x) (n : Nat) :
    Walked t₀ t' { s with links := s.links.set .nop r, removed := n } r := by
  have hlater : ∀ {q}, r ≤ q → q ≠ r → r + 1 ≤ q := fun hle hne =>
    (Ref.eq_or_succ_le hr hle).resolve_left hne
  refine
    { laid := hlaid
      outline := ?_
      ahead := fun {q} hlt => ?_
      kept := fun {q} hle hq => ?_
      dropped := fun {q} hle hlt hq => ?_
      ready := ⟨hs.ready.ordered, hs.ready.base⟩
      marked := fun {q} hbase hlt => ?_
      oldest := fun op => ?_ }
  · rw [hview]
    exact hs.outline.trans View.sameOutline_retire
  · have hlt' : q < r + 1 := UInt32.lt_trans hlt (Ref.lt_succ hr)
    rw [hview, View.retire_record_of_ne (UInt32.ne_of_lt hlt), (hs.oldest .nop).relink_record _ hlt',
      (hs.oldest x.op).relink_record _ hlt', hs.ahead hlt']
  · have hne : q ≠ r := by
      rintro rfl
      exact hdropped hq
    rw [hview, View.retire_record_unlinked hne]
    exact hs.kept (hlater hle hne) hq
  · rw [hview]
    by_cases hqr : q = r
    · subst hqr
      rw [View.retire_record_self]
      rfl
    · rw [View.retire_record_unlinked hqr]
      exact hs.dropped (hlater hle hqr) hlt hq
  · -- what is dropped demands nothing
    have hnot : ¬ (t₀.Kept r ∧ t₀.Uses r q) := fun hboth => hdropped hboth.1
    rw [demanded_iff hr, or_iff_left hnot]
    exact hs.marked hbase (UInt32.lt_trans hlt (Ref.lt_succ hr))
  · rw [hview]
    exact hs.oldest_drop hr op

/-- The instruction that comes next can be retired. -/
theorem retirable (hs : Walked t₀ t s (r + 1)) (hranged : t.view.Ranged)
    (hfirst : Ref.first ≤ r) (hx : t.view.record r = some x) : t.view.Retirable s.links r x where
  ranged := hranged
  first_le := hfirst
  record := hx
  oldest := hs.oldest x.op
  oldest_nop := hs.oldest .nop

/-- Dropping an instruction never fails. -/
private theorem run_sweepOut (hs : Walked t₀ t s (r + 1)) (hx : t.view.record r = some x) :
    ∃ t', (sweepOut s r x).run t =
        .ok { s with
          links := s.links.set .nop r
          removed := if x.op = .nop then s.removed else s.removed + 1 } t' ∧
      t'.Laid ∧ t'.view = t.view.retire s.links r x := by
  obtain ⟨t₁, hrun₁, hlaid₁, hview₁⟩ :=
    hs.laid.run_relink (hs.oldest x.op).eq_none_or_exists x.prev
  -- relinking does not change what is live
  have hlink : s.links.get .nop = Ref.none ∨ ∃ y, t₁.view.record (s.links.get .nop) = some y := by
    refine (hs.oldest .nop).eq_none_or_exists.imp_right fun hlive => ?_
    rw [← Option.isSome_iff_exists, ← Option.isSome_map (f := Record.unlinked)] at hlive ⊢
    rw [hview₁, View.relink_record_unlinked]
    exact hlive
  obtain ⟨t₂, hrun₂, hlaid₂, hview₂⟩ := hlaid₁.run_relink hlink r
  have houtline : t.view.SameOutline t₂.view := by
    rw [hview₂, hview₁]
    exact (View.sameOutline_relink _).trans (View.sameOutline_relink _)
  have hlive : t₂.nk ≤ r ∧ r < t₂.nins := by
    have hnk : t₂.nk = t.nk := houtline.nk
    have hnins : t₂.nins = t.nins := houtline.nins
    rw [hnk, hnins]
    exact (hs.laid.record_isSome_iff r).mp (Option.isSome_iff_exists.mpr ⟨x, hx⟩)
  obtain ⟨t₃, hrun₃, hlaid₃, hview₃⟩ := hlaid₂.run_write hlive .blank
  refine ⟨t₃, ?_, hlaid₃, by rw [hview₃, hview₂, hview₁]; rfl⟩
  rw [sweepOut, run_bind_of_ok hrun₁, run_bind_of_ok hrun₂, run_bind_of_ok hrun₃]
  rfl

/-- **One step** of the walk treats one instruction and never fails. -/
theorem sweepAt (hs : Walked t₀ t s (r + 1)) (h : t₀.Laid) (hfirst : Ref.first ≤ r)
    (hlive : r < t₀.nins) :
    ∃ s' t', (Trace.sweepAt s r).run t = .ok s' t' ∧ Walked t₀ t' s' r ∧
      SweepStep t₀ t s r s' t' := by
  have hr : r < Ref.limit := UInt32.lt_of_lt_of_le hlive h.nins_le
  have hbase := base_le_of_first_le hfirst
  have hnk : t₀.nk ≤ r := UInt32.le_trans h.nk_le (UInt32.le_trans (by decide) hfirst)
  obtain ⟨x, hx₀⟩ := h.exists_record ⟨hnk, hlive⟩
  have hx : t.view.record r = some x := (hs.ahead (Ref.lt_succ hr)).trans hx₀
  have hkept := kept_iff hfirst hr (record?_eq_ok_iff.mpr hx₀)
  rw [← hs.marked hbase (Ref.lt_succ hr)] at hkept
  have hrun : (record r).run t = .ok x t := by
    rw [record, run_ask, record?_eq_ok_iff.mpr hx]
  rw [Trace.sweepAt, run_bind_of_ok hrun]
  by_cases hmarked : s.needed.contains (key r) = true
  · -- something behind demands it; its mark is not looked at again
    have hkept := hkept.mpr (.inl hmarked)
    rw [if_pos hmarked]
    refine ⟨_, t, rfl, hs.keep hr hx hkept (hs.ready.forget r) (fun q hq => ?_) rfl,
      .keep hx hkept (Sweep.keep_links ..) (Sweep.keep_removed ..)⟩
    have hforget := Sweep.marked_forget hs.ready (isConst_eq_false_of_le hbase) q
    exact hforget.trans (and_iff_left (UInt32.ne_of_lt hq))
  rw [if_neg hmarked]
  by_cases hroot : (x.ty.isGuard || x.op.hasSideEffect) = true
  · -- it is needed for its own sake
    rw [if_pos hroot]
    rw [Bool.or_eq_true] at hroot
    have hkept := hkept.mpr (.inr hroot)
    exact ⟨_, t, rfl, hs.keep hr hx hkept hs.ready (fun _ _ => Iff.rfl) rfl,
      .keep hx hkept (Sweep.keep_links ..) (Sweep.keep_removed ..)⟩
  · rw [if_neg hroot]
    rw [Bool.or_eq_true] at hroot
    obtain ⟨t', hrun', hlaid, hview⟩ := hs.run_sweepOut hx
    have hdropped : ¬ t₀.Kept r := fun hk => (hkept.mp hk).elim hmarked hroot
    exact ⟨_, t', hrun', hs.drop hr hdropped hlaid hview _, .drop hx hdropped hview rfl rfl⟩

end Walked

/-! ### The walk -/

/-- Every step of the walk over `t₀` keeps the property. -/
def WalkInvariant (t₀ : Trace) (I : Trace → Sweep → Ref → Prop) : Prop :=
  ∀ {t s r s' t'}, Ref.first ≤ r → r < t₀.nins → Walked t₀ t s (r + 1) → I t s (r + 1) →
    SweepStep t₀ t s r s' t' → I t' s' r

/-- **The walk** treats all instructions and never fails, and what its steps keep it keeps. -/
theorem Walked.sweepBelow {t₀ : Trace} {I : Trace → Sweep → Ref → Prop} (h : t₀.Laid)
    (hI : WalkInvariant t₀ I) (n : Nat) :
    ∀ {t : Trace} {s : Sweep} {r : Ref}, Walked t₀ t s r → I t s r → r ≤ t₀.nins →
      r.toNat = Ref.first.toNat + n →
      ∃ s' t', (Trace.sweepBelow n r s).run t = .ok s' t' ∧ Walked t₀ t' s' Ref.first ∧
        I t' s' Ref.first := by
  induction n with
  | zero =>
    intro t s r hs hi _ hn
    obtain rfl : r = Ref.first := UInt32.toNat_inj.mp hn
    exact ⟨s, t, rfl, hs, hi⟩
  | succ n ih =>
    intro t s r hs hi hle hn
    have hpred : (r - 1).toNat = r.toNat - 1 := Ref.toNat_pred (by omega)
    have hsucc : r - 1 + 1 = r := UInt32.sub_add_cancel r 1
    have hfirst : Ref.first ≤ r - 1 := by
      rw [UInt32.le_iff_toNat_le]
      omega
    have hlt : r - 1 < t₀.nins := by
      rw [UInt32.le_iff_toNat_le] at hle
      rw [UInt32.lt_iff_toNat_lt]
      omega
    rw [← hsucc] at hs hi
    obtain ⟨s₁, t₁, hrun₁, hs₁, hstep⟩ := hs.sweepAt h hfirst hlt
    obtain ⟨s₂, t₂, hrun₂, hs₂, hi₂⟩ :=
      ih hs₁ (hI hfirst hlt hs hi hstep) (UInt32.le_of_lt hlt) (by omega)
    refine ⟨s₂, t₂, ?_, hs₂, hi₂⟩
    rw [Trace.sweepBelow, run_bind_of_ok hrun₁, hrun₂]

/-- **Dead code elimination** walks all the way down and then closes the chain of `NOP`s. -/
theorem Laid.run_eliminateDeadCode {t : Trace} {I : Trace → Sweep → Ref → Prop} (h : t.Laid)
    (hon : t.config.deadCode = true)
    (hsnapshots : ∀ refs ∈ t.snapshots, ∀ r ∈ refs, r < t.nins) (hI : WalkInvariant t I)
    (hstart : ∀ s : Sweep, s.links = .empty → s.removed = 0 → I t s t.nins) :
    ∃ s t₁ t', eliminateDeadCode.run t = .ok s.removed t' ∧ Walked t t₁ s Ref.first ∧
      I t₁ s Ref.first ∧ t'.Laid ∧
      t'.view = t₁.view.relink (s.links.get .nop) .nop Ref.none := by
  obtain ⟨s₀, hneed, hlinks, hremoved, hs₀⟩ := h.walked hsnapshots
  have hbase := UInt32.lt_iff_toNat_lt.mp h.base_lt
  rw [Ref.toNat_base] at hbase
  have hsteps : t.nins.toNat = Ref.first.toNat + (t.nins.toNat - Ref.first.toNat) := by
    rw [Ref.toNat_first]
    omega
  obtain ⟨s, t₁, hrun, hs, hi⟩ :=
    hs₀.sweepBelow h hI _ (hstart s₀ hlinks hremoved) UInt32.le_rfl hsteps
  obtain ⟨t', hrelink, hlaid, hview⟩ :=
    hs.laid.run_relink (hs.oldest .nop).eq_none_or_exists Ref.none
  refine ⟨s, t₁, t', ?_, hs, hi, hlaid, hview⟩
  rw [eliminateDeadCode, EStateM.run_bind, EStateM.run_get]
  dsimp only
  have hask : (ask needSnapshots).run t = .ok s₀ t := by rw [run_ask, hneed]
  rw [hon, if_neg (by decide), run_bind_of_ok hask, EStateM.run_bind, EStateM.run_get]
  dsimp only
  rw [run_bind_of_ok hrun, run_bind_of_ok hrelink]
  rfl

/-! ### What is left -/

/-- `t'` holds what `t` needs, and blanks in place of the rest. -/
structure Survives (t t' : Trace) : Prop where
  laid : t'.Laid
  outline : t.view.SameOutline t'.view
  below : ∀ {r}, r < Ref.first → t'.view.record r = t.view.record r
  kept : ∀ {r}, Ref.first ≤ r → t.Needed r →
    (t'.view.record r).map Record.unlinked = (t.view.record r).map Record.unlinked
  dropped : ∀ {r}, Ref.first ≤ r → r < t.nins → ¬ t.Needed r →
    (t'.view.record r).map Record.unlinked = some .blank

/-- **Dead code elimination** never fails on a grounded trace. It keeps what is needed and blanks
the rest. -/
theorem Grounded.run_eliminateDeadCode {t : Trace} (h : t.Grounded)
    (hon : t.config.deadCode = true) :
    ∃ n t', eliminateDeadCode.run t = .ok n t' ∧ t.Survives t' := by
  obtain ⟨s, t₁, t', hrun, hs, -, hlaid, hview⟩ := h.sound.laid.run_eliminateDeadCode
    (I := fun _ _ _ => True) hon h.snapshot_lt (fun _ _ _ _ _ => trivial) fun _ _ _ => trivial
  refine ⟨s.removed, t', hrun, hlaid, ?_, fun hr => ?_, fun hr hneeded => ?_,
    fun hr hlt hneeded => ?_⟩
  -- the last link changes no record otherwise
  · rw [hview]
    exact hs.outline.trans (View.sameOutline_relink _)
  · rw [hview, (hs.oldest .nop).relink_record _ hr, hs.ahead hr]
  · rw [hview, View.relink_record_unlinked, hs.kept hr (h.kept_iff_needed.mpr hneeded)]
  · rw [hview, View.relink_record_unlinked,
      hs.dropped hr hlt (fun hkept => hneeded (h.kept_iff_needed.mp hkept))]

/-! ### What survivors refer to -/

/-- The record at `r` is as it was, its link apart. -/
def Keeps (t t' : Trace) (r : Ref) : Prop :=
  ∃ x p, t.record? r = .ok x ∧ t'.record? r = .ok { x with prev := p }

theorem exists_prev_of_unlinked {a : Option Record} {x : Record}
    (h : a.map Record.unlinked = some x.unlinked) : ∃ p, a = some { x with prev := p } := by
  cases a with
  | none => cases h
  | some y =>
    refine ⟨y.prev, congrArg some ?_⟩
    have hbody : y.unlinked = x.unlinked := Option.some.inj h
    calc y = { y.unlinked with prev := y.prev } := rfl
      _ = { x.unlinked with prev := y.prev } := by rw [hbody]
      _ = { x with prev := y.prev } := rfl

namespace Survives

variable {t t' : Trace}

/-- Constants, `BASE` and what is needed are kept. -/
theorem keeps (h : t.Survives t') {r : Ref} {x : Record} (hx : t.view.record r = some x)
    (hr : r < Ref.first ∨ t.Needed r) : t.Keeps t' r := by
  by_cases hfirst : r < Ref.first
  · refine ⟨x, x.prev, record?_eq_ok_iff.mpr hx, record?_eq_ok_iff.mpr ?_⟩
    rw [h.below hfirst, hx]
  · have hbody := h.kept (UInt32.not_lt.mp hfirst) (hr.resolve_left hfirst)
    rw [hx] at hbody
    obtain ⟨p, hp⟩ := exists_prev_of_unlinked hbody
    exact ⟨x, p, record?_eq_ok_iff.mpr hx, record?_eq_ok_iff.mpr hp⟩

/-- Constants stay constants, and instructions stay instructions. -/
theorem isConst_op (h : t.Survives t') (ht : t.Sound) {r : Ref} {y : Record}
    (hy : t'.view.record r = some y) : y.op.isConst = r.isConst := by
  have hnins : t'.nins = t.nins := h.outline.nins
  have hlive := (h.laid.record_isSome_iff r).mp (Option.isSome_iff_exists.mpr ⟨y, hy⟩)
  by_cases hfirst : r < Ref.first
  · rw [h.below hfirst] at hy
    exact ht.wellFormed.kind hy
  have hfirst := UInt32.not_lt.mp hfirst
  by_cases hneeded : t.Needed r
  · obtain ⟨x, hx, hop⟩ := (View.exists_op_iff (h.kept hfirst hneeded) y.op).mp ⟨y, hy, rfl⟩
    rw [← hop]
    exact ht.wellFormed.kind hx
  · obtain ⟨p, hp⟩ := exists_prev_of_unlinked (x := .blank)
      (h.dropped hfirst (hnins ▸ hlive.2) hneeded)
    rw [hy] at hp
    obtain rfl := Option.some.inj hp
    exact (isConst_eq_false_of_le (base_le_of_first_le hfirst)).symm

/-- An instruction that is left with operands was there with the same operands, and is needed. -/
theorem exists_of_refersTo (h : t.Survives t') {r q : Ref} {y : Record} (hfirst : Ref.first ≤ r)
    (hy : t'.view.record r = some y) (hop : y.RefersTo q) :
    ∃ x, t.view.record r = some x ∧ x.RefersTo q ∧ t.Needed r := by
  have hnins : t'.nins = t.nins := h.outline.nins
  have hlive := (h.laid.record_isSome_iff r).mp (Option.isSome_iff_exists.mpr ⟨y, hy⟩)
  by_cases hneeded : t.Needed r
  · have hbody := h.kept hfirst hneeded
    rw [hy] at hbody
    obtain ⟨p, hp⟩ := exists_prev_of_unlinked hbody.symm
    exact ⟨_, hp, hop, hneeded⟩
  · -- a blank has no operands
    have hbody := h.dropped hfirst (hnins ▸ hlive.2) hneeded
    obtain ⟨p, hp⟩ := exists_prev_of_unlinked (x := .blank) hbody
    rw [hy] at hp
    obtain rfl := Option.some.inj hp
    rcases hop with ⟨hkind, -⟩ | ⟨hkind, -⟩
    · cases hkind
    · cases hkind

end Survives

/-! ### Snapshots of what is not there -/

private theorem needSnapshot_cases (index : Nat) (high : Ref) (refs : List Ref) : ∀ s : Sweep,
    (∃ s', needSnapshot index high s refs = .ok s' ∧ ∀ r ∈ refs, r.isConst = true ∨ r < high) ∨
      ∃ r, needSnapshot index high s refs = .error (.snapshotBeyond index r high) := by
  induction refs with
  | nil => exact fun s => .inl ⟨s, rfl, fun _ hr => absurd hr List.not_mem_nil⟩
  | cons r refs ih =>
    intro s
    rw [needSnapshot]
    by_cases hconst : r.isConst = true
    · rw [if_pos hconst]
      refine (ih s).imp_left ?_
      rintro ⟨s', hrun, hrefs⟩
      exact ⟨s', hrun, List.forall_mem_cons.mpr ⟨.inl hconst, hrefs⟩⟩
    rw [if_neg hconst]
    by_cases hbeyond : high ≤ r
    · rw [if_pos hbeyond]
      exact .inr ⟨r, rfl⟩
    · rw [if_neg hbeyond]
      refine (ih (s.need r)).imp_left ?_
      rintro ⟨s', hrun, hrefs⟩
      exact ⟨s', hrun, List.forall_mem_cons.mpr ⟨.inr (UInt32.not_le.mp hbeyond), hrefs⟩⟩

private theorem foldlM_needSnapshot_cases (high : Ref) (l : List (List Ref × Nat)) : ∀ s : Sweep,
    (∃ s', l.foldlM (fun s (refs, i) => needSnapshot i high s refs) s = .ok s' ∧
        ∀ p ∈ l, ∀ r ∈ p.1, r.isConst = true ∨ r < high) ∨
      ∃ i r, l.foldlM (fun s (refs, i) => needSnapshot i high s refs) s =
        .error (.snapshotBeyond i r high) := by
  induction l with
  | nil => exact fun s => .inl ⟨s, rfl, fun _ hp => absurd hp List.not_mem_nil⟩
  | cons p l ih =>
    intro s
    rw [List.foldlM_cons]
    show (∃ s', (needSnapshot p.2 high s p.1 >>= fun s => List.foldlM _ s l) = _ ∧ _) ∨
      ∃ i r, (needSnapshot p.2 high s p.1 >>= fun s => List.foldlM _ s l) = _
    rcases needSnapshot_cases p.2 high p.1 s with ⟨s₁, hrun, hp⟩ | ⟨r, hrun⟩
    · rw [hrun]
      refine (ih s₁).imp_left ?_
      rintro ⟨s', hrun', hl⟩
      exact ⟨s', hrun', List.forall_mem_cons.mpr ⟨hp, hl⟩⟩
    · rw [hrun]
      exact .inr ⟨p.2, r, rfl⟩

/-- A snapshot that names what is not there stops the elimination of dead code, and the trace stays
as it is. -/
theorem Laid.run_eliminateDeadCode_of_beyond {t : Trace} (h : t.Laid)
    (hon : t.config.deadCode = true)
    (hbeyond : ¬ ∀ refs ∈ t.snapshots, ∀ r ∈ refs, r < t.nins) :
    ∃ i r, eliminateDeadCode.run t = .error (.broken (.snapshotBeyond i r t.nins)) t := by
  have hsnapshots : ∃ i r, t.needSnapshots = .error (.snapshotBeyond i r t.nins) := by
    rw [needSnapshots]
    refine (foldlM_needSnapshot_cases _ _ _).resolve_left ?_
    rintro ⟨s, -, hrefs⟩
    refine hbeyond fun refs hmem r hr => ?_
    obtain ⟨i, hi⟩ := List.mem_iff_getElem?.mp (Array.mem_toList_iff.mpr hmem)
    rcases hrefs (refs, i) (List.mk_mem_zipIdx_iff_getElem?.mpr hi) r hr with hconst | hlt
    · -- constants lie below every instruction
      exact UInt32.lt_trans (of_decide_eq_true hconst) h.base_lt
    · exact hlt
  obtain ⟨i, r, hsnapshots⟩ := hsnapshots
  refine ⟨i, r, ?_⟩
  have hask : (ask needSnapshots).run t = .error (.broken (.snapshotBeyond i r t.nins)) t := by
    rw [run_ask, hsnapshots]
  rw [eliminateDeadCode, EStateM.run_bind, EStateM.run_get]
  dsimp only
  rw [hon, if_neg (by decide), run_bind_of_error hask]

end TraceIR.Trace
