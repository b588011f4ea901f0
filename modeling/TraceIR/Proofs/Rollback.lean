import TraceIR.Proofs.Chain

/-!
# Going back

Rolling back takes records off both ends of the live range, instructions first. What is left is a
cut of the view: the same records in a smaller range, with the chains that belong to them.

* `View.Cut v v' low high` — `v'` is `v` reduced to the references from `low` up to `high`.
* `View.rollback` — rolling back, on views.
* `View.WellFormed.cut_rollback` — a checkpoint within the live range gives the cut at its bounds.
* `Trace.Laid.run_rollback` and `Trace.run_rollback_of_rejected` — a checkpoint that is accepted is
  reached, and any other leaves the trace as it was.
-/

namespace TraceIR

namespace View

/-- `v'` holds the records of `v` from `low` up to `high`, and is as `v` elsewhere. -/
structure Cut (v v' : View) (low high : Ref) : Prop where
  wellFormed : v'.WellFormed
  nk : v'.nk = low
  nins : v'.nins = high
  record : ∀ r, low ≤ r → r < high → v'.record r = v.record r
  config : v'.config = v.config
  pool : v'.pool = v.pool
  folder : v'.folder = v.folder
  guardEmitted : v'.guardEmitted = v.guardEmitted
  snapshots : v'.snapshots = v.snapshots

namespace Cut

variable {v v' : View} {low high : Ref}

private theorem refl (h : v.WellFormed) : v.Cut v v.nk v.nins :=
  ⟨h, rfl, rfl, fun _ _ _ => rfl, rfl, rfl, rfl, rfl, rfl⟩

private theorem popInstruction (h : v.Cut v' low high) (hfirst : Ref.first < high) :
    v.Cut v'.popInstruction low (high - 1) := by
  have hnk := h.wellFormed.nk_le
  have hle := h.wellFormed.nins_le
  have hfirst' : Ref.first < v'.nins := h.nins ▸ hfirst
  obtain ⟨x, hx⟩ := (h.wellFormed.live_iff (v'.nins - 1)).mpr (by grind)
  have hpop := popInstruction_eq hx
  refine
    { wellFormed := h.wellFormed.popInstruction hfirst'
      nk := by rw [hpop]; exact h.nk
      nins := by rw [hpop, ← h.nins]
      record := fun r hlow hhigh => ?_
      config := by rw [hpop]; exact h.config
      pool := by rw [hpop]; exact h.pool
      folder := by rw [hpop]; exact h.folder
      guardEmitted := by rw [hpop]; exact h.guardEmitted
      snapshots := by rw [hpop]; exact h.snapshots }
  rw [popInstruction_record, h.nins, if_neg (by grind)]
  exact h.record r hlow (by grind)

private theorem popConstant (h : v.Cut v' low high) (htrue : low < Ref.true) :
    v.Cut v'.popConstant (low + 1) high := by
  have hbase := h.wellFormed.base_lt
  have htrue' : v'.nk < Ref.true := h.nk ▸ htrue
  obtain ⟨x, hx⟩ := (h.wellFormed.live_iff v'.nk).mpr (by grind)
  have hpop := popConstant_eq hx
  refine
    { wellFormed := h.wellFormed.popConstant htrue'
      nk := by rw [hpop, ← h.nk]
      nins := by rw [hpop]; exact h.nins
      record := fun r hlow hhigh => ?_
      config := by rw [hpop]; exact h.config
      pool := by rw [hpop]; exact h.pool
      folder := by rw [hpop]; exact h.folder
      guardEmitted := by rw [hpop]; exact h.guardEmitted
      snapshots := by rw [hpop]; exact h.snapshots }
  rw [popConstant_record, h.nk, if_neg (by grind)]
  exact h.record r (by grind) hhigh

/-- Taking off instructions, one by one, moves the upper bound. -/
private theorem popInstructions {high' : Ref} (hfirst : Ref.first ≤ high') (n : Nat) :
    ∀ {v' : View} {high : Ref}, v.Cut v' low high → high.toNat = high'.toNat + n →
      v.Cut (View.popInstruction^[n] v') low high' := by
  induction n with
  | zero =>
    intro v' high h hn
    obtain rfl : high = high' := UInt32.toNat_inj.mp hn
    exact h
  | succ n ih =>
    intro v' high h hn
    rw [UInt32.le_iff_toNat_le] at hfirst
    -- there is an instruction after `BASE` as long as some are to be taken off
    have hlt : Ref.first < high := by
      rw [UInt32.lt_iff_toNat_lt]
      omega
    rw [Function.iterate_succ_apply]
    refine ih (h.popInstruction hlt) ?_
    rw [Ref.toNat_pred (by omega)]
    omega

/-- Taking off constants, one by one, moves the lower bound. -/
private theorem popConstants {low' : Ref} (htrue : low' ≤ Ref.true) (n : Nat) :
    ∀ {v' : View} {low : Ref}, v.Cut v' low high → low'.toNat = low.toNat + n →
      v.Cut (View.popConstant^[n] v') low' high := by
  induction n with
  | zero =>
    intro v' low h hn
    obtain rfl : low' = low := UInt32.toNat_inj.mp hn
    exact h
  | succ n ih =>
    intro v' low h hn
    rw [UInt32.le_iff_toNat_le] at htrue
    have hlt : low < Ref.true := by
      rw [UInt32.lt_iff_toNat_lt]
      omega
    rw [Function.iterate_succ_apply]
    refine ih (h.popConstant hlt) ?_
    rw [Ref.toNat_succ (by grind)]
    omega

/-- A reference that is outside a cut has no record in it. -/
theorem record_eq_none (h : v.Cut v' low high) {r : Ref} (hr : ¬ (low ≤ r ∧ r < high)) :
    v'.record r = none :=
  h.wellFormed.record_eq_none (by rw [h.nk, h.nins]; exact hr)

end Cut

theorem iterate_popInstruction_nk (n : Nat) (v : View) :
    (View.popInstruction^[n] v).nk = v.nk := by
  induction n generalizing v with
  | zero => rfl
  | succ n ih =>
    rw [Function.iterate_succ_apply, ih, popInstruction]
    split
    · rfl
    · rfl

/-- Roll back: snapshots, then instructions, then constants. -/
def rollback (v : View) (cp : Checkpoint) : View :=
  View.popConstant^[(cp.const - v.nk).toNat]
    (View.popInstruction^[(v.nins - cp.ins).toNat]
      { v with snapshots := v.snapshots.take cp.snapshots.toNat })

/-- The range of a checkpoint lies in the live range. -/
structure Reaches (v : View) (cp : Checkpoint) : Prop where
  ins_le : cp.ins ≤ v.nins
  first_le : Ref.first ≤ cp.ins
  nk_le : v.nk ≤ cp.const
  const_le : cp.const ≤ Ref.true

/-- **Rolling back** reduces a view to the range of the checkpoint. -/
theorem WellFormed.cut_rollback {v : View} (h : v.WellFormed) {cp : Checkpoint}
    (hcp : v.Reaches cp) :
    { v with snapshots := v.snapshots.take cp.snapshots.toNat : View }.Cut (v.rollback cp)
      cp.const cp.ins := by
  have hins := UInt32.le_iff_toNat_le.mp hcp.ins_le
  have hconst := UInt32.le_iff_toNat_le.mp hcp.nk_le
  have hstart : { v with snapshots := v.snapshots.take cp.snapshots.toNat : View }.WellFormed :=
    h.of_eq rfl rfl rfl rfl
  refine ((Cut.refl hstart).popInstructions hcp.first_le _ ?_).popConstants hcp.const_le _ ?_
  · show v.nins.toNat = _
    rw [UInt32.toNat_sub_of_le _ _ hcp.ins_le]
    omega
  · show _ = v.nk.toNat + _
    rw [UInt32.toNat_sub_of_le _ _ hcp.nk_le]
    omega

end View

namespace Trace

variable {t : Trace} {cp : Checkpoint}

theorem accepts_iff :
    t.accepts cp = true ↔ t.view.Reaches cp ∧ cp.snapshots ≤ t.snapshots.size := by
  simp only [accepts, Bool.and_eq_true, decide_eq_true_eq]
  exact ⟨fun ⟨⟨⟨⟨h₁, h₂⟩, h₃⟩, h₄⟩, h₅⟩ => ⟨⟨h₁, h₂, h₃, h₄⟩, h₅⟩,
    fun ⟨⟨h₁, h₂, h₃, h₄⟩, h₅⟩ => ⟨⟨⟨⟨h₁, h₂⟩, h₃⟩, h₄⟩, h₅⟩⟩

/-- A checkpoint that is not accepted, or that counts snapshots below zero, changes nothing. -/
theorem run_rollback_of_rejected (h : ¬ (t.accepts cp = true ∧ 0 ≤ cp.snapshots)) :
    ∃ b, (rollback cp).run t = .error (.broken b) t := by
  rw [rollback, EStateM.run_bind, EStateM.run_get]
  dsimp only
  by_cases haccepts : t.accepts cp = true
  · have hneg : cp.snapshots < 0 := by
      by_contra hpos
      exact h ⟨haccepts, by omega⟩
    simp only [haccepts, hneg, Bool.not_true, Bool.false_eq_true, if_false, if_true]
    exact ⟨_, rfl⟩
  · simp only [haccepts, Bool.not_false, if_true]
    exact ⟨_, rfl⟩

/-- A checkpoint that is accepted: snapshots leave, then instructions, then constants. -/
theorem run_rollback_of_accepted (haccepts : t.accepts cp = true) (hsnapshots : 0 ≤ cp.snapshots) :
    (rollback cp).run t =
      EStateM.run (do
        popInstructions (t.nins - cp.ins).toNat
        popConstants (cp.const - (← get).nk).toNat)
      { t with snapshots := t.snapshots.take cp.snapshots.toNat } := by
  simp only [rollback, EStateM.run_bind, EStateM.run_get, EStateM.run_modify, haccepts,
    Int.not_lt.mpr hsnapshots, Bool.not_true, Bool.false_eq_true, if_false]

/-- **Rolling back** to a checkpoint that is accepted succeeds. -/
theorem Laid.run_rollback (h : t.Laid) (haccepts : t.accepts cp = true)
    (hsnapshots : 0 ≤ cp.snapshots) :
    ∃ t', (Trace.rollback cp).run t = .ok () t' ∧ t'.Laid ∧ t'.view = t.view.rollback cp := by
  obtain ⟨hcp, -⟩ := accepts_iff.mp haccepts
  have hins := UInt32.le_iff_toNat_le.mp hcp.ins_le
  have hconst := UInt32.le_iff_toNat_le.mp hcp.nk_le
  have hfirst := UInt32.le_iff_toNat_le.mp hcp.first_le
  have htrue := UInt32.le_iff_toNat_le.mp hcp.const_le
  have hpops : (t.nins - cp.ins).toNat = t.nins.toNat - cp.ins.toNat :=
    UInt32.toNat_sub_of_le _ _ hcp.ins_le
  have hpops' : (cp.const - t.nk).toNat = cp.const.toNat - t.nk.toNat :=
    UInt32.toNat_sub_of_le _ _ hcp.nk_le
  change cp.ins.toNat ≤ t.nins.toNat at hins
  change t.nk.toNat ≤ cp.const.toNat at hconst
  have hlaid : { t with snapshots := t.snapshots.take cp.snapshots.toNat : Trace }.Laid :=
    h.of_view rfl rfl rfl rfl
  obtain ⟨t₁, hrun₁, hlaid₁, hview₁⟩ :=
    hlaid.run_popInstructions (t.nins - cp.ins).toNat (by dsimp only; omega)
  -- the constants are counted once the instructions are gone, which leave them alone
  have hnk : t₁.nk = t.nk := by
    show t₁.view.nk = t.nk
    rw [hview₁, View.iterate_popInstruction_nk]
    rfl
  obtain ⟨t₂, hrun₂, hlaid₂, hview₂⟩ :=
    hlaid₁.run_popConstants (cp.const - t.nk).toNat (by rw [hnk]; omega)
  refine ⟨t₂, ?_, hlaid₂, by rw [hview₂, hview₁]; rfl⟩
  rw [run_rollback_of_accepted haccepts hsnapshots, run_bind_of_ok hrun₁, EStateM.run_bind,
    EStateM.run_get]
  dsimp only
  rw [hnk, hrun₂]

/-- A rollback that succeeds went to a checkpoint that is accepted. -/
theorem Laid.of_run_rollback {t' : Trace} (h : t.Laid) (hrun : (rollback cp).run t = .ok () t') :
    (t.accepts cp = true ∧ 0 ≤ cp.snapshots) ∧ t'.Laid ∧ t'.view = t.view.rollback cp := by
  by_cases hcp : t.accepts cp = true ∧ 0 ≤ cp.snapshots
  · obtain ⟨t₁, hrun₁, hlaid, hview⟩ := h.run_rollback hcp.1 hcp.2
    rw [hrun] at hrun₁
    cases hrun₁
    exact ⟨hcp, hlaid, hview⟩
  · obtain ⟨e, hrun'⟩ := run_rollback_of_rejected hcp
    rw [hrun] at hrun'
    cases hrun'

end Trace

end TraceIR
