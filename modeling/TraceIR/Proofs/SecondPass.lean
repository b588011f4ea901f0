import TraceIR.Proofs.Passes

/-!
# A second pass changes nothing

A pass that eliminates dead code threads the chain of `NOP`s anew, in part through records that it
keeps. Done twice in a row it keeps and drops the same instructions, and everything that it writes
is there already. This holds although the chain of `NOP`s may come out short.

* `View.LinksTo` — what a link holds, be it the head of an opcode or the link of a record. Writing
  that through the link changes nothing (`LinksTo.relink_eq`).
* `Trace.Rethreads` — the invariant of the first walk: whatever it has dropped is held by the link of
  the next newer `NOP`, unless that link was cut because a `NOP` was kept below.
* `Trace.Rethreaded` — a trace as a pass leaves it. Every pass leaves such a trace
  (`Sweeps.exists_rethreaded`).
* `Trace.Retraces` — the invariant of the second walk: nothing has changed but the link of the `NOP`
  that was passed last, and that will be written again.
* `Trace.second_pass_changes_nothing` — two passes.
-/

namespace TraceIR

private theorem Heads.set_set (h : Heads) (op : Opcode) (r r' : Ref) :
    (h.set op r).set op r' = h.set op r' :=
  congrArg Heads.mk (Vector.set_set ..)

namespace View

variable {v v' : View} {op op' : Opcode} {r r' link p q : Ref} {x y : Record}

/-! ### What a link holds -/

/-- The link holds the reference: the head of the opcode, or the link of a record. -/
def LinksTo (v : View) (link : Ref) (op : Opcode) (r : Ref) : Prop :=
  if link = Ref.none then v.heads.get op = r else ∃ x, v.record link = some x ∧ x.prev = r

private theorem linksTo_none : v.LinksTo Ref.none op r ↔ v.heads.get op = r := by
  rw [LinksTo, if_pos rfl]

private theorem linksTo_of_ne (hlink : link ≠ Ref.none) :
    v.LinksTo link op r ↔ ∃ x, v.record link = some x ∧ x.prev = r := by
  rw [LinksTo, if_neg hlink]

/-- A link holds what was written through it. -/
private theorem linksTo_relink (hlink : link = Ref.none ∨ ∃ x, v.record link = some x) :
    (v.relink link op r).LinksTo link op r := by
  by_cases hnone : link = Ref.none
  · subst hnone
    rw [linksTo_none, relink_none, Heads.get_set_self]
  · obtain ⟨x, hx⟩ := hlink.resolve_left hnone
    rw [linksTo_of_ne hnone, relink_of_record hnone hx]
    exact ⟨_, Function.update_self .., rfl⟩

/-- Other links hold what they held. -/
private theorem LinksTo.relink_of_ne (h : v.LinksTo q op' p) (hq : q ≠ link) :
    (v.relink link op r).LinksTo q op' p := by
  by_cases hnone : q = Ref.none
  · subst hnone
    rw [linksTo_none] at h ⊢
    rw [relink_heads_of_ne_none v (Ne.symm hq), h]
  · rw [linksTo_of_ne hnone] at h ⊢
    rw [relink_record_of_ne v hq]
    exact h

/-- Writing through a link what it holds already changes nothing. -/
theorem LinksTo.relink_eq (h : v.LinksTo link op r) : v.relink link op r = v := by
  by_cases hnone : link = Ref.none
  · subst hnone
    rw [linksTo_none] at h
    rw [relink_none, ← h, Heads.set_get]
  · rw [linksTo_of_ne hnone] at h
    obtain ⟨x, hx, rfl⟩ := h
    rw [relink_of_record hnone hx, setRecord, ← hx, Function.update_eq_self]

/-- Of two references that are written through a link the second one counts. -/
private theorem relink_relink (v : View) (link : Ref) (op : Opcode) (r r' : Ref) :
    (v.relink link op r).relink link op r' = v.relink link op r' := by
  by_cases hnone : link = Ref.none
  · subst hnone
    rw [relink_none, relink_none, relink_none, Heads.set_set]
  · cases hx : v.record link with
    | none =>
      have hsame : v.relink link op r = v := by rw [relink, if_neg hnone, hx]
      rw [hsame]
    | some x =>
      rw [relink_of_record hnone hx, relink_of_record hnone hx,
        relink_of_record hnone (Function.update_self ..)]
      dsimp only [setRecord]
      rw [Function.update_idem]

/-! ### The oldest record of an opcode -/

/-- Links do not matter. -/
private theorem IsOldest.congr {oldest : Ref} (h : v.IsOldest op r oldest)
    (hrecord : ∀ q, r ≤ q →
      (v'.record q).map Record.unlinked = (v.record q).map Record.unlinked) :
    v'.IsOldest op r oldest := by
  rcases h with ⟨hnone, hall⟩ | ⟨hle, holdest, hleast⟩
  · refine .inl ⟨hnone, ?_⟩
    intro q x hq hx hop
    obtain ⟨y, hy, hyop⟩ := (exists_op_iff (hrecord q hq) op).mp ⟨x, hx, hop⟩
    exact hall q y hq hy hyop
  · refine .inr ⟨hle, (exists_op_iff (hrecord oldest hle) op).mpr holdest, ?_⟩
    intro q x hq hx hop
    obtain ⟨y, hy, hyop⟩ := (exists_op_iff (hrecord q hq) op).mp ⟨x, hx, hop⟩
    exact hleast q y hq hy hyop

private theorem IsOldest.unique (h : v.IsOldest op r p) (h' : v.IsOldest op r q) : p = q := by
  rcases h with ⟨rfl, hall⟩ | ⟨hle, ⟨x, hx, hop⟩, hleast⟩
  · rcases h' with ⟨rfl, -⟩ | ⟨hle, ⟨x, hx, hop⟩, -⟩
    · rfl
    · exact absurd hop (hall q x hle hx)
  · rcases h' with ⟨-, hall⟩ | ⟨hle', ⟨x', hx', hop'⟩, hleast'⟩
    · exact absurd hop (hall p x hle hx)
    · exact UInt32.le_antisymm (hleast q x' hle' hx' hop') (hleast' p x hle hx hop)

/-- A record of the opcode lies between the oldest one and those that are newer than it. -/
private theorem IsOldest.ne_of_between (h : v.IsOldest op r p) (h' : v.IsOldest op (r' + 1) q)
    (hv : v.Ranged) (hle : r ≤ r') (hx : v.record r' = some x) (hop : x.op = op) : q ≠ p := by
  have hr' : r' < Ref.limit := UInt32.lt_of_lt_of_le ((hv.live_iff r').mp ⟨x, hx⟩).2 hv.nins_le
  rintro rfl
  rcases h with ⟨-, hall⟩ | ⟨-, ⟨y, hy, -⟩, hleast⟩
  · exact hall r' x hle hx hop
  · rcases h' with ⟨rfl, -⟩ | ⟨hlater, -⟩
    · rw [hv.record_none] at hy
      cases hy
    · exact absurd (hleast r' x hle hx hop) (UInt32.not_le.mpr ((Ref.succ_le_iff hr').mp hlater))

/-! ### Links and records that retire -/

variable {links : Heads}

/-- The link of the `NOP` that was passed last holds the record that retires. -/
private theorem Retirable.linksTo_self (h : v.Retirable links r x) :
    (v.retire links r x).LinksTo (links.get .nop) .nop r := by
  by_cases hnone : links.get .nop = Ref.none
  · rw [hnone, linksTo_none, retire_head_nop hnone]
  · obtain ⟨hlt, hnop, -⟩ := h.lt_oldest hnone
    have hne : links.get .nop ≠ r := (UInt32.ne_of_lt hlt).symm
    obtain ⟨y, hy, hyop⟩ := (exists_op_iff (retire_record_unlinked hne) .nop).mpr hnop
    rw [linksTo_of_ne hnone]
    rcases h.nop_of_retire hne hy hyop with ⟨-, hprev⟩ | ⟨habsurd, -⟩
    · exact ⟨y, hy, hprev⟩
    · exact absurd rfl habsurd

/-- The links of other `NOP`s hold what they held, and so does the head if a `NOP` was passed. -/
private theorem Retirable.linksTo_of_ne (h : v.Retirable links r x) (hlink : v.LinksTo q .nop p)
    (hq : q ≠ links.get .nop) (hqr : q ≠ r)
    (hnop : q = Ref.none ∨ ∃ y, v.record q = some y ∧ y.op = .nop) :
    (v.retire links r x).LinksTo q .nop p := by
  by_cases hnone : q = Ref.none
  · subst hnone
    rw [linksTo_none] at hlink ⊢
    rw [retire_head_nop_of_ne (Ne.symm hq), hlink]
  · rw [View.linksTo_of_ne hnone] at hlink ⊢
    obtain ⟨y, hy, hprev⟩ := hlink
    obtain ⟨z, hz, hzop⟩ :=
      (exists_op_iff (retire_record_unlinked hqr) .nop).mpr (hnop.resolve_left hnone)
    rcases h.nop_of_retire hqr hz hzop with ⟨habsurd, -⟩ | ⟨-, hold⟩
    · exact absurd habsurd hq
    · rw [hy] at hold
      obtain rfl := Option.some.inj hold
      exact ⟨y, hz, hprev⟩

end View

namespace Trace

variable {t t' : Trace}

/-! ### The first walk -/

/-- The walk over `t₀` has made it `t` and come down to `r`. What it has dropped is held by the link
of the next newer `NOP`. Where a `NOP` was kept below one that was dropped, the link between them was
cut, and the link of what was dropped last is still empty. -/
structure Rethreads (t₀ t : Trace) (s : Sweep) (r : Ref) : Prop where
  ranged : t.view.Ranged
  fed : ∀ {d q}, r ≤ d → d < t₀.nins → ¬ t₀.Kept d → t.view.IsOldest .nop (d + 1) q →
    t.view.LinksTo q .nop d
  cut : ∀ {k y q}, r ≤ k → t.view.record k = some y → y.op = .nop → t₀.Kept k →
    t.view.IsOldest .nop (k + 1) q → q ≠ Ref.none → ¬ t₀.Kept q → t.view.LinksTo q .nop Ref.none
  last : s.links.get .nop ≠ Ref.none → ¬ t₀.Kept (s.links.get .nop) →
    t.view.LinksTo (s.links.get .nop) .nop Ref.none

/-- **One step** of the first walk. -/
theorem Rethreads.walkInvariant {t₀ : Trace} (h : t₀.Laid) : WalkInvariant t₀ (Rethreads t₀) := by
  intro t s r s' t' hfirst hlive hs hi hstep
  have hr : r < Ref.limit := UInt32.lt_of_lt_of_le hlive h.nins_le
  cases hstep with
  | @keep x _ hx hkept hlinks _ =>
    refine ⟨hi.ranged, ?_, ?_, ?_⟩
    · intro d q hle hd hdropped hq
      rcases Ref.eq_or_succ_le hr hle with rfl | hle
      · exact absurd hkept hdropped
      · exact hi.fed hle hd hdropped hq
    · intro k y q hle hy hyop hk hq hne hdropped
      rcases Ref.eq_or_succ_le hr hle with rfl | hle
      · -- the `NOP` is kept just now, and the one above it is the one that was passed last
        obtain rfl := hq.unique (hs.oldest .nop)
        exact hi.last hne hdropped
      · exact hi.cut hle hy hyop hk hq hne hdropped
    · rw [hlinks]
      by_cases hop : x.op = .nop
      · rw [hop, Heads.get_set_self]
        exact fun _ hdropped => absurd hkept hdropped
      · rw [Heads.get_set_of_ne _ _ hop]
        exact hi.last
  | @drop x _ _ hx hdropped hview hlinks _ =>
    have hretirable := hs.retirable hi.ranged hfirst hx
    have hnop := hs.oldest .nop
    -- above `r` the retired view holds the records of the old one, up to links
    have hold : ∀ {d q}, r ≤ d → d < Ref.limit →
        (t.view.retire s.links r x).IsOldest .nop (d + 1) q → t.view.IsOldest .nop (d + 1) q := by
      intro d q hle hd hq
      refine hq.congr fun q' hq' => (View.retire_record_unlinked ?_).symm
      rintro rfl
      exact absurd (UInt32.lt_of_le_of_lt hle ((Ref.succ_le_iff hd).mp hq')) (UInt32.lt_irrefl _)
    -- links that were settled before are not touched again
    have hstays : ∀ {d y q p}, r + 1 ≤ d → t.view.record d = some y → y.op = .nop →
        t.view.IsOldest .nop (d + 1) q → t.view.LinksTo q .nop p →
        (t.view.retire s.links r x).LinksTo q .nop p := by
      intro d y q p hle hy hyop hq hlink
      have hd : d < Ref.limit :=
        UInt32.lt_of_lt_of_le ((hi.ranged.live_iff d).mp ⟨y, hy⟩).2 hi.ranged.nins_le
      have hne := hnop.ne_of_between hq hi.ranged hle hy hyop
      rcases hq with ⟨rfl, -⟩ | ⟨hlater, hqnop, -⟩
      · exact hretirable.linksTo_of_ne hlink hne hretirable.ne_none_self.symm (.inl rfl)
      · have hrq : r < q := UInt32.lt_trans ((Ref.succ_le_iff hr).mp hle)
          ((Ref.succ_le_iff hd).mp hlater)
        exact hretirable.linksTo_of_ne hlink hne (UInt32.ne_of_lt hrq).symm (.inr hqnop)
    refine ⟨hview ▸ hretirable.ranged_retire, ?_, ?_, ?_⟩
    · intro d q hle hd hd' hq
      have hdlimit : d < Ref.limit := UInt32.lt_of_lt_of_le hd h.nins_le
      rw [hview] at hq ⊢
      replace hq := hold hle hdlimit hq
      rcases Ref.eq_or_succ_le hr hle with rfl | hle
      · obtain rfl := hq.unique hnop
        exact hretirable.linksTo_self
      · obtain ⟨p, hp⟩ := exists_prev_of_unlinked (x := .blank) (hs.dropped hle hd hd')
        exact hstays hle hp rfl hq (hi.fed hle hd hd' hq)
    · intro k y q hle hy hyop hk hq hne hq'
      have hkr : k ≠ r := by
        rintro rfl
        exact hdropped hk
      rw [hview] at hy hq ⊢
      have hle := (Ref.eq_or_succ_le hr hle).resolve_left hkr
      obtain ⟨z, hz, hzop⟩ :=
        (View.exists_op_iff (View.retire_record_unlinked hkr) .nop).mp ⟨y, hy, hyop⟩
      have hklimit : k < Ref.limit :=
        UInt32.lt_of_lt_of_le ((hi.ranged.live_iff k).mp ⟨z, hz⟩).2 hi.ranged.nins_le
      have hq := hold (UInt32.le_of_lt ((Ref.succ_le_iff hr).mp hle)) hklimit hq
      exact hstays hle hz hzop hq (hi.cut hle hz hzop hk hq hne hq')
    · rw [hview, hlinks, Heads.get_set_self]
      intro hne _
      rw [View.linksTo_of_ne hne]
      exact ⟨.blank, View.retire_record_self, rfl⟩

/-! ### What a pass leaves -/

/-- A trace as a pass leaves it. What the next pass would drop is blank and is held by the link of
the next newer `NOP`, links above `NOP`s that are kept have been cut, and the last link is empty. -/
structure Rethreaded (t : Trace) : Prop where
  laid : t.Laid
  ranged : t.view.Ranged
  blank : ∀ {d}, Ref.first ≤ d → d < t.nins → ¬ t.Kept d →
    (t.view.record d).map Record.unlinked = some .blank
  fed : ∀ {d q}, Ref.first ≤ d → d < t.nins → ¬ t.Kept d → t.view.IsOldest .nop (d + 1) q →
    t.view.LinksTo q .nop d
  cut : ∀ {k y q}, Ref.first ≤ k → t.view.record k = some y → y.op = .nop → t.Kept k →
    t.view.IsOldest .nop (k + 1) q → q ≠ Ref.none → ¬ t.Kept q → t.view.LinksTo q .nop Ref.none
  ended : ∀ {q}, t.view.IsOldest .nop Ref.first q → t.view.LinksTo q .nop Ref.none

/-- Records with the same bodies have the same operands. -/
private theorem uses_of_unlinked {u r : Ref}
    (h : (t'.view.record u).map Record.unlinked = (t.view.record u).map Record.unlinked)
    (huse : t.Uses u r) : t'.Uses u r := by
  obtain ⟨x, hx, hop⟩ := huse
  rw [record?_eq_ok_iff] at hx
  rw [hx] at h
  obtain ⟨p, hp⟩ := exists_prev_of_unlinked h
  exact ⟨_, record?_eq_ok_iff.mpr hp, hop⟩

/-- **What is kept** is kept again, and nothing else. -/
theorem kept_iff_of_unlinked (houtline : t.view.SameOutline t'.view) (ht' : t'.Laid)
    (hkept : ∀ {r}, Ref.first ≤ r → t.Kept r →
      (t'.view.record r).map Record.unlinked = (t.view.record r).map Record.unlinked)
    (hdropped : ∀ {r}, Ref.first ≤ r → r < t.nins → ¬ t.Kept r →
      (t'.view.record r).map Record.unlinked = some .blank) {r : Ref} :
    t'.Kept r ↔ t.Kept r := by
  have hsnapshots : t'.snapshots = t.snapshots := houtline.snapshots
  have hnins : t'.nins = t.nins := houtline.nins
  constructor
  · intro h
    induction h with
    | snapshot hrefs hr hins => exact .snapshot (hsnapshots ▸ hrefs) hr hins
    | @root r x hr hx hroot =>
      by_contra hnot
      rw [record?_eq_ok_iff] at hx
      have hlive := (ht'.record_isSome_iff r).mp (Option.isSome_iff_exists.mpr ⟨x, hx⟩)
      obtain ⟨p, hp⟩ :=
        exists_prev_of_unlinked (x := .blank) (hdropped hr (hnins ▸ hlive.2) hnot)
      rw [hx] at hp
      obtain rfl := Option.some.inj hp
      have hblank : ¬ (Record.blank.ty.isGuard = true ∨ Record.blank.op.hasSideEffect = true) := by
        decide
      exact hblank hroot
    | operand hfirst _ huse hlt ih =>
      exact .operand hfirst ih (uses_of_unlinked (hkept hfirst ih).symm huse) hlt
  · intro h
    induction h with
    | snapshot hrefs hr hins => exact .snapshot (hsnapshots ▸ hrefs) hr hins
    | @root r x hr hx hroot =>
      have hbody := hkept hr (.root hr hx hroot)
      rw [record?_eq_ok_iff.mp hx] at hbody
      obtain ⟨p, hp⟩ := exists_prev_of_unlinked hbody
      exact .root hr (record?_eq_ok_iff.mpr hp) hroot
    | operand hfirst hu huse hlt ih =>
      exact .operand hfirst ih (uses_of_unlinked (hkept hfirst hu) huse) hlt

/-- **A pass** leaves a rethreaded trace. -/
theorem Sweeps.exists_rethreaded (hsweeps : t.Sweeps) (h : t.Laid) (hranged : t.view.Ranged) :
    ∃ n t', eliminateDeadCode.run t = .ok n t' ∧ t'.Rethreaded ∧ t'.Sweeps := by
  obtain ⟨s, t₁, t', hrun, hs, hi, hlaid, hview⟩ :=
    h.run_eliminateDeadCode hsweeps.1 hsweeps.2 (Rethreads.walkInvariant h) fun s hlinks _ =>
      { ranged := hranged
        fed := fun hle hd => absurd hd (UInt32.not_lt.mpr hle)
        cut := fun {k y _} hle hy => by
          have hlive := (h.record_isSome_iff k).mp (Option.isSome_iff_exists.mpr ⟨y, hy⟩)
          exact absurd hlive.2 (UInt32.not_lt.mpr hle)
        last := fun hne => absurd (by rw [hlinks, Heads.get_empty]) hne }
  have hnop := hs.oldest .nop
  have houtline : t.view.SameOutline t'.view := by
    rw [hview]
    exact hs.outline.trans (View.sameOutline_relink _)
  have hnins : t'.nins = t.nins := houtline.nins
  -- the last link is the only difference to what the walk leaves
  have hunlinked : ∀ q,
      (t'.view.record q).map Record.unlinked = (t₁.view.record q).map Record.unlinked := by
    intro q
    rw [hview, View.relink_record_unlinked]
  have hkept : ∀ {r}, t'.Kept r ↔ t.Kept r :=
    kept_iff_of_unlinked houtline hlaid (fun hr hk => (hunlinked _).trans (hs.kept hr hk))
      fun hr hlt hd => (hunlinked _).trans (hs.dropped hr hlt hd)
  have hold : ∀ {r q}, t'.view.IsOldest .nop r q → t₁.view.IsOldest .nop r q :=
    fun hq => hq.congr fun q' _ => (hunlinked q').symm
  have hstays : ∀ {d y q p}, Ref.first ≤ d → t₁.view.record d = some y → y.op = .nop →
      t₁.view.IsOldest .nop (d + 1) q → t₁.view.LinksTo q .nop p → t'.view.LinksTo q .nop p := by
    intro d y q p hle hy hyop hq hlink
    rw [hview]
    exact hlink.relink_of_ne (hnop.ne_of_between hq hi.ranged hle hy hyop)
  refine ⟨s.removed, t', hrun, ?_, ?_⟩
  · refine
      { laid := hlaid
        ranged := hview ▸ hi.ranged.relink
        blank := fun hle hd hdropped => ?_
        fed := fun {d q} hle hd hdropped hq => ?_
        cut := fun {k y q} hle hy hyop hk hq hne hdropped => ?_
        ended := fun {q} hq => ?_ }
    · rw [hunlinked, hs.dropped hle (hnins ▸ hd) (mt hkept.mpr hdropped)]
    · have hdropped := mt hkept.mpr hdropped
      rw [hnins] at hd
      obtain ⟨p, hp⟩ := exists_prev_of_unlinked (x := .blank) (hs.dropped hle hd hdropped)
      exact hstays hle hp rfl (hold hq) (hi.fed hle hd hdropped (hold hq))
    · obtain ⟨z, hz, hzop⟩ := (View.exists_op_iff (hunlinked k) .nop).mp ⟨y, hy, hyop⟩
      exact hstays hle hz hzop (hold hq)
        (hi.cut hle hz hzop (hkept.mp hk) (hold hq) hne (mt hkept.mpr hdropped))
    · obtain rfl := (hold hq).unique hnop
      rw [hview]
      exact View.linksTo_relink hnop.eq_none_or_exists
  · have hconfig : t'.config = t.config := houtline.config
    have hsnapshots : t'.snapshots = t.snapshots := houtline.snapshots
    refine ⟨hconfig ▸ hsweeps.1, ?_⟩
    rw [hsnapshots, hnins]
    exact hsweeps.2

/-! ### The second walk -/

/-- The walk has changed nothing, or it has emptied the link of the `NOP` that it dropped last. -/
structure Retraces (t₀ t : Trace) (s : Sweep) : Prop where
  removed : s.removed = 0
  view : t.view = t₀.view ∨ s.links.get .nop ≠ Ref.none ∧ ¬ t₀.Kept (s.links.get .nop) ∧
    t.view = t₀.view.relink (s.links.get .nop) .nop Ref.none

/-- What the link held can be put back. -/
theorem Retraces.relink_eq {t₀ : Trace} {s : Sweep} {p : Ref} (h : Retraces t₀ t s)
    (hlink : t₀.view.LinksTo (s.links.get .nop) .nop p) :
    t.view.relink (s.links.get .nop) .nop p = t₀.view := by
  rcases h.view with hview | ⟨-, -, hview⟩
  · rw [hview, hlink.relink_eq]
  · rw [hview, View.relink_relink, hlink.relink_eq]

/-- The records are those of the trace before, up to links. -/
private theorem Retraces.unlinked {t₀ : Trace} {s : Sweep} (h : Retraces t₀ t s) (q : Ref) :
    (t.view.record q).map Record.unlinked = (t₀.view.record q).map Record.unlinked := by
  rcases h.view with hview | ⟨-, -, hview⟩
  · rw [hview]
  · rw [hview, View.relink_record_unlinked]

/-- **One step** of the second walk. -/
theorem Rethreaded.walkInvariant {t₀ : Trace} (h : t₀.Rethreaded) :
    WalkInvariant t₀ fun t s _ => Retraces t₀ t s := by
  intro t s r s' t' hfirst hlive hs hi hstep
  have hnop : t₀.view.IsOldest .nop (r + 1) (s.links.get .nop) :=
    (hs.oldest .nop).congr fun q _ => (hi.unlinked q).symm
  cases hstep with
  | @keep x _ hx hkept hlinks hremoved =>
    refine ⟨hremoved.trans hi.removed, ?_⟩
    rw [hlinks]
    by_cases hop : x.op = .nop
    · -- the link above a `NOP` that is kept was empty before
      left
      rcases hi.view with hview | ⟨hne, hdropped, hview⟩
      · exact hview
      · obtain ⟨y, hy, hyop⟩ := (View.exists_op_iff (hi.unlinked r) .nop).mp ⟨x, hx, hop⟩
        rw [hview, (h.cut hfirst hy hyop hkept hnop hne hdropped).relink_eq]
    · rw [Heads.get_set_of_ne _ _ hop]
      exact hi.view
  | @drop x _ _ hx hdropped hview hlinks hremoved =>
    -- what is dropped is blank already, so it leaves the chain of `NOP`s and comes back to it
    have hbody := (hi.unlinked r).trans (h.blank hfirst hlive hdropped)
    obtain ⟨p, hp⟩ := exists_prev_of_unlinked (x := .blank) hbody
    rw [hx] at hp
    obtain rfl := Option.some.inj hp
    have hne : r ≠ Ref.none := by
      rintro rfl
      exact absurd hfirst (by decide)
    have hrecord : ∃ y, t₀.view.record r = some y ∧ y.unlinked = .blank := by
      have hblank := h.blank hfirst hlive hdropped
      obtain ⟨p, hp⟩ := exists_prev_of_unlinked (x := .blank) hblank
      exact ⟨_, hp, rfl⟩
    refine ⟨hremoved.trans ((if_pos rfl).trans hi.removed), .inr ?_⟩
    rw [hlinks, Heads.get_set_self]
    refine ⟨hne, hdropped, ?_⟩
    obtain ⟨y, hy, hyblank⟩ := hrecord
    calc t'.view = ((t.view.relink (s.links.get .nop) .nop p).relink
            (s.links.get .nop) .nop r).setRecord r .blank := hview
      _ = (t.view.relink (s.links.get .nop) .nop r).setRecord r .blank := by
          rw [View.relink_relink]
      _ = t₀.view.setRecord r .blank := by
          rw [hi.relink_eq (h.fed hfirst hlive hdropped hnop)]
      _ = t₀.view.relink r .nop Ref.none := by
          rw [View.relink_of_record hne hy, ← hyblank]
          rfl

/-- **A pass over a rethreaded trace** counts nothing and changes nothing. -/
theorem Rethreaded.run_eliminateDeadCode (h : t.Rethreaded) (hsweeps : t.Sweeps) :
    ∃ t', eliminateDeadCode.run t = .ok 0 t' ∧ t'.Laid ∧ t'.view = t.view := by
  obtain ⟨s, t₁, t', hrun, hs, hi, hlaid, hview⟩ :=
    h.laid.run_eliminateDeadCode (I := fun t₁ s _ => Retraces t t₁ s) hsweeps.1 hsweeps.2
      h.walkInvariant fun s _ hremoved => ⟨hremoved, .inl rfl⟩
  rw [hi.removed] at hrun
  have hnop : t.view.IsOldest .nop Ref.first (s.links.get .nop) :=
    (hs.oldest .nop).congr fun q _ => (hi.unlinked q).symm
  exact ⟨t', hrun, hlaid, hview.trans (hi.relink_eq (h.ended hnop))⟩

/-! ### Two passes -/

/-- Traces with the same view show the same recording. -/
private theorem Laid.sameRecording (h' : t'.Laid) (h : t.Laid) (hview : t'.view = t.view) :
    t'.SameRecording t := by
  have hnk : t'.nk = t.nk := congrArg View.nk hview
  have hnins : t'.nins = t.nins := congrArg View.nins hview
  refine
    { nins := hnins
      nk := hnk
      snapshots := congrArg View.snapshots hview
      heads := fun op => congrArg (View.heads · |>.get op) hview
      record := fun r => ?_
      config := congrArg View.config hview
      folder := congrArg View.folder hview }
  rw [h'.record?_eq, h.record?_eq, hview, hnk, hnins]

/-- **Two passes.** The second of two passes in a row counts nothing, and it leaves every record with
its link, the newest record of every opcode, the snapshots and the range exactly as the first one
left them. The trace may hold `NOP`s, and neither its chains nor the order of operands matter. -/
theorem Sweeps.second_pass_changes_nothing (hsweeps : t.Sweeps) (h : t.Laid)
    (hranged : t.view.Ranged) :
    ∃ n t' t'', eliminateDeadCode.run t = .ok n t' ∧ eliminateDeadCode.run t' = .ok 0 t'' ∧
      t''.SameRecording t' ∧ t''.pool = t'.pool ∧ t''.guardEmitted = t'.guardEmitted := by
  obtain ⟨n, t', hrun, hrethreaded, hsweeps'⟩ := hsweeps.exists_rethreaded h hranged
  obtain ⟨t'', hrun', hlaid, hview⟩ := hrethreaded.run_eliminateDeadCode hsweeps'
  exact ⟨n, t', t'', hrun, hrun', hlaid.sameRecording hrethreaded.laid hview,
    congrArg View.pool hview, congrArg View.guardEmitted hview⟩

/-- A sum is dropped above a `NOP` that is a guard and another one below it. The link between the
first sum and the guard is cut, and a second pass leaves it so. -/
theorem second_pass_changes_nothing_around_guard :
    ∃ t, Reachable t ∧ t.Sweeps ∧ ∃ t' t'', eliminateDeadCode.run t = .ok 2 t' ∧
      t'.chain .nop = .ok [Ref.first + 2] ∧ eliminateDeadCode.run t' = .ok 0 t'' ∧
      t''.SameRecording t' := by
  obtain ⟨t₀, ht₀⟩ : ∃ t, start {} {} = .ok t := ⟨_, rfl⟩
  have hreachable := (((Reachable.start ht₀).step
    (.emitRaw ⟨.add, rfl⟩ Ty.int Ref.nil Ref.nil)).step
    (.emitRaw ⟨.nop, rfl⟩ Ty.int.guarded 0 0)).step (.emitRaw ⟨.add, rfl⟩ Ty.int Ref.nil Ref.nil)
  generalize ht : ((t₀.step _).step _).step _ = t at hreachable
  have hsweeps : t.Sweeps := by
    subst ht
    cases ht₀
    exact ⟨rfl, fun refs hrefs => absurd hrefs (Array.not_mem_empty refs)⟩
  obtain ⟨n, t', t'', hrun, hrun', hsame, -⟩ :=
    hsweeps.second_pass_changes_nothing hreachable.sound.laid hreachable.sound.wellFormed.toRanged
  obtain ⟨rfl, hchain⟩ : n = 2 ∧ t'.chain .nop = .ok [Ref.first + 2] := by
    subst ht
    cases ht₀
    cases hrun
    exact ⟨rfl, rfl⟩
  exact ⟨t, hreachable, hsweeps, t', t'', hrun, hchain, hrun', hsame⟩

end Trace

end TraceIR
