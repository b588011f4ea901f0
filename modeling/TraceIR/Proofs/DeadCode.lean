import TraceIR.Proofs.Survival

/-!
# Dead code elimination

One backward walk propagates marks, unlinks what is dead and threads the chain of `NOP`s. In a trace
without `NOP`s of its own all chains fit the records at every point of the walk, half of them
rewritten or not (`Trace.Chained`). What does not speak of chains is the invariant `Trace.Walked`.

* `Chained.walkInvariant` — one step of the walk keeps the chains.
* `Sweepable.run_eliminateDeadCode` — so does the whole walk, and closing the chain of `NOP`s.
* `Sweepable.exactly_the_needed_survive` — what dead code elimination does.
-/

namespace TraceIR.Trace

/-- All chains fit the records, and as many instructions were removed as there are `NOP`s. -/
structure Chained (t : Trace) (s : Sweep) : Prop where
  wellFormed : t.view.WellFormed
  removed : ∃ refs, t.view.IsChain .nop refs ∧ s.removed = refs.length

private theorem Sweepable.op_ne_nop_of_view {t : Trace} (h : t.Sweepable) {r : Ref} {x : Record}
    (hx : t.view.record r = some x) : x.op ≠ .nop := by
  intro hop
  -- below the border there are only constants
  have hins : r.isConst = false := by
    rw [← h.sound.wellFormed.kind hx, hop]
    rfl
  exact h.op_ne_nop (base_le_of_not_const hins) (record?_eq_ok_iff.mpr hx) hop

/-- At the beginning there are no `NOP`s. -/
private theorem Sweepable.chained {t : Trace} (h : t.Sweepable) {s : Sweep}
    (hremoved : s.removed = 0) :
    t.Chained s := by
  refine ⟨h.sound.wellFormed, ?_⟩
  obtain ⟨refs, hchain⟩ := h.sound.wellFormed.chains .nop
  obtain rfl : refs = [] := by
    refine List.eq_nil_iff_forall_not_mem.mpr fun r hr => ?_
    obtain ⟨-, x, hx, hop⟩ := (hchain.mem_iff r).mp hr
    exact h.op_ne_nop_of_view hx hop
  exact ⟨[], hchain, hremoved⟩

/-- **One step** of the walk keeps the chains. -/
theorem Chained.walkInvariant {t₀ : Trace} (h : t₀.Sweepable) :
    WalkInvariant t₀ fun t s _ => t.Chained s := by
  intro t s r s' t' hfirst hlive hs hchained hstep
  cases hstep with
  | keep hx hkept hlinks hremoved => exact ⟨hchained.wellFormed, hremoved ▸ hchained.removed⟩
  | @drop x _ _ hx hdropped hview hlinks hremoved =>
    have hr : r < Ref.limit := UInt32.lt_of_lt_of_le hlive h.sound.laid.nins_le
    have hretirable := hs.retirable hchained.wellFormed.toRanged hfirst hx
    have hop : x.op ≠ .nop := h.op_ne_nop_of_view ((hs.ahead (Ref.lt_succ hr)).symm.trans hx)
    -- there are no `NOP`s but those that the walk has made
    have hpassed : ∀ {q y}, t.view.record q = some y → y.op = .nop → r < q := by
      intro q y hy hyop
      by_contra hle
      have hlt := UInt32.lt_of_le_of_lt (UInt32.not_lt.mp hle) (Ref.lt_succ hr)
      rw [hs.ahead hlt] at hy
      exact h.op_ne_nop_of_view hy hyop
    obtain ⟨refs, hchain, hcount⟩ := hchained.removed
    refine ⟨?_, refs ++ [r], ?_, ?_⟩
    · rw [hview]
      exact hretirable.wellFormed_retire hchained.wellFormed hop hpassed
    · rw [hview]
      exact hretirable.isChain_nop hop hpassed hchain
    · rw [hremoved, if_neg hop, hcount, List.length_append]
      rfl

/-- At the end of the walk the last `NOP` has no link already. -/
private theorem Chained.relink_nop {t₀ t : Trace} {s : Sweep} (hchained : t.Chained s)
    (hs : Walked t₀ t s Ref.first) (hfirst : ∀ {q x}, t.view.record q = some x →
    x.op = .nop → Ref.first ≤ q) : t.view.relink (s.links.get .nop) .nop Ref.none = t.view := by
  obtain ⟨refs, hchain⟩ := hchained.wellFormed.chains .nop
  have hpassed : t.view.IsChain .nop (refs ++ []) := (List.append_nil refs).symm ▸ hchain
  refine View.relink_eq_self hchain.linked (fun q hq => ?_) ?_
  · obtain ⟨-, x, hx, -⟩ := (hchain.mem_iff q).mp hq
    exact hs.laid.ne_none hx
  · refine (hs.oldest .nop).eq_getLastD rfl (by decide) hpassed (fun q hq => ?_) fun q hq => ?_
    · obtain ⟨-, x, hx, hop⟩ := (hchain.mem_iff q).mp hq
      exact hfirst hx hop
    · exact absurd hq List.not_mem_nil

/-- `t'` is what dead code elimination makes of `t`, and all chains fit. -/
structure Swept (t t' : Trace) (s : Sweep) : Prop extends t.Survives t', t'.Chained s

/-- Dead code elimination never fails. -/
theorem Sweepable.run_eliminateDeadCode {t : Trace} (h : t.Sweepable)
    (hon : t.config.deadCode = true) :
    ∃ s t', eliminateDeadCode.run t = .ok s.removed t' ∧ Swept t t' s := by
  obtain ⟨s, t₁, t', hrun, hs, hchained, hlaid, hview⟩ := h.sound.laid.run_eliminateDeadCode
    (I := fun t s _ => t.Chained s) hon h.snapshot_lt (Chained.walkInvariant h)
    fun _ _ hremoved => h.chained hremoved
  have hnop : ∀ {q x}, t₁.view.record q = some x → x.op = .nop → Ref.first ≤ q := by
    intro q x hx hop
    by_contra hlt
    rw [hs.ahead (UInt32.not_le.mp hlt)] at hx
    exact h.op_ne_nop_of_view hx hop
  obtain ⟨n, t'', hrun', hsurvives⟩ := h.grounded.run_eliminateDeadCode hon
  rw [hrun] at hrun'
  cases hrun'
  rw [hchained.relink_nop hs hnop] at hview
  exact ⟨s, t', hrun, hsurvives, hview ▸ hchained.wellFormed, hview ▸ hchained.removed⟩

/-! ### What is left -/

/-- `t'` is `t` without the instructions that it does not need, `n` in number. -/
structure Purged (t t' : Trace) (n : Nat) : Prop where
  kept : ∀ {r x}, Ref.first ≤ r → t.record? r = .ok x → t.Needed r →
    ∃ p, t'.record? r = .ok { x with prev := p }
  dropped : ∀ {r}, Ref.first ≤ r → r < t.nins → ¬ t.Needed r →
    ∃ p, t'.record? r = .ok { op := .nop, ty := Ty.nil, left := 0, right := 0, prev := p }
  /-- The chains of instructions list those that survive. `BASE` always does. -/
  chain : ∀ op, op.isConst = false → op ≠ .nop →
    ∃ refs, t'.chain op = .ok refs ∧ refs.Pairwise (· > ·) ∧
      ∀ r, r ∈ refs ↔ (r = Ref.base ∨ t.Needed r) ∧ ∃ x, t.record? r = .ok x ∧ x.op = op
  chain_nop : ∃ refs, t'.chain .nop = .ok refs ∧ refs.Pairwise (· > ·) ∧ refs.length = n ∧
      ∀ r, r ∈ refs ↔ Ref.first ≤ r ∧ r < t.nins ∧ ¬ t.Needed r
  base : t'.record? Ref.base = t.record? Ref.base
  constant : ∀ r, r.isConst = true → t'.record? r = t.record? r
  chain_constant : ∀ op, op.isConst = true → t'.chain op = t.chain op
  nins : t'.nins = t.nins
  nk : t'.nk = t.nk
  snapshots : t'.snapshots = t.snapshots
  config : t'.config = t.config
  pool : t'.pool = t.pool
  folder : t'.folder = t.folder
  guardEmitted : t'.guardEmitted = t.guardEmitted

/-- Records below the first instruction are as they were. -/
private theorem Survives.record?_of_lt {t t' : Trace} (h : t.Survives t') (ht : t.Sweepable)
    {r : Ref} (hr : r < Ref.first) : t'.record? r = t.record? r := by
  have hnk : t'.nk = t.nk := h.outline.nk
  have hnins : t'.nins = t.nins := h.outline.nins
  rw [h.laid.record?_eq, ht.sound.laid.record?_eq, h.below hr, hnk, hnins]

namespace Swept

variable {t t' : Trace} {s : Sweep}

/-- Records of other opcodes than `NOP` survive if they are needed, and `BASE` does. -/
private theorem exists_op_iff (h : t.Sweepable) (hs : Swept t t' s) {op : Opcode}
    (hop : op.isConst = false) (hnop : op ≠ .nop) (r : Ref) :
    (∃ x, t'.view.record r = some x ∧ x.op = op) ↔
      (r = Ref.base ∨ t.Needed r) ∧ ∃ x, t.view.record r = some x ∧ x.op = op := by
  by_cases hfirst : Ref.first ≤ r
  · have hbase : r ≠ Ref.base := by
      rintro rfl
      exact absurd hfirst (by decide)
    by_cases hneeded : t.Needed r
    · rw [View.exists_op_iff (hs.kept hfirst hneeded)]
      exact ⟨fun hx => ⟨.inr hneeded, hx⟩, And.right⟩
    · refine ⟨fun ⟨x, hx, hxop⟩ => ?_, fun hx => absurd hx.1 (not_or.mpr ⟨hbase, hneeded⟩)⟩
      -- what is not needed has become a `NOP`
      have hlive := ((hs.wellFormed.live_iff r).mp ⟨x, hx⟩).2
      rw [hs.outline.nins] at hlive
      obtain ⟨p, hp⟩ := exists_prev_of_unlinked (x := .blank) (hs.dropped hfirst hlive hneeded)
      rw [hx] at hp
      obtain rfl := Option.some.inj hp
      exact absurd hxop.symm hnop
  · rw [hs.below (UInt32.not_le.mp hfirst)]
    refine ⟨fun ⟨x, hx, hxop⟩ => ⟨.inl ?_, x, hx, hxop⟩, And.right⟩
    have hins : r.isConst = false := by
      rw [← h.sound.wellFormed.kind hx, hxop, hop]
    have hle := base_le_of_not_const hins
    have hlt := UInt32.not_le.mp hfirst
    grind

/-- `NOP`s are the instructions that are not needed. -/
private theorem exists_nop_iff (h : t.Sweepable) (hs : Swept t t' s) (r : Ref) :
    (∃ x, t'.view.record r = some x ∧ x.op = .nop) ↔
      Ref.first ≤ r ∧ r < t.nins ∧ ¬ t.Needed r := by
  constructor
  · rintro ⟨x, hx, hop⟩
    have hlive := ((hs.wellFormed.live_iff r).mp ⟨x, hx⟩).2
    rw [hs.outline.nins] at hlive
    have hfirst : Ref.first ≤ r := by
      by_contra hlt
      rw [hs.below (UInt32.not_le.mp hlt)] at hx
      exact h.op_ne_nop_of_view hx hop
    refine ⟨hfirst, hlive, fun hneeded => ?_⟩
    obtain ⟨y, hy, hyop⟩ := (View.exists_op_iff (hs.kept hfirst hneeded) .nop).mp ⟨x, hx, hop⟩
    exact h.op_ne_nop_of_view hy hyop
  · rintro ⟨hfirst, hlive, hneeded⟩
    obtain ⟨p, hp⟩ := exists_prev_of_unlinked (x := .blank) (hs.dropped hfirst hlive hneeded)
    exact ⟨_, hp, rfl⟩

private theorem not_fixed_of_base_le {r : Ref} (hr : Ref.base ≤ r) : ¬ r.IsFixed := by
  rw [Ref.isFixed_iff]
  exact fun hfixed => absurd hfixed.2 (UInt32.not_lt.mpr hr)

/-- Constants and their chains are as they were. -/
private theorem chain_constant (h : t.Sweepable) (hs : Swept t t' s) {op : Opcode}
    (hop : op.isConst = true) : t'.chain op = t.chain op := by
  obtain ⟨refs, hchain⟩ := h.sound.wellFormed.chains op
  obtain ⟨refs', hchain'⟩ := hs.wellFormed.chains op
  have hsame : refs' = refs := by
    refine hchain'.newer.eq_of_mem_iff hchain.newer fun r => ?_
    rw [hchain'.mem_iff, hchain.mem_iff]
    by_cases hr : r < Ref.first
    · rw [hs.below hr]
    · -- from the first instruction on there is no constant
      have hins := isConst_eq_false_of_le (base_le_of_first_le (UInt32.not_lt.mp hr))
      refine and_congr_right fun _ => ⟨fun ⟨x, hx, hxop⟩ => ?_, fun ⟨x, hx, hxop⟩ => ?_⟩
      · have hkind := hs.wellFormed.kind hx
        rw [hxop, hop, hins] at hkind
        cases hkind
      · have hkind := h.sound.wellFormed.kind hx
        rw [hxop, hop, hins] at hkind
        cases hkind
  rw [h.sound.laid.chain_eq hchain, hs.laid.chain_eq hchain', hsame]

/-- When the walk is over, exactly what was not needed is gone. -/
private theorem purged (h : t.Sweepable) (hs : Swept t t' s) : t.Purged t' s.removed where
  kept {r x} hfirst hx hneeded := by
    have hbody := hs.kept hfirst hneeded
    rw [record?_eq_ok_iff.mp hx] at hbody
    obtain ⟨p, hp⟩ := exists_prev_of_unlinked hbody
    exact ⟨p, record?_eq_ok_iff.mpr hp⟩
  dropped hfirst hlive hneeded := by
    obtain ⟨p, hp⟩ := exists_prev_of_unlinked (x := .blank) (hs.dropped hfirst hlive hneeded)
    exact ⟨p, record?_eq_ok_iff.mpr hp⟩
  chain op hop hnop := by
    obtain ⟨refs, hchain⟩ := hs.wellFormed.chains op
    refine ⟨refs, hs.laid.chain_eq hchain,
      hchain.newer.imp (Opcode.newer_of_not_const hop).mp, fun r => ?_⟩
    simp only [hchain.mem_iff, hs.exists_op_iff h hop hnop, record?_eq_ok_iff]
    refine and_iff_right_of_imp fun hr => not_fixed_of_base_le ?_
    rcases hr.1 with rfl | hneeded
    · exact UInt32.le_rfl
    · exact hneeded.base_le
  chain_nop := by
    obtain ⟨refs, hchain, hcount⟩ := hs.removed
    refine ⟨refs, hs.laid.chain_eq hchain,
      hchain.newer.imp (Opcode.newer_of_not_const rfl).mp, hcount.symm, fun r => ?_⟩
    rw [hchain.mem_iff, hs.exists_nop_iff h]
    exact and_iff_right_of_imp fun hr => not_fixed_of_base_le (base_le_of_first_le hr.1)
  base := hs.toSurvives.record?_of_lt h (by decide)
  constant r hr := hs.toSurvives.record?_of_lt h (by
    rw [UInt32.lt_iff_toNat_lt, Ref.toNat_first]
    exact Nat.lt_succ_of_lt ((Ref.isConst_iff r).mp hr))
  chain_constant _ hop := hs.chain_constant h hop
  nins := hs.outline.nins
  nk := hs.outline.nk
  snapshots := hs.outline.snapshots
  config := hs.outline.config
  pool := hs.outline.pool
  folder := hs.outline.folder
  guardEmitted := hs.outline.guardEmitted

end Swept

/-- **Dead code.** Dead code elimination succeeds on every trace it is made for. It keeps exactly
the instructions that are needed, turns all others into `NOP`s, and leaves every chain listing what
is now there. The answer is the number of instructions removed. -/
theorem Sweepable.exactly_the_needed_survive {t : Trace} (h : t.Sweepable)
    (hon : t.config.deadCode = true) :
    ∃ n t', eliminateDeadCode.run t = .ok n t' ∧ t.Purged t' n := by
  obtain ⟨s, t', hrun, hs⟩ := h.run_eliminateDeadCode hon
  exact ⟨s.removed, t', hrun, hs.purged h⟩

/-- A trace in which one instruction is needed by a snapshot, one by that instruction, and one by
nothing. -/
theorem exactly_the_needed_survive_of_three :
    ∃ t₀, start {} {} = .ok t₀ ∧
      ∃ t, t = t₀.steps
          [.emitRaw ⟨.add, rfl⟩ Ty.int Ref.nil Ref.nil,
            .emitRaw ⟨.mul, rfl⟩ Ty.int Ref.first Ref.nil,
            .emitRaw ⟨.sub, rfl⟩ Ty.int Ref.first Ref.nil, .addSnapshot [Ref.first + 1]] ∧
        t.Sweepable ∧ t.config.deadCode = true ∧
        ∃ n t', eliminateDeadCode.run t = .ok n t' ∧ t.Purged t' n := by
  obtain ⟨t₀, ht₀⟩ : ∃ t, start {} {} = .ok t := ⟨_, rfl⟩
  refine ⟨t₀, ht₀, _, rfl, ?_⟩
  have hsound := ((Reachable.start ht₀).steps
    [.emitRaw ⟨.add, rfl⟩ Ty.int Ref.nil Ref.nil, .emitRaw ⟨.mul, rfl⟩ Ty.int Ref.first Ref.nil,
      .emitRaw ⟨.sub, rfl⟩ Ty.int Ref.first Ref.nil, .addSnapshot [Ref.first + 1]]).sound
  generalize ht : t₀.steps _ = t at hsound ⊢
  obtain ⟨hon, hnins, hsnapshots, hbase, hadd, hmul, hsub⟩ :
      t.config.deadCode = true ∧ t.nins = Ref.first + 3 ∧ t.snapshots = #[[Ref.first + 1]] ∧
      t.record? Ref.base = .ok { op := .base, ty := Ty.ptr } ∧
      t.record? Ref.first = .ok { op := .add, ty := Ty.int, left := Ref.nil, right := Ref.nil } ∧
      t.record? (Ref.first + 1) =
        .ok { op := .mul, ty := Ty.int, left := Ref.first, right := Ref.nil } ∧
      t.record? (Ref.first + 2) =
        .ok { op := .sub, ty := Ty.int, left := Ref.first, right := Ref.nil } := by
    subst ht
    cases ht₀
    exact ⟨rfl, rfl, rfl, rfl, rfl, rfl, rfl⟩
  have hcases : ∀ {r x}, Ref.base ≤ r → t.record? r = .ok x →
      x.op ≠ .nop ∧ ∀ q, q.isConst = false → x.left = q ∨ x.right = q → q < r := by
    intro r x hr hx
    have hlt := ((hsound.wellFormed.live_iff r).mp ⟨x, record?_eq_ok_iff.mp hx⟩).2
    change r < t.nins at hlt
    rw [hnins, UInt32.lt_iff_toNat_lt] at hlt
    rw [UInt32.le_iff_toNat_le] at hr
    change r.toNat < 0x8004 at hlt
    change 0x8000 ≤ r.toNat at hr
    obtain h | h | h | h : r.toNat = 0x8000 ∨ r.toNat = 0x8001 ∨ r.toNat = 0x8002 ∨
        r.toNat = 0x8003 := by omega
    · obtain rfl : r = Ref.base := UInt32.toNat_inj.mp h
      cases hbase.symm.trans hx
      refine ⟨by decide, ?_⟩
      rintro q hq (rfl | rfl)
      · exact absurd hq (by decide)
      · exact absurd hq (by decide)
    · obtain rfl : r = Ref.first := UInt32.toNat_inj.mp h
      cases hadd.symm.trans hx
      refine ⟨by decide, ?_⟩
      rintro q hq (rfl | rfl)
      · exact absurd hq (by decide)
      · exact absurd hq (by decide)
    · obtain rfl : r = Ref.first + 1 := UInt32.toNat_inj.mp h
      cases hmul.symm.trans hx
      refine ⟨by decide, ?_⟩
      rintro q hq (rfl | rfl)
      · decide
      · exact absurd hq (by decide)
    · obtain rfl : r = Ref.first + 2 := UInt32.toNat_inj.mp h
      cases hsub.symm.trans hx
      refine ⟨by decide, ?_⟩
      rintro q hq (rfl | rfl)
      · decide
      · exact absurd hq (by decide)
  have hsweepable : t.Sweepable :=
    { sound := hsound
      op_ne_nop := fun hr hx => (hcases hr hx).1
      snapshot_lt := by
        intro refs hrefs r hr
        rw [hsnapshots] at hrefs
        obtain rfl := Array.mem_singleton.mp hrefs
        obtain rfl := List.mem_singleton.mp hr
        rw [hnins]
        decide
      operand_lt := fun hu ⟨_, hx, hins, hop⟩ =>
        (hcases hu hx).2 _ hins (hop.imp And.right And.right) }
  exact ⟨hsweepable, hon, hsweepable.exactly_the_needed_survive hon⟩

end TraceIR.Trace
