import TraceIR.Proofs.Survival
import TraceIR.Proofs.Threads

/-!
# Recordings with passes in between

Dead code may be eliminated at any point of a recording, and any number of times. Later passes meet
`NOP`s that earlier ones have left, and `NOP`s that were emitted as such.

* `Trace.Attainable` — a trace that steps of a recording and passes can reach. Its layout is sound
  and its view threaded (`Attainable.woven`).
* `Trace.Spares` — a pass would drop no instruction above a `NOP` that it keeps. This is what the
  chain of `NOP`s hangs on. If it lists all `NOP`s before a pass, it does so afterwards if and only
  if the pass spares them (`Woven.exists_isChain_nop_iff`). One direction is an invariant of the
  walk (`Trace.Unbroken`). For the other, what was dropped is linked to nothing or to what was
  dropped too (`Trace.CutOff`), so it never leads to the `NOP` that was kept below it.
-/

namespace TraceIR

/-- A step of a recording, or a pass that eliminates dead code. -/
inductive Operation where
  | step (s : Step)
  | eliminate

namespace Trace

/-- The trace after an operation, whether it succeeds or fails. -/
def operate (t : Trace) : Operation → Trace
  | .step s => t.step s
  | .eliminate => t.after eliminateDeadCode

/-- A trace that steps of a recording and passes can reach. -/
inductive Attainable : Trace → Prop
  | start {config : Config} {pool : Pool} {t : Trace} (h : start config pool = .ok t) :
      Attainable t
  | operate {t : Trace} (h : Attainable t) (o : Operation) : Attainable (t.operate o)

/-- A pass does something: the options ask for it, and snapshots name what is there. -/
def Sweeps (t : Trace) : Prop :=
  t.config.deadCode = true ∧ ∀ refs ∈ t.snapshots, ∀ r ∈ refs, r < t.nins

/-- With a `NOP` a pass keeps all instructions above it. -/
def Spares (t : Trace) : Prop :=
  ∀ k d x, t.record? k = .ok x → x.op = .nop → t.Kept k → k < d → d < t.nins → t.Kept d

/-- The layout of the trace is sound and its view threaded. -/
structure Woven (t : Trace) : Prop where
  laid : t.Laid
  threaded : t.view.Threaded

/-! ### One pass -/

/-- A pass that does nothing leaves the trace as it is. -/
theorem Laid.eliminate_of_not_sweeps {t : Trace} (h : t.Laid) (hnot : ¬ t.Sweeps) :
    t.after eliminateDeadCode = t := by
  by_cases hon : t.config.deadCode = true
  · obtain ⟨i, r, hrun⟩ := h.run_eliminateDeadCode_of_beyond hon fun hall => hnot ⟨hon, hall⟩
    exact after_of_error hrun
  · have hrun : eliminateDeadCode.run t = .ok 0 t := by
      rw [eliminateDeadCode, EStateM.run_bind, EStateM.run_get]
      dsimp only
      rw [if_pos (by rw [Bool.eq_false_of_not_eq_true hon]; rfl)]
      rfl
    exact after_of_ok hrun

/-- A pass that does something walks down and closes the chain of `NOP`s. -/
theorem Sweeps.eliminate {t : Trace} {I : Trace → Sweep → Ref → Prop} (hsweeps : t.Sweeps)
    (h : t.Laid) (hI : WalkInvariant t I)
    (hstart : ∀ s : Sweep, s.links = .empty → I t s t.nins) :
    ∃ s t₁, Walked t t₁ s Ref.first ∧ I t₁ s Ref.first ∧ (t.after eliminateDeadCode).Laid ∧
      (t.after eliminateDeadCode).view = t₁.view.relink (s.links.get .nop) .nop Ref.none := by
  obtain ⟨s, t₁, t', hrun, hs, hi, hlaid, hview⟩ :=
    h.run_eliminateDeadCode hsweeps.1 hsweeps.2 hI fun s hlinks _ => hstart s hlinks
  rw [after_of_ok hrun]
  exact ⟨s, t₁, hs, hi, hlaid, hview⟩

/-- **One step** of the walk keeps a view threaded. -/
theorem walkInvariant_threaded (t₀ : Trace) : WalkInvariant t₀ fun t _ _ => t.view.Threaded := by
  intro t s r s' t' hfirst _ hs hthreaded hstep
  cases hstep with
  | keep => exact hthreaded
  | drop hx _ hview =>
    rw [hview]
    exact hthreaded.retire (hs.retirable hthreaded.toRanged hfirst hx)

/-- **A pass** keeps a trace woven. -/
theorem Woven.eliminate {t : Trace} (h : t.Woven) : (t.after eliminateDeadCode).Woven := by
  by_cases hsweeps : t.Sweeps
  · obtain ⟨s, t₁, hs, hthreaded, hlaid, hview⟩ :=
      hsweeps.eliminate (I := fun u _ _ => u.view.Threaded) h.laid (walkInvariant_threaded t)
        fun _ _ => h.threaded
    exact ⟨hlaid, hview ▸ hthreaded.close (hs.oldest .nop)⟩
  · rw [h.laid.eliminate_of_not_sweeps hsweeps]
    exact h

theorem Woven.operate {t : Trace} (h : t.Woven) (o : Operation) : (t.operate o).Woven := by
  cases o with
  | step s =>
    obtain ⟨hlaid, hthreaded⟩ := View.lasting_threaded.step h.laid h.threaded s
    exact ⟨hlaid, hthreaded⟩
  | eliminate => exact h.eliminate

theorem Attainable.woven {t : Trace} (h : Attainable t) : t.Woven := by
  induction h with
  | start h =>
    obtain ⟨hlaid, hthreaded⟩ := View.lasting_threaded.of_start h
    exact ⟨hlaid, hthreaded⟩
  | operate _ o ih => exact ih.operate o

/-! ### Passes that spare `NOP`s -/

/-- The walk has left every link between `NOP`s full but the one that it goes on from. As long as it
keeps everything, nothing has changed. -/
structure Unbroken (t₀ t : Trace) (s : Sweep) (r : Ref) : Prop where
  threaded : t.view.Threaded
  fullBut : t.view.FullBut (s.links.get .nop)
  same : (∀ q, r ≤ q → q < t₀.nins → t₀.Kept q) → t = t₀

/-- **One step** of the walk of a pass that spares `NOP`s. -/
theorem Unbroken.walkInvariant {t₀ : Trace} (h : t₀.Woven)
    (hfull : ∀ {q x}, t₀.view.record q = some x → x.op = .nop → t₀.view.Full q x.prev)
    (hspares : t₀.Spares) : WalkInvariant t₀ (Unbroken t₀) := by
  intro t s r s' t' hfirst hlive hs hi hstep
  have hr : r < Ref.limit := UInt32.lt_of_lt_of_le hlive h.laid.nins_le
  cases hstep with
  | @keep x _ hx hkept hlinks _ =>
    refine ⟨hi.threaded, ?_, fun hall => hi.same fun q hle => hall q ?_⟩
    · rw [hlinks]
      by_cases hop : x.op = .nop
      · -- nothing was dropped so far
        have hx₀ := (hs.ahead (Ref.lt_succ hr)).symm.trans hx
        have hsame : t = t₀ := by
          refine hi.same fun q hle hq => ?_
          exact hspares r q x (record?_eq_ok_iff.mpr hx₀) hop hkept ((Ref.succ_le_iff hr).mp hle) hq
        refine ⟨hi.fullBut.head, fun {q y} hy hyop _ => ?_⟩
        rw [hsame] at hy ⊢
        exact hfull hy hyop
      · rw [Heads.get_set_of_ne _ _ hop]
        exact hi.fullBut
    · exact UInt32.le_of_lt ((Ref.succ_le_iff hr).mp hle)
  | @drop x _ _ hx hdropped hview hlinks _ =>
    have hretirable := hs.retirable hi.threaded.toRanged hfirst hx
    refine ⟨?_, ?_, fun hall => absurd (hall r UInt32.le_rfl hlive) hdropped⟩
    · rw [hview]
      exact hi.threaded.retire hretirable
    · rw [hview, hlinks, Heads.get_set_self]
      exact hi.fullBut.retire hretirable

/-! ### Passes that do not -/

/-- What the walk has dropped is linked to nothing or to what it has dropped too. -/
structure CutOff (t₀ t : Trace) (r : Ref) : Prop where
  threaded : t.view.Threaded
  link : ∀ {d y}, r ≤ d → d < t₀.nins → ¬ t₀.Kept d → t.view.record d = some y →
    y.prev = Ref.none ∨ ¬ t₀.Kept y.prev

/-- What the walk has dropped is a `NOP`. -/
private theorem Walked.op_of_dropped {t₀ t : Trace} {s : Sweep} {r d : Ref} {y : Record}
    (hs : Walked t₀ t s r) (hle : r ≤ d) (hd : d < t₀.nins) (hdropped : ¬ t₀.Kept d)
    (hy : t.view.record d = some y) : y.op = .nop := by
  obtain ⟨p, hp⟩ := exists_prev_of_unlinked (x := .blank) (hs.dropped hle hd hdropped)
  rw [hy] at hp
  obtain rfl := Option.some.inj hp
  rfl

/-- **One step** of the walk keeps that. -/
theorem CutOff.walkInvariant {t₀ : Trace} (h : t₀.Laid) :
    WalkInvariant t₀ fun t _ r => CutOff t₀ t r := by
  intro t s r s' t' hfirst hlive hs hi hstep
  have hr : r < Ref.limit := UInt32.lt_of_lt_of_le hlive h.nins_le
  cases hstep with
  | keep hx hkept =>
    refine ⟨hi.threaded, fun hle hd hdropped hy => ?_⟩
    rcases Ref.eq_or_succ_le hr hle with rfl | hle
    · exact absurd hkept hdropped
    · exact hi.link hle hd hdropped hy
  | @drop x _ _ hx hdropped hview _ _ =>
    have hretirable := hs.retirable hi.threaded.toRanged hfirst hx
    refine ⟨hview ▸ hi.threaded.retire hretirable, fun {d y} hle hd hdropped' hy => ?_⟩
    rw [hview] at hy
    by_cases hdr : d = r
    · -- what is dropped now has no link yet
      subst hdr
      rw [View.retire_record_self] at hy
      obtain rfl := Option.some.inj hy
      exact .inl rfl
    · -- what was dropped before may get linked to it, and to nothing else
      have hle : r + 1 ≤ d := (Ref.eq_or_succ_le hr hle).resolve_left hdr
      have hyop : y.op = .nop := by
        obtain ⟨z, hz, hzop⟩ :=
          (View.exists_op_iff (View.retire_record_unlinked hdr) y.op).mp ⟨y, hy, rfl⟩
        rw [← hzop]
        exact hs.op_of_dropped hle hd hdropped' hz
      rcases hretirable.nop_of_retire hdr hy hyop with ⟨-, hprev⟩ | ⟨-, hold⟩
      · rw [hprev]
        exact .inr hdropped
      · exact hi.link hle hd hdropped' hold

/-- Closing the chain keeps it too. -/
private theorem CutOff.close {t₀ t : Trace} {r d oldest : Ref} {y : Record} (h : CutOff t₀ t r)
    (hle : r ≤ d) (hd : d < t₀.nins) (hdropped : ¬ t₀.Kept d)
    (hy : (t.view.relink oldest .nop Ref.none).record d = some y) :
    y.prev = Ref.none ∨ ¬ t₀.Kept y.prev := by
  rcases View.nop_of_close h.threaded.toRanged hy with ⟨-, hprev⟩ | ⟨-, hold⟩
  · exact .inl hprev
  · exact h.link hle hd hdropped hold

/-! ### The chain of `NOP`s after a pass -/

/-- If what was dropped is cut off and yet all links are full, nothing was dropped above a `NOP`
that was kept. -/
private theorem kept_above {t₀ : Trace} {v : View} (hv : v.Threaded)
    (hfull : ∀ {q x}, v.record q = some x → x.op = .nop → v.Full q x.prev)
    (hdead : ∀ {d}, Ref.first ≤ d → d < t₀.nins → ¬ t₀.Kept d →
      ∃ y, v.record d = some y ∧ y.op = .nop ∧ (y.prev = Ref.none ∨ ¬ t₀.Kept y.prev))
    {k : Ref} {x : Record} (hx : v.record k = some x) (hop : x.op = .nop) (hk : t₀.Kept k)
    (n : Nat) : ∀ {d : Ref}, d.toNat = n → k < d → d < t₀.nins → t₀.Kept d := by
  -- the induction is on `d`: its link leads to what was dropped between `k` and `d`
  induction n using Nat.strong_induction_on with
  | _ n ih =>
    intro d hn hkd hd
    by_contra hdropped
    have hfirst := UInt32.le_trans (hv.first_le hx hop) (UInt32.le_of_lt hkd)
    obtain ⟨y, hy, hyop, hprev⟩ := hdead hfirst hd hdropped
    have hbelow : v.NopBelow d k := ⟨hkd, x, hx, hop⟩
    have hne := (hfull hy hyop).ne_none hbelow
    obtain ⟨⟨hlt, -⟩, hnewest⟩ := (hv.link hy hyop).newest hne
    have hdropped' := hprev.resolve_left hne
    have hkp : k ≠ y.prev := by
      intro heq
      rw [← heq] at hdropped'
      exact hdropped' hk
    exact hdropped' (ih y.prev.toNat (hn ▸ UInt32.lt_iff_toNat_lt.mp hlt) rfl
      (UInt32.lt_of_le_of_ne (hnewest k hbelow) hkp) (UInt32.lt_trans hlt hd))

/-- **The chain of `NOP`s after a pass.** If it lists all `NOP`s before, it does so afterwards if
and only if the pass spares them. -/
theorem Woven.exists_isChain_nop_iff {t : Trace} (h : t.Woven) (hsweeps : t.Sweeps)
    (hchain : ∃ refs, t.view.IsChain .nop refs) :
    (∃ refs, (t.after eliminateDeadCode).view.IsChain .nop refs) ↔ t.Spares := by
  obtain ⟨hhead, hlink⟩ := h.threaded.isChain_nop_iff.mp hchain
  constructor
  · intro hafter k d x hx hop hk hkd hd
    rw [record?_eq_ok_iff] at hx
    obtain ⟨s, t₁, hs, hcut, hlaid, hview⟩ := hsweeps.eliminate h.laid
      (I := fun u _ r => CutOff t u r) (CutOff.walkInvariant h.laid) fun _ _ =>
      ⟨h.threaded, fun hle hd => absurd hd (UInt32.not_lt.mpr hle)⟩
    have hclosed := hcut.threaded.close (hs.oldest .nop)
    rw [hview] at hafter
    obtain ⟨-, hfull⟩ := hclosed.isChain_nop_iff.mp hafter
    have hfirst := h.threaded.first_le hx hop
    -- the `NOP` is still there
    have hstays : ∃ y, (t₁.view.relink (s.links.get .nop) .nop Ref.none).record k = some y ∧
        y.op = .nop := by
      rw [View.exists_op_relink_iff, View.exists_op_iff (hs.kept hfirst hk)]
      exact ⟨x, hx, hop⟩
    obtain ⟨y, hy, hyop⟩ := hstays
    refine kept_above hclosed hfull (fun {d} hle hd hdropped => ?_) hy hyop hk _ rfl hkd hd
    have hblank : ((t₁.view.relink (s.links.get .nop) .nop Ref.none).record d).map Record.unlinked =
        some .blank :=
      (View.relink_record_unlinked ..).trans (hs.dropped hle hd hdropped)
    obtain ⟨p, hp⟩ := exists_prev_of_unlinked (x := .blank) hblank
    exact ⟨_, hp, rfl, hcut.close hle hd hdropped hp⟩
  · intro hspares
    obtain ⟨s, t₁, hs, hunbroken, -, hview⟩ := hsweeps.eliminate h.laid
      (Unbroken.walkInvariant h hlink hspares) fun _ _ =>
      ⟨h.threaded, ⟨hhead, fun hx hop _ => hlink hx hop⟩, fun _ => rfl⟩
    rw [hview]
    exact hunbroken.fullBut.close hunbroken.threaded (hs.oldest .nop)

/-! ### Chains of attainable traces -/

/-- A trace that is reached without a pass that drops an instruction above a `NOP` that it keeps. -/
inductive Intact : Trace → Prop
  | start {config : Config} {pool : Pool} {t : Trace} (h : start config pool = .ok t) : Intact t
  | step {t : Trace} (h : Intact t) (s : Step) : Intact (t.step s)
  | eliminate {t : Trace} (h : Intact t) (hspares : t.Sweeps → t.Spares) :
      Intact (t.after eliminateDeadCode)

private theorem Intact.attainable {t : Trace} (h : Intact t) : Attainable t := by
  induction h with
  | start h => exact .start h
  | step _ s ih => exact ih.operate (.step s)
  | eliminate _ _ ih => exact ih.operate .eliminate

/-- All chains of an intact trace fit its records. -/
private theorem Intact.sound {t : Trace} (h : Intact t) : t.Sound := by
  induction h with
  | start h => exact (Reachable.start h).sound
  | step _ s ih => exact ih.step s
  | @eliminate t h hspares ih =>
    by_cases hsweeps : t.Sweeps
    · have hwoven := h.attainable.woven
      have hnop := (hwoven.exists_isChain_nop_iff hsweeps (ih.wellFormed.chains .nop)).mpr
        (hspares hsweeps)
      exact ⟨hwoven.eliminate.laid, hwoven.eliminate.threaded.wellFormed hnop⟩
    · rw [ih.laid.eliminate_of_not_sweeps hsweeps]
      exact ih

private theorem ListsLive.isChain {t : Trace} {op : Opcode} {refs : List Ref}
    (h : t.ListsLive op refs) :
    t.view.IsChain op refs := by
  refine ⟨h.linked, fun r => ?_, ?_⟩
  · rw [h.mem_iff]
    refine and_congr_right fun _ => ⟨?_, ?_⟩
    · rintro ⟨-, x, hx, hop⟩
      exact ⟨x, record?_eq_ok_iff.mp hx, hop⟩
    · rintro ⟨x, hx, hop⟩
      have hx := record?_eq_ok_iff.mpr hx
      exact ⟨isLive_of_record? hx, x, hx, hop⟩
  · cases hop : op.isConst with
    | false => exact (h.descending hop).imp (Opcode.newer_of_not_const hop).mpr
    | true => exact (h.ascending hop).imp (Opcode.newer_of_const hop).mpr

/-- **Chains, with passes in between.** Whatever steps and passes have done, the chain of every
opcode but `NOP` lists exactly the live records of that opcode. The chain of `NOP`s always ends and
lists `NOP`s in order. It lists all of them as long as no pass has dropped an instruction above a
`NOP` that it kept, and the first pass that does so breaks it. -/
theorem Attainable.chains_list_live_but_nop {t : Trace} (h : Attainable t) :
    (∀ op, op ≠ .nop → ∃ refs, t.ListsLive op refs) ∧
      (∃ refs, t.chain .nop = .ok refs ∧ refs.Pairwise (· > ·) ∧
        ∀ r ∈ refs, t.isLive r = true ∧ ∃ x, t.record? r = .ok x ∧ x.op = .nop) ∧
      (Intact t → ∃ refs, t.ListsLive .nop refs) ∧
      ((∃ refs, t.ListsLive .nop refs) → t.Sweeps →
        ((∃ refs, (t.after eliminateDeadCode).ListsLive .nop refs) ↔ t.Spares)) := by
  have hwoven := h.woven
  refine ⟨fun op hop => ?_, ?_, fun hintact => hintact.sound.exists_listsLive .nop,
    fun ⟨refs, hrefs⟩ hsweeps => ?_⟩
  · obtain ⟨refs, hchain⟩ := hwoven.threaded.chains op hop
    exact ⟨refs, hwoven.laid.listsLive hchain⟩
  · obtain ⟨refs, hlinked, hsorted, hmem⟩ := hwoven.threaded.exists_linked
    have hnodup : refs.Nodup := hsorted.imp fun hlt => (UInt32.ne_of_lt hlt).symm
    refine ⟨refs, hwoven.laid.chain_of_linked hlinked hnodup, hsorted, fun r hr => ?_⟩
    obtain ⟨-, x, hx, hop⟩ := hmem r hr
    have hx := record?_eq_ok_iff.mpr hx
    exact ⟨isLive_of_record? hx, x, hx, hop⟩
  · rw [← hwoven.exists_isChain_nop_iff hsweeps ⟨refs, hrefs.isChain⟩]
    constructor
    · rintro ⟨refs', hrefs'⟩
      exact ⟨refs', hrefs'.isChain⟩
    · rintro ⟨refs', hchain⟩
      exact ⟨refs', hwoven.eliminate.laid.listsLive hchain⟩

/-- A pass drops an instruction below a `NOP` that is a guard. Nothing is dropped above it, and the
chain lists both. -/
theorem chains_list_live_of_guard_above :
    ∃ t₀, start {} {} = .ok t₀ ∧
      ∃ t, t = (t₀.step (.emitRaw ⟨.add, rfl⟩ Ty.int Ref.nil Ref.nil)).step
          (.emitRaw ⟨.nop, rfl⟩ Ty.int.guarded 0 0) ∧
        Attainable t ∧ Intact t ∧ t.Sweeps ∧ t.Spares ∧
        ∃ refs, (t.after eliminateDeadCode).ListsLive .nop refs := by
  obtain ⟨t₀, ht₀⟩ : ∃ t, start {} {} = .ok t := ⟨_, rfl⟩
  refine ⟨t₀, ht₀, _, rfl, ?_⟩
  have hintact : Intact ((t₀.step (.emitRaw ⟨.add, rfl⟩ Ty.int Ref.nil Ref.nil)).step
      (.emitRaw ⟨.nop, rfl⟩ Ty.int.guarded 0 0)) := ((Intact.start ht₀).step _).step _
  generalize ht : (t₀.step _).step _ = t at hintact ⊢
  obtain ⟨hsweeps, hnins, hadd⟩ : t.Sweeps ∧ t.nins = Ref.first + 2 ∧
      t.record? Ref.first =
        .ok { op := .add, ty := Ty.int, left := Ref.nil, right := Ref.nil } := by
    subst ht
    cases ht₀
    exact ⟨⟨rfl, fun refs hrefs => absurd hrefs (Array.not_mem_empty refs)⟩, rfl, rfl⟩
  have hspares : t.Spares := by
    intro k d x hx hop _ hkd hd
    have hfirst := hintact.attainable.woven.threaded.first_le (record?_eq_ok_iff.mp hx) hop
    -- below the newest instruction there is only the one that is no `NOP`
    obtain rfl : k = Ref.first := by
      rw [hnins] at hd
      grind
    rw [hadd] at hx
    obtain rfl := Except.ok.inj hx
    cases hop
  obtain ⟨-, -, hexact, hpass⟩ := hintact.attainable.chains_list_live_but_nop
  exact ⟨hintact.attainable, hintact, hsweeps, hspares,
    (hpass (hexact hintact) hsweeps).mpr hspares⟩

/-- A pass drops an instruction above a `NOP` that is a guard. The chain ends before it reaches the
guard. -/
theorem nop_guard_lost_from_chain :
    ∃ t, Attainable t ∧ t.chain .nop = .ok [Ref.first + 1] ∧ t.isLive Ref.first = true ∧
      ∃ x, t.record? Ref.first = .ok x ∧ x.op = .nop := by
  obtain ⟨t₀, ht₀⟩ : ∃ t, start {} {} = .ok t := ⟨_, rfl⟩
  refine ⟨((t₀.operate (.step (.emitRaw ⟨.nop, rfl⟩ Ty.int.guarded 0 0))).operate
    (.step (.emitRaw ⟨.add, rfl⟩ Ty.int Ref.nil Ref.nil))).operate .eliminate,
    (((Attainable.start ht₀).operate _).operate _).operate _, ?_⟩
  cases ht₀
  exact ⟨rfl, rfl, _, rfl, rfl⟩

end Trace

end TraceIR
