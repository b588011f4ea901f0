import TraceIR.Proofs.Growth
import TraceIR.Proofs.Rollback

/-!
# Recordings

A recording starts a trace and takes steps on it. A step may fail, and what it has done before it
fails stays, so a recording goes on from there.

* `View.Lasting` — a property of views that entering and leaving records keep. Then every step of a
  recording keeps it (`Lasting.step`).
* `Trace.Sound` — the layout is sound and the view well formed. It holds at the start, every step
  keeps it (`Sound.step`), and so it holds of every trace that a recording reaches
  (`Reachable.sound`).
* `View.Extends` — everything that an earlier view showed is still there. Steps that do not go back
  behind a checkpoint extend the view at the checkpoint (`Extends.step`).

Two laws of recordings follow. The chains of a reachable trace list exactly its live records, and
rolling back to a checkpoint restores the trace at which it was taken.
-/

namespace TraceIR

/-- One step of a recording. -/
inductive Step where
  | useFolder (f : Option Folder)
  | emit (op : { op : Opcode // op.isConst = false }) (ty : Ty) (a b : Ref)
  | emitRaw (op : { op : Opcode // op.isConst = false }) (ty : Ty) (a b : Ref)
  | intern (k : Trace.Constant)
  | coerce (c : Coercion) (x : TRef)
  | addSnapshot (refs : List Ref)
  | resetGuardEmitted
  | checkpoint
  | rollback (cp : Checkpoint)
  | setup

namespace Trace

/-- The trace after a step, whether the step succeeds or fails. -/
def step (t : Trace) : Step → Trace
  | .useFolder f => { t with folder := f }
  | .emit op ty a b => t.after (emit op.1 ty a b)
  | .emitRaw op ty a b => t.after (emitRaw op.1 ty a b)
  | .intern k => t.after k.intern
  | .coerce c x => t.after (coerce c x)
  | .addSnapshot refs => t.after (addSnapshot refs)
  | .resetGuardEmitted => t.after resetGuardEmitted
  | .checkpoint => t
  | .rollback cp => t.after (rollback cp)
  | .setup => t.after setup

/-- The trace after some steps. -/
def steps (t : Trace) (l : List Step) : Trace :=
  l.foldl step t

/-- A trace that a recording can reach. -/
inductive Reachable : Trace → Prop
  | start {config : Config} {pool : Pool} {t : Trace} (h : start config pool = .ok t) :
      Reachable t
  | step {t : Trace} (h : Reachable t) (s : Step) : Reachable (t.step s)

theorem Reachable.steps {t : Trace} (h : Reachable t) (l : List Step) : Reachable (t.steps l) := by
  induction l generalizing t with
  | nil => exact h
  | cons s l ih => exact ih (h.step s)

/-! ### Kinds of steps -/

/-- A step makes the trace grow, goes back, begins again or changes the folder. -/
theorem step_cases (t : Trace) (s : Step) :
    t.Grows (t.step s) ∨ (∃ cp, s = .rollback cp) ∨ s = .setup ∨ ∃ f, s = .useFolder f := by
  cases s with
  | useFolder f => exact .inr (.inr (.inr ⟨f, rfl⟩))
  | emit op ty a b => exact .inl (grows_emit t op.2 ty a b)
  | emitRaw op ty a b => exact .inl (grows_emitRaw t op.2 ty a b)
  | intern k => exact .inl (grows_constant t k)
  | coerce c x => exact .inl (grows_coerce t c x)
  | addSnapshot refs => exact .inl (.of_growth rfl rfl rfl rfl (.snapshot refs))
  | resetGuardEmitted => exact .inl (.of_growth rfl rfl rfl rfl .resetGuard)
  | checkpoint => exact .inl (.refl t)
  | rollback cp => exact .inr (.inl ⟨cp, rfl⟩)
  | setup => exact .inr (.inr (.inl rfl))

/-- Going back either changes nothing or reaches the checkpoint. -/
theorem Laid.step_rollback {t : Trace} (h : t.Laid) (cp : Checkpoint) :
    t.step (.rollback cp) = t ∨
      t.view.Reaches cp ∧ (t.step (.rollback cp)).Laid ∧
        (t.step (.rollback cp)).view = t.view.rollback cp := by
  by_cases hcp : t.accepts cp = true ∧ 0 ≤ cp.snapshots
  · obtain ⟨t', hrun, hlaid, hview⟩ := h.run_rollback hcp.1 hcp.2
    rw [step, after_of_ok hrun]
    exact .inr ⟨(accepts_iff.mp hcp.1).1, hlaid, hview⟩
  · obtain ⟨e, hrun⟩ := run_rollback_of_rejected hcp
    exact .inl (after_of_error hrun)

/-! ### Properties that last -/

end Trace

/-- A property of views that new traces have, and that every change of a recording keeps. -/
structure View.Lasting (P : View → Prop) : Prop where
  ranged : ∀ {v}, P v → v.Ranged
  initial : ∀ config pool folder, P (.initial config pool folder)
  of_eq : ∀ {v v' : View}, P v → v'.nins = v.nins → v'.nk = v.nk → v'.heads = v.heads →
    v'.record = v.record → P v'
  push : ∀ {v : View} {x : Record}, P v → v.nins < Ref.limit → x.op.isConst = false → P (v.push x)
  pushConstant : ∀ {v : View} {x : Record}, P v → 1 < v.nk → x.op.isConst = true →
    P (v.pushConstant x)
  popInstruction : ∀ {v}, P v → Ref.first < v.nins → P v.popInstruction
  popConstant : ∀ {v}, P v → v.nk < Ref.true → P v.popConstant

private theorem View.lasting_wellFormed : View.Lasting View.WellFormed where
  ranged h := h.toRanged
  initial := View.wellFormed_initial
  of_eq h := h.of_eq
  push h := h.push
  pushConstant h := h.pushConstant
  popInstruction h := h.popInstruction
  popConstant h := h.popConstant

namespace View.Lasting

variable {P : View → Prop} {v v' : View}

private theorem growths (h : Lasting P) (hv : P v) (hg : Relation.ReflTransGen View.Growth v v') :
    P v' := by
  induction hg with
  | refl => exact hv
  | tail _ hstep ih =>
    cases hstep with
    | pool x => exact h.of_eq ih rfl rfl rfl rfl
    | resetGuard => exact h.of_eq ih rfl rfl rfl rfl
    | snapshot refs => exact h.of_eq ih rfl rfl rfl rfl
    | push x hop hlimit => exact h.push ih hlimit hop
    | pushConstant x hop hone => exact h.pushConstant ih hone hop

private theorem popInstructions (h : Lasting P) {high : Ref} (hfirst : Ref.first ≤ high) (n : Nat) :
    ∀ {v : View}, P v → v.nins.toNat = high.toNat + n → P (View.popInstruction^[n] v) := by
  induction n with
  | zero => exact fun hv _ => hv
  | succ n ih =>
    intro v hv hn
    rw [UInt32.le_iff_toNat_le] at hfirst
    have hlt : Ref.first < v.nins := by
      rw [UInt32.lt_iff_toNat_lt]
      omega
    obtain ⟨x, hx, -⟩ := (h.ranged hv).exists_newest hlt
    have hnins : v.popInstruction.nins = v.nins - 1 := congrArg View.nins (popInstruction_eq hx)
    rw [Function.iterate_succ_apply]
    refine ih (h.popInstruction hv hlt) ?_
    rw [hnins, Ref.toNat_pred (by omega)]
    omega

private theorem popConstants (h : Lasting P) {low : Ref} (htrue : low ≤ Ref.true) (n : Nat) :
    ∀ {v : View}, P v → low.toNat = v.nk.toNat + n → P (View.popConstant^[n] v) := by
  induction n with
  | zero => exact fun hv _ => hv
  | succ n ih =>
    intro v hv hn
    rw [UInt32.le_iff_toNat_le] at htrue
    have hlt : v.nk < Ref.true := by
      rw [UInt32.lt_iff_toNat_lt]
      omega
    obtain ⟨x, hx, -⟩ := (h.ranged hv).exists_lowest
    have hnk : v.popConstant.nk = v.nk + 1 := congrArg View.nk (popConstant_eq hx)
    rw [Function.iterate_succ_apply]
    refine ih (h.popConstant hv hlt) ?_
    rw [hnk, Ref.toNat_succ (by grind)]
    omega

private theorem rollback (h : Lasting P) (hv : P v) {cp : Checkpoint} (hcp : v.Reaches cp) :
    P (v.rollback cp) := by
  have hins := UInt32.le_iff_toNat_le.mp hcp.ins_le
  have hconst := UInt32.le_iff_toNat_le.mp hcp.nk_le
  have hstart : P { v with snapshots := v.snapshots.take cp.snapshots.toNat } :=
    h.of_eq hv rfl rfl rfl rfl
  refine h.popConstants hcp.const_le _ (h.popInstructions hcp.first_le _ hstart ?_) ?_
  · show v.nins.toNat = _
    rw [UInt32.toNat_sub_of_le _ _ hcp.ins_le]
    omega
  · rw [View.iterate_popInstruction_nk]
    show _ = v.nk.toNat + _
    rw [UInt32.toNat_sub_of_le _ _ hcp.nk_le]
    omega

/-- **One step** of a recording keeps a property that lasts. -/
theorem step (h : Lasting P) {t : Trace} (hlaid : t.Laid) (ht : P t.view) (s : Step) :
    (t.step s).Laid ∧ P (t.step s).view := by
  rcases Trace.step_cases t s with hgrows | ⟨cp, rfl⟩ | rfl | ⟨f, rfl⟩
  · obtain ⟨hlaid', hview⟩ := hgrows hlaid
    exact ⟨hlaid', h.growths ht hview⟩
  · rcases hlaid.step_rollback cp with hsame | ⟨hcp, hlaid', hview⟩
    · rw [hsame]
      exact ⟨hlaid, ht⟩
    · rw [hview]
      exact ⟨hlaid', h.rollback ht hcp⟩
  · obtain ⟨t', hrun, hlaid', hview⟩ := hlaid.run_setup
    rw [Trace.step, Trace.after_of_ok hrun, hview]
    exact ⟨hlaid', h.initial ..⟩
  · exact ⟨hlaid.of_view rfl rfl rfl rfl, h.of_eq ht rfl rfl rfl rfl⟩

theorem of_start (h : Lasting P) {config : Config} {pool : Pool} {t : Trace}
    (hstart : Trace.start config pool = .ok t) : t.Laid ∧ P t.view := by
  obtain ⟨hlaid, hview⟩ := Trace.start_eq_ok hstart
  rw [hview]
  exact ⟨hlaid, h.initial ..⟩

end View.Lasting

namespace Trace

/-! ### Soundness -/

/-- The layout of the trace is sound and its view well formed. -/
structure Sound (t : Trace) : Prop where
  laid : t.Laid
  wellFormed : t.view.WellFormed

/-- Growing keeps a trace sound. -/
theorem Sound.grows {t t' : Trace} (h : t.Sound) (hgrows : t.Grows t') : t'.Sound := by
  obtain ⟨hlaid, hview⟩ := hgrows h.laid
  exact ⟨hlaid, h.wellFormed.growths hview⟩

/-- One step keeps a trace sound. -/
theorem Sound.step {t : Trace} (h : t.Sound) (s : Step) : (t.step s).Sound := by
  obtain ⟨hlaid, hview⟩ := View.lasting_wellFormed.step h.laid h.wellFormed s
  exact ⟨hlaid, hview⟩

/-- Every trace that a recording reaches is sound. -/
theorem Reachable.sound {t : Trace} (h : Reachable t) : t.Sound := by
  induction h with
  | start h =>
    obtain ⟨hlaid, hview⟩ := View.lasting_wellFormed.of_start h
    exact ⟨hlaid, hview⟩
  | step _ s ih => exact ih.step s

/-! ### Chains of a recording -/

/-- `refs` is the chain of `op`: a walk from the newest record along the links passes it and ends,
it holds the live records of the opcode but the fixed constants, and it is sorted by age. -/
structure ListsLive (t : Trace) (op : Opcode) (refs : List Ref) : Prop where
  walk : t.chain op = .ok refs
  linked : Linked t.view.record (t.heads.get op) refs Ref.none
  nodup : refs.Nodup
  mem_iff : ∀ r, r ∈ refs ↔
    ¬ r.IsFixed ∧ t.isLive r = true ∧ ∃ x, t.record? r = .ok x ∧ x.op = op
  descending : op.isConst = false → refs.Pairwise (· > ·)
  ascending : op.isConst = true → refs.Pairwise (· < ·)

/-- A chain that fits the records lists live records. -/
theorem Laid.listsLive {t : Trace} (h : t.Laid) {op : Opcode} {refs : List Ref}
    (hchain : t.view.IsChain op refs) : t.ListsLive op refs := by
  refine ⟨h.chain_eq hchain, hchain.linked, hchain.newer.nodup, fun r => ?_,
    fun hop => hchain.newer.imp (Opcode.newer_of_not_const hop).mp,
    fun hop => hchain.newer.imp (Opcode.newer_of_const hop).mp⟩
  rw [hchain.mem_iff, isLive_iff]
  refine and_congr_right fun _ => ⟨fun ⟨x, hx, hop⟩ => ?_, fun ⟨_, x, hx, hop⟩ => ?_⟩
  · have hlive := (h.record_isSome_iff r).mp (Option.isSome_iff_exists.mpr ⟨x, hx⟩)
    exact ⟨hlive, x, record?_eq_ok_iff.mpr hx, hop⟩
  · exact ⟨x, record?_eq_ok_iff.mp hx, hop⟩

/-- The chains of a sound trace list its live records. -/
theorem Sound.exists_listsLive {t : Trace} (h : t.Sound) (op : Opcode) :
    ∃ refs, t.ListsLive op refs :=
  (h.wellFormed.chains op).imp fun _ hchain => h.laid.listsLive hchain

/-- A sound trace has a record at every live reference. -/
theorem Sound.exists_record {t : Trace} (h : t.Sound) {r : Ref} (hr : t.isLive r = true) :
    ∃ x, t.record? r = .ok x := by
  obtain ⟨x, hx⟩ := h.laid.exists_record ((t.isLive_iff r).mp hr)
  exact ⟨x, record?_eq_ok_iff.mpr hx⟩

/-- **Chains.** Whatever a recording has done, failures included, every live reference has a
record, and the chain of every opcode ends and lists exactly the live records of that opcode. -/
theorem Reachable.chains_list_live_records {t : Trace} (h : Reachable t) :
    (∀ r, t.isLive r = true → ∃ x, t.record? r = .ok x) ∧
      ∀ op, ∃ refs, t.ListsLive op refs :=
  ⟨fun _ hr => h.sound.exists_record hr, h.sound.exists_listsLive⟩

/-- A recording that meets a full table of constants, goes back and goes on. -/
theorem chains_list_live_records_after_failure :
    ∃ t, start { maxConstants := 1 } {} = .ok t ∧
      ∃ refs, (t.steps
        [.intern (.int 7), .emit ⟨.add, rfl⟩ Ty.int Ref.nil Ref.true, .intern (.int 8),
          .emitRaw ⟨.add, rfl⟩ Ty.int Ref.nil Ref.nil, .rollback ⟨Ref.first + 1, Ref.true, 0⟩,
          .intern (.num ⟨1⟩)]).ListsLive .add refs := by
  obtain ⟨t, ht⟩ : ∃ t, start { maxConstants := 1 } {} = .ok t := ⟨_, rfl⟩
  exact ⟨t, ht, (Reachable.chains_list_live_records ((Reachable.start ht).steps _)).2 .add⟩

/-! ### Undoing -/

end Trace

/-- Everything that `s` shows is still there in `v`. -/
structure View.Extends (s v : View) : Prop where
  config : v.config = s.config
  folder : v.folder = s.folder
  nins_le : s.nins ≤ v.nins
  nk_le : v.nk ≤ s.nk
  record : ∀ {r x}, s.record r = some x → v.record r = some x
  snapshots : s.snapshots.toList <+: v.snapshots.toList

namespace View.Extends

variable {s v v' : View}

theorem refl (s : View) : s.Extends s :=
  ⟨rfl, rfl, UInt32.le_rfl, UInt32.le_rfl, id, List.prefix_rfl⟩

/-- Growing adds to what is there. -/
theorem growth (h : s.Extends v) (hv : v.WellFormed) (hg : v.Growth v') : s.Extends v' := by
  have hnins := h.nins_le
  have hnk := h.nk_le
  cases hg with
  | pool x => exact ⟨h.config, h.folder, h.nins_le, h.nk_le, h.record, h.snapshots⟩
  | resetGuard => exact ⟨h.config, h.folder, h.nins_le, h.nk_le, h.record, h.snapshots⟩
  | snapshot refs =>
    refine ⟨h.config, h.folder, h.nins_le, h.nk_le, h.record, h.snapshots.trans ?_⟩
    show v.snapshots.toList <+: (v.snapshots.push refs).toList
    rw [Array.toList_push]
    exact List.prefix_append ..
  | push x hop hlimit =>
    refine ⟨h.config, h.folder, ?_, h.nk_le, fun {r y} hy => ?_, h.snapshots⟩
    · show s.nins ≤ v.nins + 1
      grind
    · -- the new reference was free
      have hy' := h.record hy
      have hlive := ((hv.live_iff r).mp ⟨y, hy'⟩).2
      rw [push_record_of_ne _ _ (UInt32.ne_of_lt hlive), hy']
  | pushConstant x hop hone =>
    refine ⟨h.config, h.folder, h.nins_le, ?_, fun {r y} hy => ?_, h.snapshots⟩
    · show v.nk - 1 ≤ s.nk
      grind
    · have hy' := h.record hy
      have hlive := ((hv.live_iff r).mp ⟨y, hy'⟩).1
      rw [pushConstant_record_of_ne _ _ (by grind), hy']

theorem growths (h : s.Extends v) (hv : v.WellFormed)
    (hg : Relation.ReflTransGen View.Growth v v') : s.Extends v' := by
  induction hg with
  | refl => exact h
  | tail hgs hstep ih => exact ih.growth (hv.growths hgs) hstep

/-- Going back to a point after `s` was taken leaves what `s` shows. -/
theorem rollback (h : s.Extends v) (hv : v.WellFormed) (hs : s.WellFormed) {cp : Checkpoint}
    (hcp : v.Reaches cp) (hins : s.nins ≤ cp.ins) (hconst : cp.const ≤ s.nk)
    (hsnapshots : (s.snapshots.size : Int) ≤ cp.snapshots) : s.Extends (v.rollback cp) := by
  have hcut := hv.cut_rollback hcp
  refine ⟨hcut.config.trans h.config, hcut.folder.trans h.folder, hcut.nins ▸ hins,
    hcut.nk ▸ hconst, fun {r x} hx => ?_, ?_⟩
  · have hlive := (hs.live_iff r).mp ⟨x, hx⟩
    rw [hcut.record r (UInt32.le_trans hconst hlive.1) (UInt32.lt_of_lt_of_le hlive.2 hins)]
    exact h.record hx
  · rw [hcut.snapshots]
    show s.snapshots.toList <+: (v.snapshots.take cp.snapshots.toNat).toList
    have htake : (v.snapshots.take cp.snapshots.toNat).toList =
        v.snapshots.toList.take cp.snapshots.toNat := by simp
    rw [htake, List.prefix_take_iff, Array.length_toList]
    exact ⟨h.snapshots, by omega⟩

/-- Going back to the point at which `s` was taken is possible and leaves exactly what `s`
shows. -/
theorem rollback_eq (h : s.Extends v) (hv : v.WellFormed) (hs : s.WellFormed) :
    v.Reaches ⟨s.nins, s.nk, s.snapshots.size⟩ ∧
      (v.rollback ⟨s.nins, s.nk, s.snapshots.size⟩).record = s.record ∧
      (v.rollback ⟨s.nins, s.nk, s.snapshots.size⟩).snapshots = s.snapshots := by
  have hbase := hs.base_lt
  have hcp : v.Reaches ⟨s.nins, s.nk, s.snapshots.size⟩ :=
    ⟨h.nins_le, show Ref.first ≤ s.nins by grind, h.nk_le, hs.nk_le⟩
  have hcut := hv.cut_rollback hcp
  refine ⟨hcp, funext fun r => ?_, ?_⟩
  · by_cases hlive : s.nk ≤ r ∧ r < s.nins
    · obtain ⟨x, hx⟩ := (hs.live_iff r).mpr hlive
      rw [hcut.record r hlive.1 hlive.2, hx]
      exact h.record hx
    · rw [hs.record_eq_none hlive, hcut.record_eq_none hlive]
  · rw [hcut.snapshots]
    show v.snapshots.take s.snapshots.size = s.snapshots
    have htake : (v.snapshots.take s.snapshots.size).toList =
        v.snapshots.toList.take s.snapshots.size := by simp
    rw [← Array.toList_inj, htake]
    exact (List.prefix_iff_eq_take.mp h.snapshots).symm

end View.Extends

namespace Trace

/-- The step does not go back behind the checkpoint, and leaves the folder. -/
def StaysAfter (cp : Checkpoint) : Step → Prop
  | .rollback c => cp.ins ≤ c.ins ∧ c.const ≤ cp.const ∧ cp.snapshots ≤ c.snapshots
  | .setup => False
  | .useFolder _ => False
  | _ => True

/-- A step that stays after the checkpoint of `s` leaves what `s` shows. -/
private theorem extends_step {s t : Trace} (hs : s.Sound) (ht : t.Sound)
    (h : s.view.Extends t.view) {st : Step} (hst : StaysAfter s.checkpoint st) :
    s.view.Extends (t.step st).view := by
  rcases step_cases t st with hgrows | ⟨cp, rfl⟩ | rfl | ⟨f, rfl⟩
  · exact h.growths ht.wellFormed (hgrows ht.laid).2
  · obtain ⟨hins, hconst, hsnapshots⟩ := hst
    rcases ht.laid.step_rollback cp with hsame | ⟨hcp, -, hview⟩
    · rw [hsame]
      exact h
    · rw [hview]
      exact h.rollback ht.wellFormed hs.wellFormed hcp hins hconst hsnapshots
  · exact hst.elim
  · exact hst.elim

private theorem extends_steps {s : Trace} (hs : s.Sound) (l : List Step) :
    ∀ {t : Trace}, t.Sound → s.view.Extends t.view → (∀ st ∈ l, StaysAfter s.checkpoint st) →
      (t.steps l).Sound ∧ s.view.Extends (t.steps l).view := by
  induction l with
  | nil => exact fun ht h _ => ⟨ht, h⟩
  | cons st l ih =>
    intro t ht h hl
    rw [List.forall_mem_cons] at hl
    exact ih (ht.step st) (extends_step hs ht h hl.1) hl.2

/-- What a sound trace answers for a reference is what its view shows. -/
theorem Laid.record?_eq {t : Trace} (h : t.Laid) (r : Ref) :
    t.record? r =
      match t.view.record r with
      | some x => .ok x
      | none => .error (.deadRef r t.nk t.nins) := by
  by_cases hlive : t.nk ≤ r ∧ r < t.nins
  · obtain ⟨x, hx⟩ := h.exists_record hlive
    rw [hx]
    exact record?_eq_ok_iff.mpr hx
  · rw [view_record_of_dead hlive, record?, if_neg (by rw [isLive_iff]; exact hlive)]

/-- The traces agree in everything but the buffer, the pool and the guard mark. -/
structure SameRecording (t s : Trace) : Prop where
  nins : t.nins = s.nins
  nk : t.nk = s.nk
  snapshots : t.snapshots = s.snapshots
  heads : ∀ op, t.heads.get op = s.heads.get op
  record : ∀ r, t.record? r = s.record? r
  config : t.config = s.config
  folder : t.folder = s.folder

/-- **Undo.** Rolling back to a checkpoint is accepted after any steps that stay after it, failed
ones included, and restores everything but the buffer, the pool and the guard mark. -/
theorem Reachable.rollback_checkpoint {s : Trace} (hs : Reachable s) {l : List Step}
    (hl : ∀ st ∈ l, StaysAfter s.checkpoint st) :
    ∃ t, (rollback s.checkpoint).run (s.steps l) = .ok () t ∧ t.SameRecording s := by
  obtain ⟨ht, hextends⟩ := extends_steps hs.sound l hs.sound (.refl _) hl
  obtain ⟨hcp, hrecord, hsnapshots⟩ :=
    hextends.rollback_eq ht.wellFormed hs.sound.wellFormed
  have haccepts : (s.steps l).accepts s.checkpoint = true :=
    accepts_iff.mpr ⟨hcp, Int.ofNat_le.mpr hextends.snapshots.length_le⟩
  obtain ⟨t, hrun, hlaid, hview⟩ := ht.laid.run_rollback haccepts (Int.natCast_nonneg _)
  have hcut := ht.wellFormed.cut_rollback hcp
  change t.view = (s.steps l).view.rollback ⟨s.view.nins, s.view.nk, s.view.snapshots.size⟩ at hview
  rw [← hview] at hcut hrecord hsnapshots
  have hnins : t.nins = s.nins := hcut.nins
  have hnk : t.nk = s.nk := hcut.nk
  refine ⟨t, hrun,
    { nins := hnins
      nk := hnk
      snapshots := hsnapshots
      -- the records determine the newest ones
      heads := hcut.wellFormed.heads_get_eq hs.sound.wellFormed hrecord
      record := fun r => ?_
      config := hcut.config.trans hextends.config
      folder := hcut.folder.trans hextends.folder }⟩
  rw [hlaid.record?_eq, hs.sound.laid.record?_eq, hrecord, hnins, hnk]

/-- A recording that is taken back over an emission, a snapshot, a refused constant and a rollback
in between. -/
theorem rollback_checkpoint_after_refusal :
    ∃ s, start { maxConstants := 1 } {} = .ok s ∧
      ∃ t, (rollback s.checkpoint).run (s.steps
          [.intern (.int 7), .emit ⟨.add, rfl⟩ Ty.int.guarded Ref.nil Ref.true,
            .addSnapshot [Ref.first], .intern (.int 8), .rollback ⟨Ref.first + 1, Ref.true, 1⟩,
            .intern (.num ⟨1⟩)]) = .ok () t ∧
        t.SameRecording s := by
  obtain ⟨s, hs⟩ : ∃ s, start { maxConstants := 1 } {} = .ok s := ⟨_, rfl⟩
  have hcp : s.checkpoint = ⟨Ref.first, Ref.true, 0⟩ := by
    cases hs
    rfl
  have hfirst : Ref.first ≤ Ref.first + 1 := by decide
  refine ⟨s, hs, (Reachable.start hs).rollback_checkpoint ?_⟩
  rw [hcp]
  simp [StaysAfter, hfirst]

end Trace

end TraceIR
