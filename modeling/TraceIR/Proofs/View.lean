import Mathlib.Logic.Function.Iterate
import TraceIR.Proofs.Buffer
import TraceIR.Proofs.Run

/-!
# What a trace shows

The place of a trace's records in memory is its own business. `Trace.view` is everything else: the
live range, the newest record of every opcode, the live records, the snapshots and the settings.
`Trace.Laid` collects what the layout needs to stay sound, and under it every operation that adds
or removes records acts on the view alone:

* `Laid.run_emitRaw` and `Laid.run_addConstant` — a record enters the view (`View.push`,
  `View.pushConstant`), or the trace stays exactly as it was;
* `Laid.run_popInstructions` and `Laid.run_popConstants` — records leave the view, newest first;
* `Laid.run_setup` and `start_eq_ok` — beginning again, and for the first time.
-/

namespace TraceIR

/-! ### Views -/

/-- A trace as it shows from outside. -/
@[ext] structure View where
  config : Config
  pool : Pool
  folder : Option Folder
  /-- The next instruction. -/
  nins : Ref
  /-- The lowest constant. -/
  nk : Ref
  heads : Heads
  guardEmitted : Bool
  snapshots : Array (List Ref)
  /-- The live record at a reference. -/
  record : Ref → Option Record

namespace View

/-- Append an instruction. -/
def push (v : View) (x : Record) : View :=
  { v with
    nins := v.nins + 1
    heads := v.heads.set x.op v.nins
    guardEmitted := v.guardEmitted || x.ty.isGuard
    record := Function.update v.record v.nins (some { x with prev := v.heads.get x.op }) }

/-- Add a constant. -/
def pushConstant (v : View) (x : Record) : View :=
  { v with
    nk := v.nk - 1
    heads := v.heads.set x.op (v.nk - 1)
    record := Function.update v.record (v.nk - 1) (some { x with prev := v.heads.get x.op }) }

/-- Remove the newest instruction. -/
def popInstruction (v : View) : View :=
  match v.record (v.nins - 1) with
  | none => v
  | some x =>
    { v with
      nins := v.nins - 1
      heads := v.heads.set x.op x.prev
      record := Function.update v.record (v.nins - 1) none }

/-- Remove the newest constant. -/
def popConstant (v : View) : View :=
  match v.record v.nk with
  | none => v
  | some x =>
    { v with
      nk := v.nk + 1
      heads := v.heads.set x.op x.prev
      record := Function.update v.record v.nk none }

/-- The records that every trace begins with. -/
def initialRecord (r : Ref) : Option Record :=
  if r = Ref.base then some { op := .base, ty := Ty.ptr }
  else if r = Ref.nil then some { op := .kpri, ty := Ty.nil }
  else if r = Ref.false then some { op := .kpri, ty := Ty.false }
  else if r = Ref.true then some { op := .kpri, ty := Ty.true }
  else none

/-- The view of a trace that holds `BASE` and the fixed constants. -/
def initial (config : Config) (pool : Pool) (folder : Option Folder) : View where
  config
  pool
  folder
  nins := Ref.first
  nk := Ref.true
  heads := Heads.empty.set .base Ref.base
  guardEmitted := false
  snapshots := #[]
  record := initialRecord

/-- Forget everything recorded. -/
def restart (v : View) : View :=
  initial v.config v.pool v.folder

/-! Records after an update. -/

section Update

variable (v : View) (x : Record) {r : Ref}

@[simp] theorem push_record_self :
    (v.push x).record v.nins = some { x with prev := v.heads.get x.op } :=
  Function.update_self ..

theorem push_record_of_ne (h : r ≠ v.nins) : (v.push x).record r = v.record r :=
  Function.update_of_ne h ..

@[simp] theorem pushConstant_record_self :
    (v.pushConstant x).record (v.nk - 1) = some { x with prev := v.heads.get x.op } :=
  Function.update_self ..

theorem pushConstant_record_of_ne (h : r ≠ v.nk - 1) : (v.pushConstant x).record r = v.record r :=
  Function.update_of_ne h ..

theorem popInstruction_record (r : Ref) :
    v.popInstruction.record r = if r = v.nins - 1 then none else v.record r := by
  rw [popInstruction]
  cases hx : v.record (v.nins - 1) with
  | none =>
    by_cases hr : r = v.nins - 1
    · rw [if_pos hr, hr]
      exact hx
    · exact (if_neg hr).symm
  | some x => exact Function.update_apply ..

theorem popConstant_record (r : Ref) :
    v.popConstant.record r = if r = v.nk then none else v.record r := by
  rw [popConstant]
  cases hx : v.record v.nk with
  | none =>
    by_cases hr : r = v.nk
    · rw [if_pos hr, hr]
      exact hx
    · exact (if_neg hr).symm
  | some x => exact Function.update_apply ..

variable {v x}

/-- A record of the view after an instruction entered is that instruction or was there before. -/
theorem record_push_cases {y : Record} (h : (v.push x).record r = some y) :
    r = v.nins ∧ y = { x with prev := v.heads.get x.op } ∨ v.record r = some y := by
  by_cases hr : r = v.nins
  · subst hr
    rw [push_record_self] at h
    exact .inl ⟨rfl, (Option.some.inj h).symm⟩
  · rw [push_record_of_ne _ _ hr] at h
    exact .inr h

/-- The same for a constant. -/
theorem record_pushConstant_cases {y : Record}
    (h : (v.pushConstant x).record r = some y) :
    r = v.nk - 1 ∧ y = { x with prev := v.heads.get x.op } ∨ v.record r = some y := by
  by_cases hr : r = v.nk - 1
  · subst hr
    rw [pushConstant_record_self] at h
    exact .inl ⟨rfl, (Option.some.inj h).symm⟩
  · rw [pushConstant_record_of_ne _ _ hr] at h
    exact .inr h

theorem popInstruction_eq (h : v.record (v.nins - 1) = some x) :
    v.popInstruction =
      { v with
        nins := v.nins - 1
        heads := v.heads.set x.op x.prev
        record := Function.update v.record (v.nins - 1) none } := by
  rw [popInstruction, h]

theorem popConstant_eq (h : v.record v.nk = some x) :
    v.popConstant =
      { v with
        nk := v.nk + 1
        heads := v.heads.set x.op x.prev
        record := Function.update v.record v.nk none } := by
  rw [popConstant, h]

end Update

end View

namespace Trace

/-- What a trace shows. -/
def view (t : Trace) : View where
  config := t.config
  pool := t.pool
  folder := t.folder
  nins := t.nins
  nk := t.nk
  heads := t.heads
  guardEmitted := t.guardEmitted
  snapshots := t.snapshots
  record r := if t.isLive r then t.buffer.get? r else none

/-- Views are compared field by field. -/
theorem view_eq {t : Trace} {v : View} (hconfig : t.config = v.config) (hpool : t.pool = v.pool)
    (hfolder : t.folder = v.folder) (hnins : t.nins = v.nins) (hnk : t.nk = v.nk)
    (hheads : t.heads = v.heads) (hguard : t.guardEmitted = v.guardEmitted)
    (hsnapshots : t.snapshots = v.snapshots) (hrecord : ∀ r, t.view.record r = v.record r) :
    t.view = v :=
  View.ext hconfig hpool hfolder hnins hnk hheads hguard hsnapshots (funext hrecord)

theorem isLive_iff (t : Trace) (r : Ref) : t.isLive r = true ↔ t.nk ≤ r ∧ r < t.nins := by
  simp [isLive]

theorem view_record_of_live {t : Trace} {r : Ref} (h : t.nk ≤ r ∧ r < t.nins) :
    t.view.record r = t.buffer.get? r :=
  if_pos ((t.isLive_iff r).mpr h)

theorem view_record_of_dead {t : Trace} {r : Ref} (h : ¬ (t.nk ≤ r ∧ r < t.nins)) :
    t.view.record r = none :=
  if_neg fun hlive => h ((t.isLive_iff r).mp hlive)

theorem isLive_of_record? {t : Trace} {r : Ref} {x : Record} (h : t.record? r = .ok x) :
    t.isLive r = true := by
  by_contra hdead
  rw [record?, if_neg hdead] at h
  cases h

/-- Reading a live record is reading the view. -/
theorem record?_eq_ok_iff {t : Trace} {r : Ref} {x : Record} :
    t.record? r = .ok x ↔ t.view.record r = some x := by
  simp only [record?, view]
  by_cases hlive : t.isLive r = true
  · rw [if_pos hlive, if_pos hlive]
    cases t.buffer.get? r with
    | some y => simp
    | none => simp
  · rw [if_neg hlive, if_neg hlive]
    simp

/-! ### Records that leave -/

theorem run_popInstructions_succ {t : Trace} {x : Record}
    (hx : t.buffer.get? (t.nins - 1) = some x) (n : Nat) :
    (popInstructions (n + 1)).run t = (popInstructions n).run
      { t with nins := t.nins - 1, heads := t.heads.set x.op x.prev } := by
  rw [popInstructions, EStateM.run_bind, EStateM.run_modify]
  simp only [EStateM.run_bind, EStateM.run_get, run_slot, hx, run_setHead]

theorem run_popConstants_succ {t : Trace} {x : Record} (hx : t.buffer.get? t.nk = some x)
    (n : Nat) :
    (popConstants (n + 1)).run t = (popConstants n).run
      { t with
        buffer := t.buffer.set t.nk .blank, nk := t.nk + 1, heads := t.heads.set x.op x.prev } := by
  have hslot : t.buffer.has t.nk = true := (t.buffer.has_iff _).mpr ⟨x, hx⟩
  simp only [popConstants, EStateM.run_bind, EStateM.run_get, EStateM.run_modify, run_slot, hx,
    run_setHead, run_write, hslot, if_true]

/-! ### Layout -/

theorem toNat_instructionLimit {c : Config} (hpos : 0 ≤ c.maxInstructions)
    (hlt : c.maxInstructions < 0x80000000) :
    (instructionLimit c).toNat = 0x8000 + c.maxInstructions.toNat := by
  have hword : (UInt32.ofInt c.maxInstructions).toNat = c.maxInstructions.toNat := by
    rw [UInt32.ofInt, UInt32.toNat_ofNat']
    omega
  rw [instructionLimit, UInt32.toNat_add, hword, Ref.toNat_bias]
  omega

/-- The layout of a trace is sound: constants and instructions keep to their sides of the border,
the limit leaves room for `BASE`, and the buffer has a slot for every live record. -/
structure Laid (t : Trace) : Prop where
  nk_pos : 0 < t.nk.toNat
  nk_le : t.nk ≤ Ref.true
  base_lt : Ref.base < t.nins
  nins_le : t.nins ≤ Ref.limit
  base_lt_limit : Ref.base < instructionLimit t.config
  covers : t.buffer.Covers t.nk t.nins

namespace Laid

variable {t : Trace}

theorem nk_lt_nins (h : t.Laid) : t.nk < t.nins := by
  have h₁ := h.nk_le
  have h₂ := h.base_lt
  rw [UInt32.le_iff_toNat_le, Ref.toNat_true] at h₁
  rw [UInt32.lt_iff_toNat_lt, Ref.toNat_base] at h₂
  rw [UInt32.lt_iff_toNat_lt]
  omega

/-- A live reference has a record. -/
theorem exists_record (h : t.Laid) {r : Ref} (hr : t.nk ≤ r ∧ r < t.nins) :
    ∃ x, t.view.record r = some x := by
  rw [view_record_of_live hr]
  exact (t.buffer.has_iff r).mp (h.covers.has h.nins_le hr.1 hr.2)

/-- Exactly the live references have a record. -/
theorem record_isSome_iff (h : t.Laid) (r : Ref) :
    (t.view.record r).isSome = true ↔ t.nk ≤ r ∧ r < t.nins := by
  rw [Option.isSome_iff_exists]
  refine ⟨fun ⟨x, hx⟩ => ?_, h.exists_record⟩
  by_contra hdead
  rw [view_record_of_dead hdead] at hx
  cases hx

/-- Only the view and the buffer's range matter to the layout. -/
theorem of_view {t' : Trace} (h : t.Laid) (hconfig : t'.config = t.config)
    (hnins : t'.nins = t.nins) (hnk : t'.nk = t.nk) (hbuffer : t'.buffer = t.buffer) : t'.Laid where
  nk_pos := hnk ▸ h.nk_pos
  nk_le := hnk ▸ h.nk_le
  base_lt := hnins ▸ h.base_lt
  nins_le := hnins ▸ h.nins_le
  base_lt_limit := hconfig ▸ h.base_lt_limit
  covers := by rw [hnk, hnins, hbuffer]; exact h.covers

/-! ### Records that enter -/

theorem lt_limit_of_not_full (hroom : ¬ t.InstructionsFull) : t.nins < Ref.limit :=
  UInt32.not_le.mp fun hfull => hroom (.inr hfull)

theorem one_lt_of_not_full (hroom : ¬ t.ConstantsFull) : 1 < t.nk :=
  UInt32.not_le.mp fun hfull => hroom (.inr hfull)

/-- Making room above keeps every live record. -/
private theorem covers_roomAbove (h : t.Laid) (hroom : ¬ t.InstructionsFull) :
    t.roomAbove.Covers t.nk (t.nins + 1) ∧
      ∀ r, t.nk ≤ r → r < t.nins → t.roomAbove.get? r = t.buffer.get? r := by
  have hlimit := lt_limit_of_not_full hroom
  rw [roomAbove]
  by_cases htop : t.buffer.top ≤ t.nins
  · rw [if_pos htop]
    obtain ⟨hne, hcovers⟩ := h.covers.growTop h.nk_lt_nins hlimit htop t.config.minSize
    exact ⟨hcovers, fun r hlow hhigh =>
      Buffer.get?_growTop hne (h.covers.has h.nins_le hlow hhigh)⟩
  · rw [if_neg htop]
    exact ⟨h.covers.succ_of_lt_top hlimit (UInt32.not_le.mp htop), fun _ _ _ => rfl⟩

/-- Making room below keeps every live record. -/
private theorem covers_roomBelow (h : t.Laid) {buffer : Buffer}
    (hbuffer : t.roomBelow = .ok buffer) :
    buffer.Covers (t.nk - 1) t.nins ∧
      ∀ r, t.nk ≤ r → r < t.nins → buffer.get? r = t.buffer.get? r := by
  rw [roomBelow] at hbuffer
  by_cases hbot : t.nk ≤ t.buffer.bot
  · rw [if_pos hbot] at hbuffer
    exact h.covers.growBottom h.nk_le h.base_lt h.nins_le hbuffer
  · rw [if_neg hbot] at hbuffer
    obtain rfl := Except.ok.inj hbuffer
    exact ⟨h.covers.pred_of_bot_lt (UInt32.not_le.mp hbot), fun _ _ _ => rfl⟩

/-- **Emission.** Below the limit an instruction enters the view, at the next reference. -/
theorem run_emitRaw (h : t.Laid) (hroom : ¬ t.InstructionsFull) (op : Opcode) (ty : Ty)
    (a b : Ref) :
    ∃ t', (emitRaw op ty a b).run t = .ok (.of t.nins ty) t' ∧ t'.Laid ∧
      t'.view = t.view.push { op, ty, left := a, right := b } := by
  have hlimit := lt_limit_of_not_full hroom
  obtain ⟨hcovers, hget⟩ := h.covers_roomAbove hroom
  have hnk := h.nk_lt_nins
  have hle : t.nins + 1 ≤ Ref.limit := by grind
  -- the slot that is written is the one that room was made for
  have hslot : t.roomAbove.has t.nins = true := hcovers.has hle (by grind) (by grind)
  refine ⟨_, by rw [Trace.run_emitRaw, if_neg hroom, if_pos hslot], ?_, ?_⟩
  · exact
      { nk_pos := h.nk_pos
        nk_le := h.nk_le
        base_lt := by have := h.base_lt; grind
        nins_le := hle
        base_lt_limit := h.base_lt_limit
        covers := hcovers.set _ _ }
  · refine view_eq rfl rfl rfl rfl rfl rfl rfl rfl fun r => ?_
    by_cases hr : r = t.nins
    · subst hr
      rw [view_record_of_live (by exact ⟨by grind, by grind⟩), Buffer.get?_set_self _ _ hslot]
      exact (t.view.push_record_self { op, ty, left := a, right := b }).symm
    · rw [View.push_record_of_ne _ _ (show r ≠ t.view.nins from hr)]
      by_cases hlive : t.nk ≤ r ∧ r < t.nins
      · rw [view_record_of_live (by exact ⟨hlive.1, by grind⟩), view_record_of_live hlive,
          Buffer.get?_set_of_ne _ _ (Ne.symm hr), hget r hlive.1 hlive.2]
      · rw [view_record_of_dead (by grind), view_record_of_dead hlive]

/-- **Interning.** Below the limit, and if the buffer has room or can grow, a constant enters the
view, just below the lowest one. -/
theorem run_addConstant (h : t.Laid) (hroom : ¬ t.ConstantsFull) {buffer : Buffer}
    (hbuffer : t.roomBelow = .ok buffer) (x : Record) :
    ∃ t', (addConstant x).run t = .ok (.of (t.nk - 1) x.ty) t' ∧ t'.Laid ∧
      t'.view = t.view.pushConstant x := by
  have hone := one_lt_of_not_full hroom
  have hnk := h.nk_lt_nins
  have hnkle := h.nk_le
  obtain ⟨hcovers, hget⟩ := h.covers_roomBelow hbuffer
  have hslot : buffer.has (t.nk - 1) = true := hcovers.has h.nins_le (by grind) (by grind)
  refine ⟨_, by rw [Trace.run_addConstant, if_neg hroom, hbuffer]; exact if_pos hslot, ?_, ?_⟩
  · exact
      { nk_pos := UInt32.lt_iff_toNat_lt.mp (show 0 < t.nk - 1 by grind)
        nk_le := show t.nk - 1 ≤ Ref.true by grind
        base_lt := h.base_lt
        nins_le := h.nins_le
        base_lt_limit := h.base_lt_limit
        covers := hcovers.set _ _ }
  · refine view_eq rfl rfl rfl rfl rfl rfl rfl rfl fun r => ?_
    by_cases hr : r = t.nk - 1
    · subst hr
      rw [view_record_of_live (by exact ⟨by grind, by grind⟩), Buffer.get?_set_self _ _ hslot]
      exact (t.view.pushConstant_record_self x).symm
    · rw [View.pushConstant_record_of_ne _ _ (show r ≠ t.view.nk - 1 from hr)]
      by_cases hlive : t.nk ≤ r ∧ r < t.nins
      · rw [view_record_of_live (by exact ⟨by grind, hlive.2⟩), view_record_of_live hlive,
          Buffer.get?_set_of_ne _ _ (Ne.symm hr), hget r hlive.1 hlive.2]
      · rw [view_record_of_dead (by grind), view_record_of_dead hlive]

/-- Taking the newest instruction out of a trace takes it out of the view. -/
theorem popInstruction (h : t.Laid) (hfirst : Ref.first < t.nins) :
    ∃ x t', t.buffer.get? (t.nins - 1) = some x ∧
      t' = { t with nins := t.nins - 1, heads := t.heads.set x.op x.prev } ∧ t'.Laid ∧
      t'.view = t.view.popInstruction := by
  have hnk := h.nk_le
  have hle := h.nins_le
  -- the newest instruction comes after `BASE`, so it is live
  have hlive : t.nk ≤ t.nins - 1 ∧ t.nins - 1 < t.nins := by grind
  obtain ⟨x, hx⟩ := h.exists_record hlive
  refine ⟨x, _, by rw [← view_record_of_live hlive, hx], rfl, ?_, ?_⟩
  · exact
      { nk_pos := h.nk_pos
        nk_le := h.nk_le
        base_lt := by grind
        nins_le := by grind
        base_lt_limit := h.base_lt_limit
        covers := h.covers.mono UInt32.le_rfl (UInt32.le_of_lt hlive.2) }
  · rw [View.popInstruction_eq hx]
    refine view_eq rfl rfl rfl rfl rfl rfl rfl rfl fun r => ?_
    show _ = Function.update t.view.record (t.nins - 1) none r
    rw [Function.update_apply]
    by_cases hr : r = t.nins - 1
    · rw [if_pos hr, view_record_of_dead (by grind)]
    · rw [if_neg hr]
      by_cases hlive' : t.nk ≤ r ∧ r < t.nins
      · rw [view_record_of_live hlive', view_record_of_live (by grind)]
      · rw [view_record_of_dead hlive', view_record_of_dead (by grind)]

/-- Taking the newest constant out of a trace takes it out of the view. -/
theorem popConstant (h : t.Laid) (htrue : t.nk < Ref.true) :
    ∃ x t', t.buffer.get? t.nk = some x ∧
      t' = { t with
        buffer := t.buffer.set t.nk .blank, nk := t.nk + 1, heads := t.heads.set x.op x.prev } ∧
      t'.Laid ∧ t'.view = t.view.popConstant := by
  have hlive : t.nk ≤ t.nk ∧ t.nk < t.nins := ⟨UInt32.le_rfl, h.nk_lt_nins⟩
  obtain ⟨x, hx⟩ := h.exists_record hlive
  have hget : t.buffer.get? t.nk = some x := by rw [← view_record_of_live hlive, hx]
  refine ⟨x, _, hget, rfl, ?_, ?_⟩
  · exact
      { nk_pos := UInt32.lt_iff_toNat_lt.mp (show 0 < t.nk + 1 by grind)
        nk_le := by grind
        base_lt := h.base_lt
        nins_le := h.nins_le
        base_lt_limit := h.base_lt_limit
        covers := (h.covers.set _ _).mono (by grind) UInt32.le_rfl }
  · rw [View.popConstant_eq hx]
    refine view_eq rfl rfl rfl rfl rfl rfl rfl rfl fun r => ?_
    show _ = Function.update t.view.record t.nk none r
    rw [Function.update_apply]
    by_cases hr : r = t.nk
    · rw [if_pos hr, view_record_of_dead (by grind)]
    · rw [if_neg hr]
      by_cases hlive' : t.nk ≤ r ∧ r < t.nins
      · rw [view_record_of_live hlive', view_record_of_live (by grind),
          Buffer.get?_set_of_ne _ _ (Ne.symm hr)]
      · rw [view_record_of_dead hlive', view_record_of_dead (by grind)]

/-- The newest instructions leave the view one by one. -/
theorem run_popInstructions (n : Nat) :
    ∀ {t : Trace}, t.Laid → Ref.first.toNat + n ≤ t.nins.toNat →
      ∃ t', (popInstructions n).run t = .ok () t' ∧ t'.Laid ∧
        t'.view = View.popInstruction^[n] t.view := by
  induction n with
  | zero => exact fun h _ => ⟨_, rfl, h, rfl⟩
  | succ n ih =>
    intro t h hn
    have hfirst : Ref.first < t.nins := by
      rw [UInt32.lt_iff_toNat_lt]
      omega
    obtain ⟨x, t₁, hget, ht₁, hlaid, hview⟩ := h.popInstruction hfirst
    have hnins : t₁.nins.toNat = t.nins.toNat - 1 := by
      rw [ht₁]
      exact Ref.toNat_pred (by omega)
    obtain ⟨t', hrun, hlaid', hview'⟩ := ih hlaid (by omega)
    refine ⟨t', ?_, hlaid', by rw [hview', hview, Function.iterate_succ_apply]⟩
    rw [run_popInstructions_succ hget, ← ht₁, hrun]

/-- The newest constants leave the view one by one. -/
theorem run_popConstants (n : Nat) :
    ∀ {t : Trace}, t.Laid → t.nk.toNat + n ≤ Ref.true.toNat →
      ∃ t', (popConstants n).run t = .ok () t' ∧ t'.Laid ∧
        t'.view = View.popConstant^[n] t.view := by
  induction n with
  | zero => exact fun h _ => ⟨_, rfl, h, rfl⟩
  | succ n ih =>
    intro t h hn
    have htrue : t.nk < Ref.true := by
      rw [UInt32.lt_iff_toNat_lt]
      omega
    obtain ⟨x, t₁, hget, ht₁, hlaid, hview⟩ := h.popConstant htrue
    have hnk : t₁.nk.toNat = t.nk.toNat + 1 := by
      rw [ht₁]
      exact Ref.toNat_succ (by grind)
    obtain ⟨t', hrun, hlaid', hview'⟩ := ih hlaid (by omega)
    refine ⟨t', ?_, hlaid', by rw [hview', hview, Function.iterate_succ_apply]⟩
    rw [run_popConstants_succ hget, ← ht₁, hrun]

end Laid

/-! ### Beginning -/

/-- The trace that `setup` begins with. -/
def cleared (t : Trace) : Trace :=
  { t with
    buffer := t.buffer.clear
    nins := Ref.base
    nk := Ref.base
    heads := .empty
    guardEmitted := false
    snapshots := #[] }

private theorem run_forM_write {α : Type} (f : α → Ref) (g : α → Record) (l : List α) :
    ∀ {t t' : Trace}, (l.forM fun a => write (f a) (g a)).run t = .ok () t' ↔
      (∀ a ∈ l, t.buffer.has (f a) = true) ∧
        t' = { t with buffer := l.foldl (fun b a => b.set (f a) (g a)) t.buffer } := by
  induction l with
  | nil =>
    intro t t'
    rw [List.forM, EStateM.run_pure, List.foldl_nil]
    constructor
    · intro h
      cases h
      exact ⟨fun _ hmem => absurd hmem List.not_mem_nil, rfl⟩
    · rintro ⟨-, rfl⟩
      rfl
  | cons a l ih =>
    intro t t'
    rw [List.forM, EStateM.run_bind, run_write, List.forall_mem_cons, List.foldl_cons]
    by_cases hslot : t.buffer.has (f a) = true
    · simp only [hslot, if_true, ih, Buffer.has_set, true_and]
    · simp [hslot]

/-- The trace that `setup` has made when the fixed constants are still missing. -/
def based (t : Trace) : Trace :=
  { t.cleared with
    buffer := t.cleared.roomAbove.set Ref.base { op := .base, ty := Ty.ptr }
    nins := Ref.first
    heads := Heads.empty.set .base Ref.base }

theorem based_config (t : Trace) : t.based.config = t.config := by
  rw [based, cleared]

private theorem run_emitRaw_base {t : Trace} (hroom : ¬ t.cleared.InstructionsFull)
    (hslot : t.cleared.roomAbove.has Ref.base = true) :
    (emitRaw .base Ty.ptr Ref.none Ref.none).run t.cleared = .ok (.of Ref.base Ty.ptr) t.based := by
  have hprev : t.cleared.heads.get .base = 0 := Heads.get_empty _
  have hslot' : t.cleared.roomAbove.has t.cleared.nins = true := hslot
  rw [run_emitRaw, if_neg hroom, if_pos hslot', hprev]
  rfl

/-- Beginning again succeeds exactly if `BASE` is within the limits and the buffer has slots for
it and for the fixed constants. -/
theorem run_setup_eq_ok {t t' : Trace} :
    setup.run t = .ok () t' ↔
      ¬ t.cleared.InstructionsFull ∧ t.cleared.roomAbove.has Ref.base = true ∧
        (∀ ty ∈ fixedTypes, t.cleared.roomAbove.has (fixedRef ty) = true) ∧
        t' =
          { t.based with
            buffer := fixedTypes.foldl (fun b ty => b.set (fixedRef ty) { op := .kpri, ty })
              t.based.buffer
            nk := Ref.true } := by
  rw [setup, EStateM.run_bind, EStateM.run_modify]
  show EStateM.run _ t.cleared = _ ↔ _
  -- three things can go wrong: no room for `BASE`, no slot for it, no slot for a fixed constant
  by_cases hroom : t.cleared.InstructionsFull
  · rw [run_bind_of_error (by rw [EStateM.run_adaptExcept, run_emitRaw, if_pos hroom])]
    exact ⟨fun h => (by cases h), fun h => absurd hroom h.1⟩
  by_cases hslot : t.cleared.roomAbove.has Ref.base = true
  · rw [run_bind_of_ok (by rw [EStateM.run_adaptExcept, run_emitRaw_base hroom hslot])]
    have hbased : ∀ r, t.based.buffer.has r = t.cleared.roomAbove.has r := fun r =>
      Buffer.has_set ..
    cases hwrites :
      (fixedTypes.forM fun ty => write (fixedRef ty) { op := .kpri, ty }).run t.based with
    | ok u t₁ =>
      obtain ⟨hslots, rfl⟩ := (run_forM_write ..).mp hwrites
      rw [run_bind_of_ok hwrites, EStateM.run_modify, EStateM.Result.ok.injEq]
      refine ⟨fun h => ⟨hroom, hslot, fun ty hty => ?_, h.2.symm⟩, fun h => ⟨rfl, h.2.2.2.symm⟩⟩
      rw [← hbased]
      exact hslots ty hty
    | error e t₁ =>
      rw [run_bind_of_error hwrites]
      refine ⟨fun h => (by cases h), fun ⟨_, _, hslots, _⟩ => ?_⟩
      have hok := (run_forM_write fixedRef (fun ty => { op := .kpri, ty }) fixedTypes
        (t := t.based)).mpr ⟨fun ty hty => (hbased _).trans (hslots ty hty), rfl⟩
      rw [hwrites] at hok
      cases hok
  · have hslot' : ¬ t.cleared.roomAbove.has t.cleared.nins = true := hslot
    rw [run_bind_of_error (by
      rw [EStateM.run_adaptExcept, run_emitRaw, if_neg hroom, if_neg hslot'])]
    exact ⟨fun h => (by cases h), fun h => absurd h.2.1 hslot⟩

private theorem fixedRef_nil : fixedRef Ty.nil = Ref.nil := by decide

private theorem fixedRef_false : fixedRef Ty.false = Ref.false := by decide

theorem fixedRef_true : fixedRef Ty.true = Ref.true := by decide

/-- The buffer that `setup` fills. -/
private theorem get?_of_fixed {b : Buffer} (hbase : b.has Ref.base = true)
    (hfixed : ∀ ty ∈ fixedTypes, b.has (fixedRef ty) = true) {r : Ref}
    (hr : Ref.true ≤ r ∧ r < Ref.first) :
    (fixedTypes.foldl (fun b ty => b.set (fixedRef ty) { op := .kpri, ty })
      (b.set Ref.base { op := .base, ty := Ty.ptr })).get? r = View.initialRecord r := by
  simp only [fixedTypes, List.forall_mem_cons, List.foldl_cons, List.foldl_nil, fixedRef_nil,
    fixedRef_false, fixedRef_true] at hfixed ⊢
  obtain ⟨hnil, hfalse, htrue, -⟩ := hfixed
  have hcases : r = Ref.base ∨ r = Ref.nil ∨ r = Ref.false ∨ r = Ref.true := by grind
  rcases hcases with rfl | rfl | rfl | rfl
  · rw [Buffer.get?_set_of_ne _ _ (by decide), Buffer.get?_set_of_ne _ _ (by decide),
      Buffer.get?_set_of_ne _ _ (by decide), Buffer.get?_set_self _ _ hbase]
    rfl
  · rw [Buffer.get?_set_of_ne _ _ (by decide), Buffer.get?_set_of_ne _ _ (by decide),
      Buffer.get?_set_self _ _ (by rw [Buffer.has_set]; exact hnil)]
    rfl
  · rw [Buffer.get?_set_of_ne _ _ (by decide),
      Buffer.get?_set_self _ _ (by rw [Buffer.has_set, Buffer.has_set]; exact hfalse)]
    rfl
  · rw [Buffer.get?_set_self _ _ (by simp only [Buffer.has_set]; exact htrue)]
    rfl

/-- What `setup` leaves, given that the buffer has the four slots it needs. -/
private theorem view_of_run_setup {t t' : Trace} (hrun : setup.run t = .ok () t')
    (hcovers : t.cleared.roomAbove.Covers Ref.true Ref.first) :
    t'.Laid ∧ t'.view = t.view.restart := by
  obtain ⟨hroom, hbase, hslots, rfl⟩ := run_setup_eq_ok.mp hrun
  have hbased : t.based.buffer.Covers Ref.true Ref.first := hcovers.set _ _
  have hlimit : Ref.base < instructionLimit t.based.config := by
    rw [based_config]
    exact UInt32.not_le.mp fun hle => hroom (.inl hle)
  refine ⟨?_, ?_⟩
  · exact
      { nk_pos := show 0 < Ref.true.toNat by decide
        nk_le := UInt32.le_rfl
        base_lt := show Ref.base < Ref.first by decide
        nins_le := show Ref.first ≤ Ref.limit by decide
        base_lt_limit := hlimit
        covers := hbased.foldl_set fixedRef (fun ty => { op := .kpri, ty }) fixedTypes }
  · refine view_eq rfl rfl rfl rfl rfl rfl rfl rfl fun r => ?_
    show _ = View.initialRecord r
    by_cases hlive : Ref.true ≤ r ∧ r < Ref.first
    · rw [view_record_of_live hlive]
      exact get?_of_fixed hbase hslots hlive
    · rw [view_record_of_dead hlive, View.initialRecord]
      rw [if_neg (by grind), if_neg (by grind), if_neg (by grind), if_neg (by grind)]

private theorem Laid.covers_clear {t : Trace} (h : t.Laid) :
    t.buffer.clear.Covers Ref.true Ref.first :=
  h.covers.clear.mono h.nk_le (by have := h.base_lt; grind)

/-- When a trace begins again its slots are there already, so the buffer need not grow. -/
theorem Laid.roomAbove_cleared {t : Trace} (h : t.Laid) :
    t.cleared.roomAbove = t.buffer.clear := by
  have htop := h.covers_clear.le_top (by decide)
  refine if_neg (UInt32.not_le.mpr ?_)
  show Ref.base < t.buffer.clear.top
  grind

theorem exists_run_setup {t : Trace} (hlimit : Ref.base < instructionLimit t.config)
    (hslots : ∀ r, Ref.true ≤ r → r < Ref.first → t.cleared.roomAbove.has r = true) :
    ∃ t', setup.run t = .ok () t' := by
  refine ⟨_, run_setup_eq_ok.mpr ⟨?_, hslots _ (by decide) (by decide), fun ty hty => ?_, rfl⟩⟩
  · exact not_or.mpr ⟨UInt32.not_le.mpr hlimit, by show ¬ Ref.limit ≤ Ref.base; decide⟩
  · simp only [fixedTypes, List.mem_cons, List.not_mem_nil, or_false] at hty
    rcases hty with rfl | rfl | rfl
    · exact hslots _ (by decide) (by decide)
    · exact hslots _ (by decide) (by decide)
    · exact hslots _ (by decide) (by decide)

/-- **Beginning again** never fails on a trace that is laid out soundly. -/
theorem Laid.run_setup {t : Trace} (h : t.Laid) :
    ∃ t', setup.run t = .ok () t' ∧ t'.Laid ∧ t'.view = t.view.restart := by
  have hcovers := h.covers_clear
  have hroom := h.roomAbove_cleared
  obtain ⟨t', hrun⟩ := exists_run_setup h.base_lt_limit fun r hlow hhigh => by
    rw [hroom]
    exact hcovers.has (by decide) hlow hhigh
  exact ⟨t', hrun, view_of_run_setup hrun (hroom ▸ hcovers)⟩

/-- **Beginning.** A trace that could be started shows `BASE` and the fixed constants. -/
theorem start_eq_ok {config : Config} {pool : Pool} {t : Trace} (h : start config pool = .ok t) :
    t.Laid ∧ t.view = View.initial config.normalize pool none := by
  rw [start] at h
  cases hrun : setup.run { config := config.normalize, pool } with
  | error e t' =>
    rw [hrun] at h
    cases h
  | ok u t' =>
    rw [hrun] at h
    obtain rfl := Except.ok.inj h
    -- the empty buffer is replaced by the first array
    have hroom : ({ config := config.normalize, pool } : Trace).cleared.roomAbove =
        Buffer.allocate (UInt32.ofInt config.normalize.minSize) := rfl
    obtain ⟨-, -, hslots, -⟩ := run_setup_eq_ok.mp hrun
    have htrue := hslots Ty.true (by decide)
    rw [hroom, fixedRef_true] at htrue
    exact view_of_run_setup hrun (hroom ▸ Buffer.covers_allocate htrue)

end Trace

end TraceIR
