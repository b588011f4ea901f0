import TraceIR.Proofs.Rollback

/-!
# Room for constants

When constants run out of room the buffer moves its contents up, and it gives up if that would take
its first slot below zero. This file shows that under moderate limits it never comes to that.

* `Config.Moderate` — the limits on records and the size of the first buffer are small against the
  numbers of references. The default options are moderate.
* `Buffer.Within` — how large the buffer can have grown and how far down it can reach, by the
  limits alone. Both ways of growing keep it, and growing downwards then succeeds
  (`Within.growBottom`).
* `Trace.Roomy` — the same for a trace. Every operation that moves a bound of the live range or
  touches the buffer keeps it, and there is always room for one more constant
  (`Roomy.exists_roomBelow`).
-/

namespace TraceIR

namespace Config

/-- The most records that a trace can hold, the fixed ones included. -/
def width (c : Config) : Nat :=
  c.maxInstructions.toNat + c.maxConstants.toNat + 3

/-- How far the buffer moves its contents up at a time, at most: as many slots as there can be
records, or a quarter of the first array if that is more. -/
def reach (c : Config) : Nat :=
  max c.width (c.minSize.toNat / 4)

private theorem width_le_reach (c : Config) : c.width ≤ c.reach :=
  Nat.le_max_left ..

private theorem quarter_le_reach (c : Config) : c.minSize.toNat / 4 ≤ c.reach :=
  Nat.le_max_right ..

/-- The limits leave the buffer room to grow. -/
structure Moderate (c : Config) : Prop where
  minSize_ge : 16 ≤ c.minSize
  instructions_pos : 0 < c.maxInstructions
  constants_pos : 0 < c.maxConstants
  reach_le : c.reach + c.maxConstants.toNat ≤ 0x7ffd

/-- The default options are moderate. -/
theorem moderate_default : ({} : Config).normalize.Moderate := by
  constructor <;> decide

end Config

/-! ### The buffer -/

namespace Buffer

/-- The buffer is no larger, and reaches no further down, than the limits make it. -/
structure Within (b : Buffer) (c : Config) : Prop where
  size_le : b.slots.size ≤ 4 * c.reach + 3
  bot_ge : 0x7ffd ≤ b.bot.toNat + c.maxConstants.toNat + c.reach

variable {b b' : Buffer} {c : Config} {low high : Ref}

private theorem Within.set (h : b.Within c) (r : Ref) (x : Record) : (b.set r x).Within c where
  size_le := by
    rw [Buffer.set, Array.size_setIfInBounds]
    exact h.size_le
  bot_ge := h.bot_ge

private theorem Within.clear (h : b.Within c) : b.clear.Within c where
  size_le := by
    rw [Buffer.clear, Array.size_replicate]
    exact h.size_le
  bot_ge := h.bot_ge

private theorem toNat_minSize (h : c.Moderate) :
    (UInt32.ofInt c.minSize).toNat = c.minSize.toNat := by
  have hge := h.minSize_ge
  have hle := c.quarter_le_reach
  have hreach := h.reach_le
  rw [UInt32.ofInt, UInt32.toNat_ofNat']
  omega

/-- The first array lies close to the border. -/
private theorem toNat_bot_allocate (h : c.Moderate) :
    (allocate (UInt32.ofInt c.minSize)).bot.toNat = 0x8000 - c.minSize.toNat / 4 := by
  have hle := c.quarter_le_reach
  have hreach := h.reach_le
  have hsize := toNat_minSize h
  have hquarter : (UInt32.ofInt c.minSize / 4).toNat = c.minSize.toNat / 4 := by
    rw [UInt32.toNat_div, hsize]
    rfl
  have hborder : UInt32.ofInt c.minSize / 4 ≤ Ref.base := by
    rw [UInt32.le_iff_toNat_le, hquarter, Ref.toNat_base]
    omega
  rw [allocate, UInt32.toNat_sub_of_le _ _ hborder, hquarter, Ref.toNat_base]

private theorem within_allocate (h : c.Moderate) :
    (allocate (UInt32.ofInt c.minSize)).Within c where
  size_le := by
    have hle := c.quarter_le_reach
    rw [allocate, Array.size_replicate, toNat_minSize h]
    omega
  bot_ge := by
    have hle := c.quarter_le_reach
    have hreach := h.reach_le
    rw [toNat_bot_allocate h]
    omega

/-- A buffer is doubled upwards only if its slots are in use. -/
private theorem Within.growTop (h : b.Within c) (hcovers : b.Covers low high) (hlow : low < high)
    (hlimit : high < Ref.limit) (htop : b.top ≤ high)
    (hhigh : high.toNat ≤ 0x8000 + c.maxInstructions.toNat) : (b.growTop c.minSize).Within c := by
  obtain ⟨hne, -⟩ := hcovers.growTop hlow hlimit htop c.minSize
  obtain ⟨-, hfull⟩ := hcovers.near_of_top_le (UInt32.le_of_lt hlimit) htop
  have hbot := h.bot_ge
  have hwidth : c.width = c.maxInstructions.toNat + c.maxConstants.toNat + 3 := rfl
  have hle := c.width_le_reach
  rw [growTop_of_size_ne hne]
  refine ⟨?_, hbot⟩
  -- the array spans no more than what lies between its bottom and the last instruction
  rw [Array.size_append, Array.size_replicate]
  omega

/-- The contents move up by a quarter of an array within the limits, or by at most half of one that
the live range fills to at least a half. -/
private theorem Within.lift_le (h : b.Within c) (hnear : b.bot.toNat + b.slots.size ≤ 0x100000)
    (hlimit : high ≤ Ref.limit) (hwidth : high.toNat ≤ b.bot.toNat + c.width) :
    (b.lift high).toNat ≤ c.reach := by
  have hle := c.width_le_reach
  have hsize := h.size_le
  have hword : b.size.toNat = b.slots.size := toNat_size (by omega)
  rw [lift]
  by_cases hfree : high + b.size / 2 < b.top
  · have hquarter : (b.size / 4).toNat = b.slots.size / 4 := hword ▸ UInt32.toNat_div b.size 4
    rw [if_pos hfree, hquarter]
    omega
  · rw [if_neg hfree]
    rw [half_free_iff hnear hlimit] at hfree
    have hstride := toNat_stride_le b.size
    omega

/-- A buffer with live records moves its contents by some distance. -/
private theorem lift_pos (hsize : b.slots.size < 0x100000000) (hfour : 4 ≤ b.slots.size)
    (high : Ref) :
    0 < (b.lift high).toNat := by
  have hword := toNat_size hsize
  rw [lift]
  split
  · rw [UInt32.toNat_div, hword]
    exact Nat.div_pos hfour (by decide)
  · exact stride_pos (by omega)

/-- An array is doubled only if no more than half of it is free, so it is not large yet. -/
private theorem Within.size_growBottom_le (h : b.Within c)
    (hnear : b.bot.toNat + b.slots.size ≤ 0x100000) (hlimit : high ≤ Ref.limit)
    (hwidth : high.toNat ≤ b.bot.toNat + c.width) (hgrow : b.growBottom low high = .ok b') :
    b'.slots.size ≤ 4 * c.reach + 3 := by
  have hle := c.width_le_reach
  have hsize := h.size_le
  have hword : b.size.toNat = b.slots.size := toNat_size (by omega)
  obtain ⟨-, hcases⟩ := growBottom_cases hgrow
  rw [half_free_iff hnear hlimit] at hcases
  rcases hcases with ⟨hfree, -, hmove⟩ | ⟨hfull, -, hmove⟩
  · rw [size_of_copyUp (moveUp_eq_ok hmove).1]
    exact hsize
  · have htwo : (2 : Ref).toNat = 2 := rfl
    rw [size_of_copyUp (moveUp_eq_ok hmove).1, Array.size_replicate, UInt32.toNat_mul, htwo, hword]
    omega

/-- **Growing downwards** succeeds within moderate limits, and stays within them. -/
theorem Within.growBottom (h : b.Within c) (hc : c.Moderate) (hcovers : b.Covers b.bot high)
    (hle : b.bot ≤ Ref.true) (hbase : Ref.base < high) (hlimit : high ≤ Ref.limit)
    (hconstants : 0x7ffd < b.bot.toNat + c.maxConstants.toNat)
    (hhigh : high.toNat ≤ 0x8000 + c.maxInstructions.toNat) :
    ∃ b', b.growBottom b.bot high = .ok b' ∧ b'.Within c ∧ b'.bot.toNat < b.bot.toNat := by
  have hmoderate := hc.reach_le
  have hgrows := hcovers.exists_growBottom hle hbase hlimit
  rw [UInt32.le_iff_toNat_le, Ref.toNat_true] at hle
  rw [UInt32.lt_iff_toNat_lt, Ref.toNat_base] at hbase
  cases hcovers with
  | far hfar _ _ =>
    -- the bottom is the place of a constant here, and no place beyond all references
    omega
  | near _ hcover hnear =>
    have hwidth : high.toNat ≤ b.bot.toNat + c.width := by
      rw [Config.width]
      omega
    have hreach := h.lift_le hnear hlimit hwidth
    have hpos := lift_pos (b := b) (by omega) (by omega) high
    have hlift : b.lift high < b.bot := UInt32.lt_iff_toNat_lt.mpr (by omega)
    obtain ⟨b', hgrow⟩ := hgrows hlift
    obtain ⟨-, -, hbot'⟩ := bot_of_growBottom hgrow
    have hbot := UInt32.toNat_sub_of_le _ _ (UInt32.le_of_lt hlift)
    refine ⟨b', hgrow, ⟨?_, ?_⟩, ?_⟩
    · exact h.size_growBottom_le hnear hlimit hwidth hgrow
    · rw [hbot', hbot]
      omega
    · rw [hbot', hbot]
      omega

end Buffer

/-! ### Traces -/

namespace Trace

/-- The options of the trace are moderate, and the live range and the buffer keep to them. -/
structure Roomy (t : Trace) : Prop where
  moderate : t.config.Moderate
  nins_le : t.nins.toNat ≤ 0x8000 + t.config.maxInstructions.toNat
  nk_ge : 0x7ffd ≤ t.nk.toNat + t.config.maxConstants.toNat
  bot_le : t.buffer.bot.toNat ≤ t.nk.toNat
  within : t.buffer.Within t.config

/-- Room above comes from the upper end of the buffer. -/
theorem Laid.bot_roomAbove {t : Trace} (h : t.Laid) (hroom : ¬ t.InstructionsFull) :
    t.roomAbove.bot = t.buffer.bot := by
  rw [roomAbove]
  by_cases htop : t.buffer.top ≤ t.nins
  · have hlimit := Laid.lt_limit_of_not_full hroom
    obtain ⟨hne, -⟩ := h.covers.growTop h.nk_lt_nins hlimit htop t.config.minSize
    rw [if_pos htop, Buffer.growTop_of_size_ne hne]
  · rw [if_neg htop]

namespace Roomy

variable {t t' : Trace}

/-- Only the options, the live range and the buffer's place matter. -/
theorem of_eq (h : t.Roomy) (hconfig : t'.config = t.config) (hnins : t'.nins = t.nins)
    (hnk : t'.nk = t.nk) (hbuffer : t'.buffer = t.buffer) : t'.Roomy where
  moderate := hconfig ▸ h.moderate
  nins_le := by rw [hnins, hconfig]; exact h.nins_le
  nk_ge := by rw [hnk, hconfig]; exact h.nk_ge
  bot_le := by rw [hbuffer, hnk]; exact h.bot_le
  within := by rw [hbuffer, hconfig]; exact h.within

private theorem toNat_limit {c : Config} (h : c.Moderate) :
    (instructionLimit c).toNat = 0x8000 + c.maxInstructions.toNat := by
  have hwidth := c.width_le_reach
  have hreach := h.reach_le
  have hpos := h.instructions_pos
  rw [Config.width] at hwidth
  exact toNat_instructionLimit (by omega) (by omega)

private theorem within_roomAbove (h : t.Roomy) (hlaid : t.Laid) (hroom : ¬ t.InstructionsFull) :
    t.roomAbove.Within t.config := by
  have hlimit := Laid.lt_limit_of_not_full hroom
  rw [roomAbove]
  by_cases htop : t.buffer.top ≤ t.nins
  · rw [if_pos htop]
    exact h.within.growTop hlaid.covers hlaid.nk_lt_nins hlimit htop h.nins_le
  · rw [if_neg htop]
    exact h.within

/-- As long as the limit allows another constant, there are references below the lowest one. -/
private theorem constants_lt (h : t.Roomy) (hlaid : t.Laid) (hroom : ¬ t.ConstantsFull) :
    0x7ffd < t.nk.toNat + t.config.maxConstants.toNat := by
  have hsub : (Ref.true - t.nk).toNat = 0x7ffd - t.nk.toNat :=
    UInt32.toNat_sub_of_le _ _ hlaid.nk_le
  have hpos := h.moderate.constants_pos
  by_contra hfull
  refine hroom (.inl ?_)
  rw [hsub]
  omega

/-- **There is always room** for one more constant, as long as the limit allows one. -/
theorem exists_roomBelow (h : t.Roomy) (hlaid : t.Laid) (hroom : ¬ t.ConstantsFull) :
    ∃ buffer, t.roomBelow = .ok buffer ∧ buffer.Within t.config ∧
      buffer.bot.toNat ≤ (t.nk - 1).toNat := by
  have hpred : (t.nk - 1).toNat = t.nk.toNat - 1 := Ref.toNat_pred hlaid.nk_pos
  rw [roomBelow]
  by_cases hbot : t.nk ≤ t.buffer.bot
  · -- the lowest constant is in the first slot
    have heq : t.nk = t.buffer.bot :=
      UInt32.toNat_inj.mp (Nat.le_antisymm (UInt32.le_iff_toNat_le.mp hbot) h.bot_le)
    have hconstants := h.constants_lt hlaid hroom
    rw [if_pos hbot, hpred, heq]
    rw [heq] at hconstants
    obtain ⟨buffer, hgrow, hwithin, hlt⟩ := h.within.growBottom h.moderate
      (heq ▸ hlaid.covers) (heq ▸ hlaid.nk_le) hlaid.base_lt hlaid.nins_le hconstants h.nins_le
    exact ⟨buffer, hgrow, hwithin, by omega⟩
  · rw [if_neg hbot]
    rw [UInt32.not_le, UInt32.lt_iff_toNat_lt] at hbot
    exact ⟨t.buffer, rfl, h.within, by omega⟩

/-! Operations that move a bound of the live range. -/

theorem emitRaw (h : t.Roomy) (hlaid : t.Laid) {op : Opcode} {ty : Ty} {a b : Ref} {y : TRef}
    (hrun : (emitRaw op ty a b).run t = .ok y t') : t'.Roomy := by
  rw [run_emitRaw] at hrun
  split at hrun
  · cases hrun
  · next hroom =>
    split at hrun
    · cases hrun
      have hwithin := h.within_roomAbove hlaid hroom
      have hlt : t.nins < instructionLimit t.config := UInt32.not_le.mp fun hle => hroom (.inl hle)
      rw [UInt32.lt_iff_toNat_lt, toNat_limit h.moderate] at hlt
      exact
        { moderate := h.moderate
          nins_le := by
            dsimp only
            rw [Ref.toNat_succ (Laid.lt_limit_of_not_full hroom)]
            exact hlt
          nk_ge := h.nk_ge
          bot_le := by
            show t.roomAbove.bot.toNat ≤ _
            rw [hlaid.bot_roomAbove hroom]
            exact h.bot_le
          within := hwithin.set _ _ }
    · cases hrun

theorem addConstant (h : t.Roomy) (hlaid : t.Laid) {x : Record} {y : TRef}
    (hrun : (addConstant x).run t = .ok y t') : t'.Roomy := by
  rw [run_addConstant] at hrun
  by_cases hroom : t.ConstantsFull
  · rw [if_pos hroom] at hrun
    cases hrun
  · obtain ⟨buffer, hbuffer, hwithin, hbot⟩ := h.exists_roomBelow hlaid hroom
    rw [if_neg hroom, hbuffer] at hrun
    dsimp only at hrun
    split at hrun
    · cases hrun
      have hconstants := h.constants_lt hlaid hroom
      exact
        { moderate := h.moderate
          nins_le := h.nins_le
          nk_ge := by
            dsimp only
            rw [Ref.toNat_pred hlaid.nk_pos]
            omega
          bot_le := hbot
          within := hwithin.set _ _ }
    · cases hrun

/-! Going back. -/

private theorem popInstructions (n : Nat) :
    ∀ {t t' : Trace}, (popInstructions n).run t = .ok () t' →
      t'.buffer = t.buffer ∧ t'.config = t.config := by
  induction n with
  | zero =>
    intro t t' hrun
    cases hrun
    exact ⟨rfl, rfl⟩
  | succ n ih =>
    intro t t' hrun
    cases hslot : t.buffer.get? (t.nins - 1) with
    | none =>
      simp only [Trace.popInstructions, EStateM.run_bind, EStateM.run_modify, EStateM.run_get,
        run_slot, hslot] at hrun
      cases hrun
    | some x =>
      rw [run_popInstructions_succ hslot] at hrun
      obtain ⟨hbuffer, hconfig⟩ := ih hrun
      exact ⟨hbuffer, hconfig⟩

private theorem popConstants {P : Buffer → Prop} (hP : ∀ b r, P b → P (b.set r .blank)) (n : Nat) :
    ∀ {t t' : Trace}, (popConstants n).run t = .ok () t' → P t.buffer →
      P t'.buffer ∧ t'.config = t.config := by
  induction n with
  | zero =>
    intro t t' hrun hbuffer
    cases hrun
    exact ⟨hbuffer, rfl⟩
  | succ n ih =>
    intro t t' hrun hbuffer
    cases hslot : t.buffer.get? t.nk with
    | none =>
      simp only [Trace.popConstants, EStateM.run_bind, EStateM.run_get, run_slot, hslot] at hrun
      cases hrun
    | some x =>
      rw [run_popConstants_succ hslot] at hrun
      obtain ⟨hbuffer', hconfig⟩ := ih hrun (hP _ _ hbuffer)
      exact ⟨hbuffer', hconfig⟩

/-- Instructions that leave stay in their slots, and constants are blanked. -/
theorem buffer_of_rollback {P : Buffer → Prop} (hP : ∀ b r, P b → P (b.set r .blank))
    {cp : Checkpoint} (hcp : t.accepts cp = true ∧ 0 ≤ cp.snapshots)
    (hrun : (Trace.rollback cp).run t = .ok () t') (hbuffer : P t.buffer) :
    P t'.buffer ∧ t'.config = t.config := by
  rw [run_rollback_of_accepted hcp.1 hcp.2] at hrun
  obtain ⟨u, t₂, hpop, hrun⟩ := exists_of_run_bind hrun
  rw [EStateM.run_bind, EStateM.run_get] at hrun
  obtain ⟨hsame, hconfig⟩ := popInstructions _ hpop
  obtain ⟨hbuffer', hconfig'⟩ := popConstants hP _ hrun (by
    rw [hsame]
    exact hbuffer)
  exact ⟨hbuffer', hconfig'.trans hconfig⟩

theorem rollback (h : t.Roomy) (hlaid : t.Laid) (hview : t.view.WellFormed) {cp : Checkpoint}
    (hrun : (rollback cp).run t = .ok () t') : t'.Roomy := by
  obtain ⟨hcp, -, hview₁⟩ := hlaid.of_run_rollback hrun
  have hreaches := (accepts_iff.mp hcp.1).1
  have hcut := hview.cut_rollback hreaches
  rw [← hview₁] at hcut
  have hnins : t'.nins = cp.ins := hcut.nins
  have hnk : t'.nk = cp.const := hcut.nk
  have hstart : t.buffer.Within t.config ∧ t.buffer.bot = t.buffer.bot := ⟨h.within, rfl⟩
  obtain ⟨⟨hwithin, hbot⟩, hconfig⟩ := buffer_of_rollback
    (P := fun b => b.Within t.config ∧ b.bot = t.buffer.bot)
    (fun _ _ hb => ⟨hb.1.set _ _, hb.2⟩) hcp hrun hstart
  exact
    { moderate := hconfig ▸ h.moderate
      nins_le := by
        rw [hnins, hconfig]
        exact Nat.le_trans (UInt32.le_iff_toNat_le.mp hreaches.ins_le) h.nins_le
      nk_ge := by
        rw [hnk, hconfig]
        have hle := UInt32.le_iff_toNat_le.mp hreaches.nk_le
        exact Nat.le_trans h.nk_ge (Nat.add_le_add_right hle _)
      bot_le := by
        rw [hbot, hnk]
        exact Nat.le_trans h.bot_le (UInt32.le_iff_toNat_le.mp hreaches.nk_le)
      within := hconfig ▸ hwithin }

/-! Beginning. -/

/-- `setup` fills the buffer that it has made room in. -/
theorem buffer_of_setup {P : Buffer → Prop} (hP : ∀ b r x, P b → P (b.set r x))
    (hrun : Trace.setup.run t = .ok () t') (hbuffer : P t.cleared.roomAbove) :
    P t'.buffer ∧ t'.config = t.config ∧ t'.nins = Ref.first ∧ t'.nk = Ref.true := by
  obtain ⟨-, -, -, rfl⟩ := run_setup_eq_ok.mp hrun
  refine ⟨?_, based_config t, rfl, rfl⟩
  show P (fixedTypes.foldl (fun b ty => b.set (fixedRef ty) { op := .kpri, ty })
    (t.cleared.roomAbove.set Ref.base { op := .base, ty := Ty.ptr }))
  exact hP _ _ _ (hP _ _ _ (hP _ _ _ (hP _ _ _ hbuffer)))

/-- The trace that `setup` leaves, if the buffer it fills is within the limits. -/
private theorem of_run_setup (hmoderate : t.config.Moderate)
    (hwithin : t.cleared.roomAbove.Within t.config)
    (hbot : t.cleared.roomAbove.bot.toNat ≤ Ref.true.toNat) (hrun : setup.run t = .ok () t') :
    t'.Roomy := by
  obtain ⟨⟨hwithin', hbot'⟩, hconfig, hnins, hnk⟩ := buffer_of_setup
    (P := fun b => b.Within t.config ∧ b.bot = t.cleared.roomAbove.bot)
    (fun _ _ _ hb => ⟨hb.1.set _ _, hb.2⟩) hrun ⟨hwithin, rfl⟩
  have hinstructions := hmoderate.instructions_pos
  exact
    { moderate := hconfig ▸ hmoderate
      nins_le := by
        rw [hnins, hconfig, Ref.toNat_first]
        omega
      nk_ge := by
        rw [hnk, Ref.toNat_true]
        omega
      bot_le := by
        rw [hbot', hnk]
        exact hbot
      within := hconfig ▸ hwithin' }

theorem setup (h : t.Roomy) (hlaid : t.Laid) (hrun : setup.run t = .ok () t') : t'.Roomy := by
  have hroom := hlaid.roomAbove_cleared
  refine of_run_setup h.moderate (hroom ▸ h.within.clear) ?_ hrun
  rw [hroom]
  exact Nat.le_trans h.bot_le (UInt32.le_iff_toNat_le.mp hlaid.nk_le)

theorem of_start {config : Config} {pool : Pool} (hmoderate : config.normalize.Moderate)
    (hrun : start config pool = .ok t) : t.Roomy := by
  rw [start] at hrun
  split at hrun
  · next u t₁ hsetup =>
    obtain rfl := Except.ok.inj hrun
    have hroom : ({ config := config.normalize, pool } : Trace).cleared.roomAbove =
        Buffer.allocate (UInt32.ofInt config.normalize.minSize) := rfl
    have hge := hmoderate.minSize_ge
    refine of_run_setup hmoderate (hroom ▸ Buffer.within_allocate hmoderate) ?_ hsetup
    rw [hroom, Buffer.toNat_bot_allocate hmoderate, Ref.toNat_true]
    omega
  · cases hrun

end Roomy

end Trace

end TraceIR
