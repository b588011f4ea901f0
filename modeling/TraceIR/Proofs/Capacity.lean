import TraceIR.Proofs.Interning
import TraceIR.Proofs.Room

/-!
# When a new constant enters

Below the limits a new constant still needs a slot. If the lowest constant lies in the first slot of
the buffer, the contents have to move up, and the buffer gives up if its first slot would come to
lie at zero or below. It also gives up if it does not begin below the constants at all, which is so
if the first array was so large that it reaches around.

* `Trace.HasRoomBelow` — there is a slot, or the contents can move. This is exactly the condition
  under which there is room (`Laid.exists_roomBelow_iff`).
* `Trace.Lowered` — the buffer begins where the first array did or lower. This is kept by every step
  of a recording, and with `Trace.Roomy` it settles what the options say about room: under moderate
  options there always is some, also if the first array has room for all constants, and never if
  that array reaches around.
* `Reachable.new_constant_enters_iff` — a new constant enters exactly if there is room below.
-/

namespace TraceIR

/-- The ways in which growing downwards fails. -/
inductive Breach.IsGrowth : Breach → Prop
  | misplacedBottom (size low bottom : Ref) : IsGrowth (.misplacedBottom size low bottom)
  | shiftBelowZero (distance bottom : Ref) : IsGrowth (.shiftBelowZero distance bottom)
  | growBelowZero (distance bottom : Ref) : IsGrowth (.growBelowZero distance bottom)

/-! ### Growing downwards -/

namespace Buffer

variable {b b' : Buffer} {low high : Ref} {e : Breach}

/-- A buffer that covers the range grows, or finds no place to grow into. Copying never goes out of
bounds. -/
private theorem Covers.isGrowth_of_growBottom (h : b.Covers low high) (hlow : low ≤ Ref.true)
    (hbase : Ref.base < high) (hgrow : b.growBottom low high = .error e) : e.IsGrowth := by
  simp only [Buffer.growBottom] at hgrow
  split at hgrow
  · cases hgrow
    exact .misplacedBottom ..
  next hgood =>
  obtain rfl : low = b.bot := not_not.mp fun hne => hgood (.inr hne)
  split at hgrow
  · split at hgrow
    · cases hgrow
      exact .shiftBelowZero ..
    · obtain ⟨b', hmove⟩ := h.exists_shift hlow hbase
      rw [hmove] at hgrow
      cases hgrow
  · split at hgrow
    · cases hgrow
      exact .growBelowZero ..
    · obtain ⟨b', hmove⟩ := h.exists_double hlow hbase
      rw [hmove] at hgrow
      cases hgrow

end Buffer

namespace Trace

variable {t t' : Trace} {c : Constant} {k : Key}

/-- There is a free slot below the lowest constant, or the buffer begins with that constant and its
contents can move up. -/
def HasRoomBelow (t : Trace) : Prop :=
  t.buffer.bot < t.nk ∨ t.nk = t.buffer.bot ∧ t.buffer.lift t.nins < t.buffer.bot

/-- **Room below.** -/
theorem Laid.exists_roomBelow_iff (h : t.Laid) :
    (∃ buffer, t.roomBelow = .ok buffer) ↔ t.HasRoomBelow := by
  rw [roomBelow]
  by_cases hbot : t.nk ≤ t.buffer.bot
  · rw [if_pos hbot]
    constructor
    · rintro ⟨buffer, hgrow⟩
      obtain ⟨hlow, hlift, -⟩ := Buffer.bot_of_growBottom hgrow
      exact .inr ⟨hlow, hlift⟩
    · rintro (hlt | ⟨hlow, hlift⟩)
      · exact absurd hbot (UInt32.not_le.mpr hlt)
      · rw [hlow]
        exact (hlow ▸ h.covers).exists_growBottom (hlow ▸ h.nk_le) h.base_lt h.nins_le hlift
  · rw [if_neg hbot]
    exact ⟨fun _ => .inl (UInt32.not_le.mp hbot), fun _ => ⟨_, rfl⟩⟩

private theorem Laid.isGrowth_of_roomBelow (h : t.Laid) {e : Breach}
    (hstuck : t.roomBelow = .error e) :
    e.IsGrowth := by
  rw [roomBelow] at hstuck
  split at hstuck
  · exact h.covers.isGrowth_of_growBottom h.nk_le h.base_lt hstuck
  · cases hstuck

end Trace

/-! ### Where the buffer begins -/

namespace Config

/-- Where the first array begins. -/
def firstBottom (c : Config) : Ref :=
  Ref.base - UInt32.ofInt c.minSize / 4

/-- The first array has room for all constants. -/
structure Ample (c : Config) : Prop where
  constants_le : c.maxConstants + 3 ≤ (UInt32.ofInt c.minSize).toNat / 4
  quarter_le : (UInt32.ofInt c.minSize).toNat / 4 ≤ 0x8000

/-- The first array reaches below zero, so that it begins above all references. -/
def Oversized (c : Config) : Prop :=
  0x8000 < (UInt32.ofInt c.minSize).toNat / 4

variable {c : Config}

private theorem toNat_firstBottom (c : Config) :
    c.firstBottom.toNat =
      (0x100000000 - (UInt32.ofInt c.minSize).toNat / 4 + 0x8000) % 0x100000000 := by
  have hquarter : (UInt32.ofInt c.minSize / 4).toNat = (UInt32.ofInt c.minSize).toNat / 4 :=
    UInt32.toNat_div _ 4
  rw [firstBottom, UInt32.toNat_sub, hquarter, Ref.toNat_base]

private theorem Ample.toNat_firstBottom (h : c.Ample) :
    c.firstBottom.toNat = 0x8000 - (UInt32.ofInt c.minSize).toNat / 4 := by
  have hle := h.quarter_le
  rw [Config.toNat_firstBottom]
  omega

private theorem Oversized.lt_firstBottom (h : c.Oversized) : Ref.true < c.firstBottom := by
  have hlt := (UInt32.ofInt c.minSize).toNat_lt
  rw [Oversized] at h
  rw [UInt32.lt_iff_toNat_lt, Config.toNat_firstBottom, Ref.toNat_true]
  omega

end Config

namespace Trace

variable {t t' : Trace} {c : Constant} {k : Key}

/-- The buffer begins where the first array did, or lower. It can begin lower only if the first
array began below the constants. -/
def Lowered (t : Trace) : Prop :=
  t.buffer.bot = t.config.firstBottom ∨
    t.buffer.bot < t.config.firstBottom ∧ t.config.firstBottom ≤ Ref.true

private theorem Lowered.of_eq (h : t.Lowered) (hconfig : t'.config = t.config)
    (hbot : t'.buffer.bot = t.buffer.bot) : t'.Lowered := by
  rw [Lowered, hconfig, hbot]
  exact h

/-- Making room below keeps the place of the buffer or lowers it. -/
private theorem Lowered.roomBelow (h : t.Lowered) (hlaid : t.Laid) {buffer : Buffer}
    (hbuffer : t.roomBelow = .ok buffer) :
    buffer.bot = t.config.firstBottom ∨
      buffer.bot < t.config.firstBottom ∧ t.config.firstBottom ≤ Ref.true := by
  rw [Trace.roomBelow] at hbuffer
  split at hbuffer
  · -- the contents move, so the buffer began with the lowest constant
    obtain ⟨hlow, hlift, hbot⟩ := Buffer.bot_of_growBottom hbuffer
    have hle : t.buffer.bot ≤ Ref.true := hlow ▸ hlaid.nk_le
    have hsub : buffer.bot ≤ t.buffer.bot := by
      rw [hbot]
      exact UInt32.sub_le (UInt32.le_of_lt hlift)
    have hfirst : t.buffer.bot ≤ t.config.firstBottom ∧ t.config.firstBottom ≤ Ref.true := by
      rcases h with heq | ⟨hlt, hfirst⟩
      · exact ⟨heq ▸ UInt32.le_rfl, heq ▸ hle⟩
      · exact ⟨UInt32.le_of_lt hlt, hfirst⟩
    rcases UInt32.lt_or_eq_of_le (UInt32.le_trans hsub hfirst.1) with hlt | heq
    · exact .inr ⟨hlt, hfirst.2⟩
    · exact .inl heq
  · cases hbuffer
    exact h

/-- Adding a constant makes room below. -/
private theorem exists_roomBelow_of_addConstant {x : Record} {y : TRef}
    (hrun : (addConstant x).run t = .ok y t') :
    ∃ buffer, t.roomBelow = .ok buffer ∧ t'.buffer.bot = buffer.bot ∧ t'.config = t.config := by
  rw [run_addConstant] at hrun
  split at hrun
  · cases hrun
  cases hbuffer : t.roomBelow with
  | error e =>
    rw [hbuffer] at hrun
    cases hrun
  | ok buffer =>
    rw [hbuffer] at hrun
    dsimp only at hrun
    split at hrun
    · cases hrun
      exact ⟨buffer, rfl, rfl, rfl⟩
    · cases hrun

/-- What is known about the buffer of a trace from the options alone. -/
structure Settled (t : Trace) : Prop where
  canonical : t.Canonical
  lowered : t.Lowered
  roomy : t.config.Moderate → t.Roomy

namespace Settled

/-- The buffer begins where it did. -/
private theorem of_eq (h : t.Settled) (hcanonical : t'.Canonical) (hconfig : t'.config = t.config)
    (hbot : t'.buffer.bot = t.buffer.bot) (hroomy : t.Roomy → t'.Roomy) : t'.Settled where
  canonical := hcanonical
  lowered := h.lowered.of_eq hconfig hbot
  roomy hmoderate := hroomy (h.roomy (hconfig ▸ hmoderate))

private theorem emitRaw (h : t.Settled) {op : Opcode} (hop : op.isConst = false) (ty : Ty)
    (a b : Ref) :
    (t.after (emitRaw op ty a b)).Settled := by
  have hcanonical := h.canonical.emitRaw hop ty a b
  by_cases hfull : t.InstructionsFull
  · rw [after_of_error (by rw [run_emitRaw, if_pos hfull])]
    exact h
  have hlaid := h.canonical.sound.laid
  obtain ⟨t', hrun, -, hview⟩ := hlaid.run_emitRaw hfull op ty a b
  have hbot : t'.buffer.bot = t.roomAbove.bot := by
    rw [run_emitRaw, if_neg hfull] at hrun
    split at hrun
    · cases hrun
      rfl
    · cases hrun
  rw [after_of_ok hrun] at hcanonical ⊢
  exact h.of_eq hcanonical (congrArg View.config hview) (hbot.trans (hlaid.bot_roomAbove hfull))
    fun hroomy => hroomy.emitRaw hlaid hrun

private theorem constant (h : t.Settled) (c : Constant) : (t.after c.intern).Settled := by
  have hcanonical := h.canonical.constant c
  cases hk : c.key? t.pool with
  | none =>
    obtain ⟨b, hrun⟩ := Constant.run_intern_of_no_key hk
    rw [after_of_error hrun]
    exact h
  | some k =>
    have hinterned := h.canonical.interned hk
    rw [after] at hcanonical ⊢
    generalize c.intern.run t = z at hinterned hcanonical ⊢
    -- the pool says nothing about room
    have hpool := h.of_eq (h.canonical.poolAfter c) rfl rfl fun hroomy =>
      hroomy.of_eq rfl rfl rfl rfl
    cases hinterned with
    | found hx hk => exact h
    | full hnew hfull => exact hpool
    | stuck hnew hroom hstuck => exact hpool
    | added hnew hroom hbuffer hx hrun hlaid hview =>
      obtain ⟨buffer, hbuffer', hbot, hconfig⟩ := exists_roomBelow_of_addConstant hrun
      refine ⟨hcanonical, ?_, fun hmoderate => ?_⟩
      · dsimp only at hconfig ⊢
        rw [Lowered, hconfig, hbot]
        exact hpool.lowered.roomBelow hpool.canonical.sound.laid hbuffer'
      · exact (hpool.roomy (hconfig ▸ hmoderate)).addConstant hpool.canonical.sound.laid hrun

private theorem rollback (h : t.Settled) (cp : Checkpoint) : (t.after (rollback cp)).Settled := by
  have hcanonical := stepInvariant_canonical.rollback h.canonical cp
  have hlaid := h.canonical.sound.laid
  by_cases hcp : t.accepts cp = true ∧ 0 ≤ cp.snapshots
  · obtain ⟨t', hrun, -, -⟩ := hlaid.run_rollback hcp.1 hcp.2
    rw [after_of_ok hrun] at hcanonical ⊢
    obtain ⟨hbot, hconfig⟩ := Roomy.buffer_of_rollback (P := fun b => b.bot = t.buffer.bot)
      (fun _ _ hb => hb) hcp hrun rfl
    exact h.of_eq hcanonical hconfig hbot fun hroomy =>
      hroomy.rollback hlaid h.canonical.sound.wellFormed hrun
  · obtain ⟨e, hrun⟩ := run_rollback_of_rejected hcp
    rw [after_of_error hrun]
    exact h

private theorem setup (h : t.Settled) : (t.after setup).Settled := by
  have hcanonical := stepInvariant_canonical.setup h.canonical
  have hlaid := h.canonical.sound.laid
  obtain ⟨t', hrun, -, -⟩ := hlaid.run_setup
  rw [after_of_ok hrun] at hcanonical ⊢
  have hroom := congrArg Buffer.bot hlaid.roomAbove_cleared
  obtain ⟨hbot, hconfig, -⟩ := Roomy.buffer_of_setup (P := fun b => b.bot = t.buffer.bot)
    (fun _ _ _ hb => hb) hrun hroom
  exact h.of_eq hcanonical hconfig hbot fun hroomy => hroomy.setup hlaid hrun

end Settled

/-- Every step of a recording keeps the buffer within what the options say. -/
private theorem stepInvariant_settled : StepInvariant Settled where
  folder h f := h.of_eq (stepInvariant_canonical.folder h.canonical f) rfl rfl fun hroomy =>
    hroomy.of_eq rfl rfl rfl rfl
  snapshot h refs := h.of_eq (stepInvariant_canonical.snapshot h.canonical refs) rfl rfl
    fun hroomy => hroomy.of_eq rfl rfl rfl rfl
  guard h := h.of_eq (stepInvariant_canonical.guard h.canonical) rfl rfl fun hroomy =>
    hroomy.of_eq rfl rfl rfl rfl
  emitRaw h _ hop ty a b := h.emitRaw hop ty a b
  constant h c := h.constant c
  rollback h cp := h.rollback cp
  setup h := h.setup

/-- The buffer of a new trace is the first array. -/
private theorem buffer_of_start {config : Config} {pool : Pool} (h : start config pool = .ok t) :
    t.buffer.slots.size = (UInt32.ofInt config.normalize.minSize).toNat ∧
      t.buffer.bot = config.normalize.firstBottom := by
  rw [start] at h
  split at h
  · next u t' hsetup =>
    obtain rfl := Except.ok.inj h
    refine (Roomy.buffer_of_setup (P := fun b =>
      b.slots.size = (UInt32.ofInt config.normalize.minSize).toNat ∧
        b.bot = config.normalize.firstBottom) (fun b r x hb => ⟨?_, hb.2⟩) hsetup ⟨?_, rfl⟩).1
    · rw [Buffer.set, Array.size_setIfInBounds]
      exact hb.1
    · exact Array.size_replicate
  · cases h

theorem Reachable.settled (h : Reachable t) : t.Settled := by
  refine stepInvariant_settled.of_reachable (fun {config pool t} hstart => ?_) h
  have hconfig : t.config = config.normalize := congrArg View.config (start_eq_ok hstart).2
  refine ⟨(Reachable.start hstart).canonical, ?_, fun hmoderate => ?_⟩
  · rw [Lowered, hconfig]
    exact .inl (buffer_of_start hstart).2
  · exact Roomy.of_start (hconfig ▸ hmoderate) hstart

/-! ### What the options say about room -/

namespace Settled

theorem hasRoomBelow_of_moderate (h : t.Settled) (hmoderate : t.config.Moderate)
    (hroom : ¬ t.ConstantsFull) : t.HasRoomBelow := by
  have hlaid := h.canonical.sound.laid
  obtain ⟨buffer, hbuffer, -⟩ := (h.roomy hmoderate).exists_roomBelow hlaid hroom
  exact hlaid.exists_roomBelow_iff.mp ⟨buffer, hbuffer⟩

/-- The first array has room for all constants, so its contents never move. -/
private theorem hasRoomBelow_of_ample (h : t.Settled) (hample : t.config.Ample)
    (hroom : ¬ t.ConstantsFull) : t.HasRoomBelow := by
  have hbot : t.buffer.bot.toNat ≤ t.config.firstBottom.toNat := by
    rcases h.lowered with heq | ⟨hlt, -⟩
    · rw [heq]
    · exact Nat.le_of_lt (UInt32.lt_iff_toNat_lt.mp hlt)
  have hconstants : ((Ref.true - t.nk).toNat : Int) < t.config.maxConstants :=
    Int.not_le.mp fun hle => hroom (.inl hle)
  have hnk := h.canonical.sound.laid.nk_le
  have hle := hample.constants_le
  have hquarter := hample.quarter_le
  rw [hample.toNat_firstBottom] at hbot
  rw [UInt32.toNat_sub_of_le _ _ hnk, Ref.toNat_true] at hconstants
  rw [UInt32.le_iff_toNat_le, Ref.toNat_true] at hnk
  refine .inl (UInt32.lt_iff_toNat_lt.mpr ?_)
  omega

/-- A buffer that reaches around begins above all constants, where it stays. -/
private theorem not_hasRoomBelow_of_oversized (h : t.Settled) (hover : t.config.Oversized) :
    ¬ t.HasRoomBelow := by
  have hfirst := hover.lt_firstBottom
  have hnk := h.canonical.sound.laid.nk_le
  have hbot : t.buffer.bot = t.config.firstBottom := by
    rcases h.lowered with heq | ⟨-, hle⟩
    · exact heq
    · exact absurd hfirst (UInt32.not_lt.mpr hle)
  have hlt : t.nk < t.buffer.bot := hbot ▸ UInt32.lt_of_le_of_lt hnk hfirst
  rintro (hlt' | ⟨heq, -⟩)
  · exact UInt32.lt_asymm hlt hlt'
  · exact UInt32.ne_of_lt hlt heq

end Settled

/-- A request for a key that no constant has, below the limits. -/
theorem Canonical.run_intern_of_new (h : t.Canonical) (hk : c.key? t.pool = some k)
    (hnew : ∀ r, ¬ t.HasKey r k) (hroom : ¬ t.ConstantsFull) :
    (∃ t', c.intern.run t = .ok (.of (t.nk - 1) c.ty) t' ∧ t.Gains k t' ∧ t.HasRoomBelow) ∨
      ∃ e, c.intern.run t = .error (.broken e) { t with pool := c.poolAfter t.pool } ∧
        t.roomBelow = .error e ∧ ¬ t.HasRoomBelow := by
  have hiff := h.sound.laid.exists_roomBelow_iff
  have hinterned := h.interned hk
  generalize c.intern.run t = z at hinterned ⊢
  cases hinterned with
  | @found r x hx hk => exact absurd ⟨x, record?_eq_ok_iff.mpr hx, hk⟩ (hnew r)
  | full _ hfull => exact absurd hfull hroom
  | @stuck e _ _ hstuck =>
    refine .inr ⟨e, rfl, hstuck, fun hhas => ?_⟩
    obtain ⟨buffer, hbuffer⟩ := hiff.mpr hhas
    rw [hstuck] at hbuffer
    cases hbuffer
  | added _ _ hbuffer hx hrun hlaid hview =>
    exact .inl ⟨_, rfl, h.gains hx hview, hiff.mp ⟨_, hbuffer⟩⟩

theorem Canonical.gains_iff (h : t.Canonical) (hk : c.key? t.pool = some k)
    (hnew : ∀ r, ¬ t.HasKey r k) (hroom : ¬ t.ConstantsFull) :
    (∃ t', c.intern.run t = .ok (.of (t.nk - 1) c.ty) t' ∧ t.Gains k t') ↔ t.HasRoomBelow := by
  rcases h.run_intern_of_new hk hnew hroom with ⟨t', hrun, hgains, hhas⟩ | ⟨e, hrun, -, hhas⟩
  · exact ⟨fun _ => hhas, fun _ => ⟨t', hrun, hgains⟩⟩
  · refine ⟨fun ⟨t', hrun', _⟩ => ?_, fun hhas' => absurd hhas' hhas⟩
    rw [hrun] at hrun'
    cases hrun'

/-- **A new constant enters exactly if there is room below.** Below the limits on constants, a
request for a key that no constant has adds that constant and nothing else if there is room, and
otherwise the buffer fails to grow and all records stay. There is room whenever the options are
moderate or the first array has room for all constants; there never is if that array reaches
around. -/
theorem Reachable.new_constant_enters_iff (h : Reachable t) (hk : c.key? t.pool = some k)
    (hnew : ∀ r, ¬ t.HasKey r k) (hroom : ¬ t.ConstantsFull) :
    ((∃ t', c.intern.run t = .ok (.of (t.nk - 1) c.ty) t' ∧ t.Gains k t') ↔ t.HasRoomBelow) ∧
      (¬ t.HasRoomBelow → ∃ e, e.IsGrowth ∧
        c.intern.run t = .error (.broken e) { t with pool := c.poolAfter t.pool }) ∧
      (t.config.Moderate ∨ t.config.Ample → t.HasRoomBelow) ∧
      (t.config.Oversized → ¬ t.HasRoomBelow) := by
  have hsettled := h.settled
  refine ⟨hsettled.canonical.gains_iff hk hnew hroom, ?_, ?_,
    hsettled.not_hasRoomBelow_of_oversized⟩
  · intro hnone
    rcases hsettled.canonical.run_intern_of_new hk hnew hroom with
      ⟨t', -, -, hhas⟩ | ⟨e, hrun, hstuck, -⟩
    · exact absurd hhas hnone
    · exact ⟨e, h.sound.laid.isGrowth_of_roomBelow hstuck, hrun⟩
  · rintro (hmoderate | hample)
    · exact hsettled.hasRoomBelow_of_moderate hmoderate hroom
    · exact hsettled.hasRoomBelow_of_ample hample hroom

/-- The second constant of a trace with the smallest buffer finds no free slot, and enters. -/
theorem new_constant_enters_full_buffer :
    ∃ t t' t'', start { minSize := 16 } {} = .ok t ∧
      (Constant.int 1).intern.run t = .ok (.of (t.nk - 1) Ty.int) t' ∧
      t'.nk = t'.buffer.bot ∧
      (Constant.int 2).intern.run t' = .ok (.of (t'.nk - 1) Ty.int) t'' ∧
      t'.Gains (.int 2) t'' := by
  obtain ⟨t, t', ht, hrun, hfull, hfull', hmoderate, hbot⟩ :
      ∃ t t', start { minSize := 16 } {} = .ok t ∧
        (Constant.int 1).intern.run t = .ok (.of (t.nk - 1) Ty.int) t' ∧
        ¬ t.ConstantsFull ∧ ¬ t'.ConstantsFull ∧ t'.config.Moderate ∧ t'.nk = t'.buffer.bot :=
    ⟨_, _, rfl, rfl, by decide, by decide, by constructor <;> decide, rfl⟩
  have hreach := Reachable.start ht
  have hreach' : Reachable t' := after_of_ok hrun ▸ hreach.step (.intern (.int 1))
  -- the first constant is all that there is
  have hnew : ∀ r, ¬ t'.HasKey r (.int 2) := by
    have hnone := not_hasKey_of_start ht
    rcases hreach.canonical.run_intern_of_new (c := .int 1) rfl (hnone · _) hfull with
      ⟨t₁, hrun₁, hgains, -⟩ | ⟨e, hrun₁, -⟩
    · rw [hrun] at hrun₁
      cases hrun₁
      intro r hr
      rcases (hgains.hasKey_iff hreach.sound).mp hr with ⟨-, hk⟩ | hr
      · cases hk
      · exact hnone r _ hr
    · rw [hrun] at hrun₁
      cases hrun₁
  have hiff := Reachable.new_constant_enters_iff (c := .int 2) hreach' rfl hnew hfull'
  obtain ⟨t'', hrun'', hgains⟩ := hiff.1.mpr (hiff.2.2.1 (.inl hmoderate))
  exact ⟨t, t', t'', ht, hrun, hbot, hrun'', hgains⟩

/-- A trace can be started if its first array has slots for `BASE` and the fixed constants. -/
private theorem exists_start {config : Config} (pool : Pool)
    (hlimit : Ref.base < instructionLimit config.normalize)
    (hslots : ∀ r, Ref.true ≤ r → r < Ref.first →
      (Buffer.allocate (UInt32.ofInt config.normalize.minSize)).has r = true) :
    ∃ t, start config pool = .ok t := by
  obtain ⟨t, hrun⟩ := exists_run_setup (t := { config := config.normalize, pool }) hlimit hslots
  rw [start, hrun]
  exact ⟨t, rfl⟩

/-- A new trace whose first array reaches around: the limits are far off, and there is no room. -/
theorem exists_oversized :
    ∃ t, start { minSize := 131076 } {} = .ok t ∧ ¬ t.ConstantsFull ∧
      t.roomBelow = .error (.misplacedBottom 131076 Ref.true 0xffffffff) := by
  obtain ⟨t, ht⟩ : ∃ t, start { minSize := 131076 } {} = .ok t := by
    refine exists_start {} (by decide) fun r hlow hhigh => ?_
    have hcases : r = Ref.base ∨ r = Ref.nil ∨ r = Ref.false ∨ r = Ref.true := by grind
    rw [Buffer.has, Buffer.allocate, Array.size_replicate]
    rcases hcases with rfl | rfl | rfl | rfl <;> decide
  have hview := (start_eq_ok ht).2
  have hnk : t.nk = Ref.true := congrArg View.nk hview
  have hconfig : t.config = { minSize := 131076 } := congrArg View.config hview
  obtain ⟨hsize, hbot⟩ := buffer_of_start ht
  have hsize' : t.buffer.size = 131076 := by
    rw [Buffer.size, hsize]
    rfl
  have hbot' : t.buffer.bot = 0xffffffff := hbot.trans (by decide)
  refine ⟨t, ht, ?_, ?_⟩
  · rw [ConstantsFull, hnk, hconfig]
    decide
  · rw [roomBelow, Buffer.growBottom, hnk, hsize', hbot']
    rfl

/-- A request for a new key fails as the buffer does. -/
theorem Canonical.run_intern_of_stuck (h : t.Canonical) (hk : c.key? t.pool = some k)
    (hnew : ∀ r, ¬ t.HasKey r k) (hroom : ¬ t.ConstantsFull) {e : Breach}
    (hstuck : t.roomBelow = .error e) :
    c.intern.run t = .error (.broken e) { t with pool := c.poolAfter t.pool } := by
  rcases h.run_intern_of_new hk hnew hroom with ⟨t', -, -, hhas⟩ | ⟨e', hrun, hstuck', -⟩
  · obtain ⟨buffer, hbuffer⟩ := h.sound.laid.exists_roomBelow_iff.mpr hhas
    rw [hstuck] at hbuffer
    cases hbuffer
  · rw [hstuck] at hstuck'
    cases hstuck'
    exact hrun

/-- A trace whose first array reaches around takes no constant. -/
theorem no_constant_enters_oversized_buffer :
    ∃ t, start { minSize := 131076 } {} = .ok t ∧ ¬ t.ConstantsFull ∧
      (∀ r, ¬ t.HasKey r (.int 1)) ∧
      (Constant.int 1).intern.run t =
        .error (.broken (.misplacedBottom 131076 Ref.true 0xffffffff)) t := by
  obtain ⟨t, ht, hroom, hstuck⟩ := exists_oversized
  have hnew := fun r => not_hasKey_of_start ht r (.int 1)
  have hcanonical := (Reachable.start ht).canonical
  exact ⟨t, ht, hroom, hnew,
    hcanonical.run_intern_of_stuck (c := .int 1) rfl hnew hroom hstuck⟩

end Trace

end TraceIR
