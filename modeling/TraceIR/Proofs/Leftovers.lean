import TraceIR.Proofs.Canonicity
import TraceIR.Proofs.Refusals
import TraceIR.Proofs.Sharing

/-!
# What a refused conversion leaves behind

A conversion takes up to three steps: a string is read as a number, the bias of a conversion to bits
is interned, and the result is emitted. Each step is refused as a whole, but a step that is done is
not undone when a later one is refused.

* `Trace.Prepared` — the four ways in which the first step ends.
* `Trace.LacksBias` — no floating-point constant has the value of the bias, so the second step has
  to add it (`Canonical.lacksBias_iff`).
* `Trace.Leaves` — a trace holds all that another one held, and of two records given beforehand the
  ones that are said to be there. Each step that is done adds its record (`Leaves.of_read`,
  `Leaves.add_bias`).
* `Reachable.refused_coercion_leaves` — which of the two a refused conversion leaves behind. It
  changes nothing exactly if it leaves neither, and so it is whenever the type is wrong
  (`Sound.unchanged_of_badType`).
-/

namespace TraceIR

/-- An instruction has no key. -/
private theorem View.lacks_push_iff {v : View} {z : Record} {k : Key} (hv : v.WellFormed)
    (hop : z.op.isConst = false) : (v.push z).Lacks k ↔ v.Lacks k := by
  constructor
  · intro hlacks r y hy
    refine hlacks r y ?_
    have hlive := ((hv.live_iff r).mp ⟨y, hy⟩).2
    rw [push_record_of_ne _ _ (UInt32.ne_of_lt hlive), hy]
  · intro hlacks r y hy
    rcases record_push_cases hy with ⟨-, rfl⟩ | hy
    · intro hkey
      rw [Record.key?_eq_none (by exact hop)] at hkey
      cases hkey
    · exact hlacks r y hy

namespace Trace

variable {t t' t₁ : Trace} {op : Opcode} {ty : Ty} {a b : Ref} {x y : TRef} {c : Coercion}
  {r : Refusal}

/-! ### Reading a string -/

/-- The value is a string, and no instruction reads it that could be shared. -/
def NeedsReading (t : Trace) (x : TRef) : Prop :=
  x.ty.isStr = true ∧ ¬ t.CanShare .strto Ty.num.guarded x.ref Ref.none

/-- The instruction that reads a string as a number. -/
def readingOf (x : TRef) : Record :=
  { op := .strto, ty := Ty.num.guarded, left := x.ref, right := Ref.none }

/-- How a conversion to bits or to an integer begins. A value that is no number has to be a string,
and a string has to be read. -/
inductive Prepared (t : Trace) (c : Coercion) (x : TRef) :
    EStateM.Result Fault Trace TRef → Prop
  | ready {y : TRef} (h : ¬ t.NeedsReading x) : Prepared t c x (.ok y t)
  | read {y : TRef} {t₁ : Trace} (h : t.NeedsReading x) (hroom : ¬ t.InstructionsFull)
      (hlaid : t₁.Laid) (hview : t₁.view = t.view.push (readingOf x)) : Prepared t c x (.ok y t₁)
  | full (h : t.NeedsReading x) (hfull : t.InstructionsFull) :
      Prepared t c x (.error (.refused .traceOverflow) t)
  | mistyped (h : x.ty.isStr = false) : Prepared t c x (.error (.refused (.badType c x.ty)) t)

/-- A string is read unless that is shared. -/
private theorem Sound.run_stringToNumber (h : t.Sound) (x : TRef) :
    t.CanShare .strto Ty.num.guarded x.ref Ref.none ∧ (∃ y, (stringToNumber x).run t = .ok y t) ∨
      ¬ t.CanShare .strto Ty.num.guarded x.ref Ref.none ∧
        (stringToNumber x).run t = (emitRaw .strto Ty.num.guarded x.ref Ref.none).run t := by
  cases hfolder : t.folder with
  | none =>
    -- without a folder nothing is shared
    refine .inr ⟨?_, ?_⟩
    · rintro ⟨⟨f, hf, -⟩, -⟩
      rw [hfolder] at hf
      cases hf
    · rw [stringToNumber, emit, EStateM.run_bind, EStateM.run_get]
      dsimp only
      rw [hfolder]
  | some f =>
    rw [stringToNumber, run_emit_of_plain hfolder rfl rfl]
    refine (h.run_place hfolder rfl rfl _ _ _).imp_left ?_
    rintro ⟨hshare, r, z, -, -, hrun⟩
    exact ⟨hshare, _, hrun⟩

private theorem Sound.prepared (h : t.Sound) (c : Coercion) (x : TRef) :
    Prepared t c x ((numberOrString c x).run t) := by
  rw [numberOrString]
  by_cases hstr : x.ty.isStr = true
  · rw [if_pos hstr]
    rcases h.run_stringToNumber x with ⟨hshare, y, hrun⟩ | ⟨hnew, hrun⟩
    · rw [hrun]
      exact .ready fun hneeds => hneeds.2 hshare
    · rw [hrun]
      by_cases hfull : t.InstructionsFull
      · rw [run_emitRaw, if_pos hfull]
        exact .full ⟨hstr, hnew⟩ hfull
      · obtain ⟨t₁, hraw, hlaid, hview⟩ := h.laid.run_emitRaw hfull _ _ _ _
        rw [hraw]
        exact .read ⟨hstr, hnew⟩ hfull hlaid hview
  · rw [if_neg hstr]
    by_cases hnum : x.ty.isNum = true
    · rw [if_pos hnum]
      exact .ready fun hneeds => hstr hneeds.1
    · rw [if_neg hnum]
      exact .mistyped (Bool.eq_false_iff.mpr hstr)

/-! ### The bias -/

/-- No floating-point constant has the value of the bias. -/
def LacksBias (t : Trace) : Prop :=
  ∀ q z, t.record? q = .ok z → z.op = .knum → t.value q ≠ .ok (.num bitBias)

/-- The key of a floating-point constant is the slot that holds its value. -/
private theorem hasKey_of_value {q : Ref} {z : Record} {n : Binary64} (hz : t.record? q = .ok z)
    (hop : z.op = .knum) (h : t.value q = .ok (.num n)) :
    ∃ s, t.HasKey q (.num s) ∧ s.value? t.pool = some n := by
  rw [value, hz] at h
  split at h
  · replace h : t.recordValue z = .ok (.num n) := h
    simp only [recordValue, hop] at h
    split at h
    · next v hv =>
      cases h
      obtain ⟨s, hs, hvalue⟩ := Option.bind_eq_some_iff.mp hv
      refine ⟨s, ⟨z, hz, ?_⟩, hvalue⟩
      rw [Record.key?, hop, hs]
      rfl
    · cases h
  · cases h

/-- The key that a conversion to bits asks for. -/
def biasKey (p : Pool) : Key :=
  .num (.pooled (p.find bitBias).1)

/-- The bias is there exactly if its key is. The masks have other values. -/
theorem Canonical.lacksBias_iff (h : t.Canonical) :
    t.LacksBias ↔ t.view.Lacks (biasKey t.pool) := by
  have hdemand : Constant.key? .numToBit t.pool = some (biasKey t.pool) := rfl
  rw [lacks_iff]
  constructor
  · -- a request for a key that is there is answered with its value
    intro hlacks q hq
    have hrun := h.run_intern_of_hasKey hdemand hq
    obtain ⟨-, -, hvalue⟩ := h.hasKey_of_intern hdemand hrun
    obtain ⟨z, hz, hkey⟩ := id hq
    exact hlacks q z hz (Record.op_of_key? hkey) (h.value_of_hasKey hq hvalue)
  · intro hlacks q z hz hop hq
    obtain ⟨s, hkey, hvalue⟩ := hasKey_of_value hz hop hq
    cases s with
    | pooled i =>
      obtain ⟨n, hholds, hn⟩ := h.exists_holds hkey
      rw [hq] at hn
      cases hn
      refine hlacks q ?_
      rw [biasKey, hholds.find_self]
      exact hkey
    | absMask => exact absurd (Option.some.inj hvalue) (by decide)
    | negMask => exact absurd (Option.some.inj hvalue) (by decide)

/-- How the request for the bias ends if it is answered: the constant is there, or it is new. -/
private theorem Canonical.run_knumToBit (h : t.Canonical) (hrun : knumToBit.run t = .ok y t') :
    ¬ t.LacksBias ∧ t' = t ∨
      t.LacksBias ∧ ∃ z, z.op = .knum ∧ t.Gains (biasKey t.pool) t' ∧
        t'.value (t.nk - 1) = .ok (.num bitBias) ∧
        t'.view = { t.view with pool := (t.pool.find bitBias).2 : View }.pushConstant z := by
  have hdemand : Constant.key? .numToBit t.pool = some (biasKey t.pool) := rfl
  have hrun' : (Constant.intern .numToBit).run t = .ok y t' := hrun
  have hinterned := h.interned hdemand
  obtain ⟨hcanonical, -, hvalue⟩ := h.hasKey_of_intern hdemand hrun'
  rw [h.lacksBias_iff]
  rw [hrun'] at hinterned
  cases hinterned with
  | found hx hk => exact .inl ⟨fun hlacks => hlacks _ _ hx hk, rfl⟩
  | added hnew hroom hbuffer hx hadd hlaid hview =>
    have hgains := h.gains hx hview
    exact .inr ⟨hnew, _, Record.op_of_key? hx.key, hgains,
      hcanonical.value_of_hasKey hgains.hasKey hvalue, hview⟩

/-! ### What is left behind -/

/-- The trace `t'` holds all that `t` holds, in the same order. If `p` it has also read the string
`x`, and if `q` it has also the bias as a constant; beyond that nothing is new. -/
structure Leaves (t : Trace) (x : TRef) (p q : Prop) (t' : Trace) : Prop where
  record : ∀ r z, t.record? r = .ok z → t'.record? r = .ok z
  snapshots : t'.snapshots = t.snapshots
  heads : ∀ op, op ≠ .strto → op ≠ .knum → t'.heads.get op = t.heads.get op
  read : p → t'.nins = t.nins + 1 ∧ t'.heads.get .strto = t.nins ∧
    t'.record? t.nins = .ok { readingOf x with prev := t.heads.get .strto }
  unread : ¬ p → t'.nins = t.nins ∧ t'.heads.get .strto = t.heads.get .strto
  biased : q → t'.nk = t.nk - 1 ∧ t'.heads.get .knum = t.nk - 1 ∧
    t'.value (t.nk - 1) = .ok (.num bitBias) ∧
    ∃ z, t'.record? (t.nk - 1) = .ok z ∧ z.op = .knum ∧ z.prev = t.heads.get .knum
  unbiased : ¬ q → t'.nk = t.nk ∧ t'.heads.get .knum = t.heads.get .knum

namespace Leaves

variable {p q p' q' : Prop}

private theorem congr (h : t.Leaves x p q t') (hp : p ↔ p') (hq : q ↔ q') :
    t.Leaves x p' q' t' := by
  rw [← propext hp, ← propext hq]
  exact h

/-- Without a step that is done nothing is left. -/
private theorem nothing (hp : ¬ p) (hq : ¬ q) : t.Leaves x p q t where
  record _ _ hz := hz
  snapshots := rfl
  heads _ _ _ := rfl
  read hyes := absurd hyes hp
  unread _ := ⟨rfl, rfl⟩
  biased hyes := absurd hyes hq
  unbiased _ := ⟨rfl, rfl⟩

/-- The pool does not count, as long as no number from it does. -/
private theorem with_pool (h : t.Leaves x p q t₁) (hq : ¬ q) (pool : Pool) :
    t.Leaves x p q { t₁ with pool } where
  record := h.record
  snapshots := h.snapshots
  heads := h.heads
  read := h.read
  unread := h.unread
  biased hyes := absurd hyes hq
  unbiased := h.unbiased

/-- The string has been read. -/
theorem of_read (ht : t.Sound) (hview : t'.view = t.view.push (readingOf x)) (hp : p)
    (hq : ¬ q) : t.Leaves x p q t' := by
  have hheads : t'.heads = t.heads.set .strto t.nins := congrArg View.heads hview
  exact
    { record := by
        intro r z hz
        rw [record?_eq_ok_iff] at hz ⊢
        -- the new reference was free
        have hlive := ((ht.wellFormed.live_iff r).mp ⟨z, hz⟩).2
        rw [hview, View.push_record_of_ne _ _ (UInt32.ne_of_lt hlive), hz]
      snapshots := congrArg View.snapshots hview
      heads := by
        intro op hop _
        rw [hheads, Heads.get_set_of_ne _ _ hop.symm]
      read := by
        intro _
        refine ⟨congrArg View.nins hview, by rw [hheads, Heads.get_set_self], ?_⟩
        rw [record?_eq_ok_iff, hview]
        exact View.push_record_self ..
      unread := fun hnot => absurd hp hnot
      biased := fun hyes => absurd hyes hq
      unbiased := by
        intro _
        refine ⟨congrArg View.nk hview, ?_⟩
        rw [hheads, Heads.get_set_of_ne _ _ (by decide)] }

/-- The bias has been interned, after what was left before. -/
theorem add_bias (h : t.Leaves x p q t₁) (hq : ¬ q) {z : Record} {k : Key} {pool : Pool}
    (hop : z.op = .knum) (hgains : t₁.Gains k t')
    (hvalue : t'.value (t₁.nk - 1) = .ok (.num bitBias))
    (hview : t'.view = { t₁.view with pool : View }.pushConstant z) (hq' : q') :
    t.Leaves x p q' t' := by
  obtain ⟨hnk, hknum⟩ := h.unbiased hq
  have hheads : t'.heads = t₁.heads.set .knum (t₁.nk - 1) := by
    have hset := congrArg View.heads hview
    rw [← hop]
    exact hset
  exact
    { record := fun r y hy => hgains.record r y (h.record r y hy)
      snapshots := hgains.snapshots.trans h.snapshots
      heads := by
        intro op hstrto hne
        rw [hheads, Heads.get_set_of_ne _ _ hne.symm, h.heads op hstrto hne]
      read := by
        intro hyes
        obtain ⟨hnins, hstrto, hrecord⟩ := h.read hyes
        refine ⟨hgains.nins.trans hnins, ?_, hgains.record _ _ hrecord⟩
        rw [hheads, Heads.get_set_of_ne _ _ (by decide), hstrto]
      unread := by
        intro hnot
        obtain ⟨hnins, hstrto⟩ := h.unread hnot
        refine ⟨hgains.nins.trans hnins, ?_⟩
        rw [hheads, Heads.get_set_of_ne _ _ (by decide), hstrto]
      biased := by
        intro _
        rw [← hnk]
        refine ⟨hgains.nk, by rw [hheads, Heads.get_set_self], hvalue,
          { z with prev := t₁.heads.get z.op }, ?_, hop, ?_⟩
        · rw [record?_eq_ok_iff, hview]
          exact View.pushConstant_record_self ..
        · show t₁.heads.get z.op = _
          rw [hop, hknum]
      unbiased := fun hnot => absurd hq' hnot }

/-- All that a recording consists of is as before exactly if nothing is left. -/
private theorem sameRecording_iff (h : t.Leaves x p q t') (ht : t.Sound)
    (hconfig : t'.config = t.config) (hfolder : t'.folder = t.folder) :
    t'.SameRecording t ↔ ¬ p ∧ ¬ q := by
  constructor
  · -- each of the two moves one end of the trace
    intro hsame
    refine ⟨fun hp => ?_, fun hq => ?_⟩
    · have hnins := (h.read hp).1.symm.trans hsame.nins
      grind
    · have hnk := (h.biased hq).1.symm.trans hsame.nk
      grind
  · rintro ⟨hp, hq⟩
    obtain ⟨hnins, hstrto⟩ := h.unread hp
    obtain ⟨hnk, hknum⟩ := h.unbiased hq
    refine ⟨hnins, hnk, h.snapshots, fun op => ?_, fun r => ?_, hconfig, hfolder⟩
    · by_cases hop : op = .strto
      · rw [hop, hstrto]
      · by_cases hop' : op = .knum
        · rw [hop', hknum]
        · exact h.heads op hop hop'
    · by_cases hlive : t.isLive r = true
      · obtain ⟨z, hz⟩ := ht.exists_record hlive
        rw [hz]
        exact h.record r z hz
      · -- what is not live is answered by the same fault, since both ends are where they were
        have hdead : ¬ t'.isLive r = true := by
          rw [isLive_iff] at hlive ⊢
          rwa [hnins, hnk]
        rw [record?, if_neg hdead, record?, if_neg hlive, hnins, hnk]

end Leaves

/-! ### Conversions -/

/-- A conversion leaves the reading of a string if it needs one, there is room for it, and more has
to follow. -/
def LeavesReading (t : Trace) (c : Coercion) (x : TRef) : Prop :=
  (c = .toBit ∨ c = .toInt) ∧ t.NeedsReading x ∧ ¬ t.InstructionsFull

/-- A conversion to bits that is refused for want of room for an instruction leaves the bias, if
that is new, unless the string could not be read. -/
def LeavesBias (t : Trace) (c : Coercion) (x : TRef) (r : Refusal) : Prop :=
  c = .toBit ∧ r = .traceOverflow ∧ t.LacksBias ∧ ¬ (t.NeedsReading x ∧ t.InstructionsFull)

/-- After the first step the string has been read, and nothing else has changed. -/
private theorem Prepared.leaves (hprepared : Prepared t c x (.ok y t₁)) (h : t.Canonical) :
    t₁.Canonical ∧ (t₁.LacksBias ↔ t.LacksBias) ∧ t.Leaves x (t.NeedsReading x) False t₁ ∧
      ¬ (t.NeedsReading x ∧ t.InstructionsFull) := by
  cases hprepared with
  | ready hnot => exact ⟨h, .rfl, .nothing hnot id, fun hboth => hnot hboth.1⟩
  | read hneeds hroom hlaid hview =>
    have hlimit := Laid.lt_limit_of_not_full hroom
    have hcanonical : t₁.Canonical := by
      refine ⟨⟨hlaid, ?_⟩, ?_⟩
      · rw [hview]
        exact h.sound.wellFormed.push hlimit rfl
      · rw [hview]
        exact h.canonical.push h.sound.wellFormed rfl
    refine ⟨hcanonical, ?_, .of_read h.sound hview hneeds id, fun hboth => hroom hboth.2⟩
    -- the reading has no key, so the bias is missing exactly if it was before
    have hpool : t₁.pool = t.pool := congrArg View.pool hview
    rw [hcanonical.lacksBias_iff, h.lacksBias_iff, hpool, hview]
    exact View.lacks_push_iff h.sound.wellFormed rfl

/-- An instruction that is not a comparison is refused only if the trace is full. -/
private theorem refused_of_plain (hcompares : op.isComparison = false)
    (hrun : (emit op ty a b).run t = .error (.refused r) t') : t' = t ∧ r = .traceOverflow := by
  obtain ⟨htrace, hdeclined | ⟨-, hdeclined⟩⟩ := refuses_emit op ty a b hrun
  · cases hdeclined with
    | full => exact ⟨htrace, rfl⟩
    | guard hfalse => exact absurd hfalse.comparison (by simp [hcompares])
  · cases hdeclined with
    | full => exact ⟨htrace, rfl⟩
    | guard hfalse => exact absurd hfalse.comparison (by simp [hcompares])

private theorem unchanged_of_toNum (hrun : (toNum x).run t = .error (.refused r) t') : t' = t := by
  rw [toNum] at hrun
  split at hrun
  · cases hrun
  split at hrun
  · exact (refused_of_plain rfl hrun).1
  split at hrun
  · exact (refused_of_plain rfl hrun).1
  · cases hrun
    rfl

private theorem unchanged_of_toStr (hrun : (toStr x).run t = .error (.refused r) t') : t' = t := by
  rw [toStr] at hrun
  split at hrun
  · cases hrun
  split at hrun
  · exact (refused_of_plain rfl hrun).1
  · cases hrun
    rfl

/-- A first step that is refused changes nothing. -/
private theorem Sound.unchanged_of_first (h : t.Sound)
    (hrun : (numberOrString c x).run t = .error (.refused r) t') : t' = t := by
  have hprepared := h.prepared c x
  rw [hrun] at hprepared
  cases hprepared with
  | full => rfl
  | mistyped => rfl

/-- A conversion to an integer is refused in its first step, or for want of room after it. -/
private theorem refused_toInt_cases (hrun : (toInt x).run t = .error (.refused r) t') :
    (numberOrString .toInt x).run t = .error (.refused r) t' ∨
      ∃ y, (numberOrString .toInt x).run t = .ok y t' ∧ r = .traceOverflow := by
  rw [toInt] at hrun
  split at hrun
  · cases hrun
  rcases error_cases_of_run_bind hrun with hfirst | ⟨y, t₁, hfirst, hlast⟩
  · exact .inl hfirst
  · obtain ⟨rfl, hr⟩ := refused_of_plain rfl hlast
    exact .inr ⟨y, hfirst, hr⟩

/-- A conversion to bits is refused in its first step, for want of room for the bias, or for want of
room for the result. -/
private theorem refused_toBit_cases (hrun : (toBit x).run t = .error (.refused r) t') :
    (numberOrString .toBit x).run t = .error (.refused r) t' ∨
      ∃ y t₁, (numberOrString .toBit x).run t = .ok y t₁ ∧
        (knumToBit.run t₁ = .error (.refused r) t' ∧ r = .constOverflow ∨
          ∃ k, knumToBit.run t₁ = .ok k t' ∧ r = .traceOverflow) := by
  rw [toBit] at hrun
  split at hrun
  · cases hrun
  rcases error_cases_of_run_bind hrun with hfirst | ⟨y, t₁, hfirst, hrest⟩
  · exact .inl hfirst
  refine .inr ⟨y, t₁, hfirst, ?_⟩
  rcases error_cases_of_run_bind hrest with hsecond | ⟨k, t₂, hsecond, hlast⟩
  · exact .inl ⟨hsecond, (Constant.refused (k := .numToBit) hsecond).2.1⟩
  · obtain ⟨rfl, hr⟩ := refused_of_plain rfl hlast
    exact .inr ⟨k, hsecond, hr⟩

/-- **A value of the wrong type** is refused before anything is done: what comes after the first
step is refused for want of room only. -/
theorem Sound.unchanged_of_badType (h : t.Sound) {c' : Coercion}
    (hrun : (coerce c x).run t = .error (.refused (.badType c' ty)) t') : t' = t := by
  cases c with
  | toNum => exact unchanged_of_toNum hrun
  | toStr => exact unchanged_of_toStr hrun
  | toBit =>
    rcases refused_toBit_cases hrun with hfirst | ⟨y, t₁, -, ⟨-, hr⟩ | ⟨k, -, hr⟩⟩
    · exact h.unchanged_of_first hfirst
    · cases hr
    · cases hr
  | toInt =>
    rcases refused_toInt_cases hrun with hfirst | ⟨y, -, hr⟩
    · exact h.unchanged_of_first hfirst
    · cases hr

/-- A conversion to a number or to a string has one step only. -/
private theorem Leaves.of_unchanged (hc : c = .toNum ∨ c = .toStr) (hsame : t' = t) :
    t.Leaves x (t.LeavesReading c x) (t.LeavesBias c x r) t' := by
  rw [hsame]
  rcases hc with rfl | rfl
  · exact .nothing (by rintro ⟨hc | hc, -⟩ <;> cases hc) (by rintro ⟨hc, -⟩; cases hc)
  · exact .nothing (by rintro ⟨hc | hc, -⟩ <;> cases hc) (by rintro ⟨hc, -⟩; cases hc)

/-- If the first step is refused, nothing is left. -/
private theorem Prepared.leaves_of_refused (hprepared : Prepared t c x (.error (.refused r) t')) :
    t.Leaves x (t.LeavesReading c x) (t.LeavesBias c x r) t' := by
  cases hprepared with
  | full hneeds hfull =>
    exact .nothing (fun hleaves => hleaves.2.2 hfull) fun hleaves => hleaves.2.2.2 ⟨hneeds, hfull⟩
  | mistyped hstr =>
    refine .nothing (fun hleaves => ?_) fun hleaves => ?_
    · have hyes := hleaves.2.1.1
      rw [hstr] at hyes
      cases hyes
    · cases hleaves.2.1

private theorem Canonical.leaves_toInt (h : t.Canonical)
    (hrun : (toInt x).run t = .error (.refused r) t') :
    t.Leaves x (t.LeavesReading .toInt x) (t.LeavesBias .toInt x r) t' := by
  have hprepared := h.sound.prepared .toInt x
  rcases refused_toInt_cases hrun with hfirst | ⟨y, hfirst, -⟩
  · rw [hfirst] at hprepared
    exact hprepared.leaves_of_refused
  · rw [hfirst] at hprepared
    -- the conversion itself is refused, after the reading
    obtain ⟨-, -, hleaves, hroom⟩ := hprepared.leaves h
    refine hleaves.congr ?_ (iff_of_false id (by rintro ⟨hc, -⟩; cases hc))
    exact ⟨fun hneeds => ⟨.inr rfl, hneeds, fun hfull => hroom ⟨hneeds, hfull⟩⟩, fun hr => hr.2.1⟩

private theorem Canonical.leaves_toBit (h : t.Canonical)
    (hrun : (toBit x).run t = .error (.refused r) t') :
    t.Leaves x (t.LeavesReading .toBit x) (t.LeavesBias .toBit x r) t' := by
  have hprepared := h.sound.prepared .toBit x
  rcases refused_toBit_cases hrun with hfirst | ⟨y, t₁, hfirst, hlater⟩
  · rw [hfirst] at hprepared
    exact hprepared.leaves_of_refused
  rw [hfirst] at hprepared
  obtain ⟨h₁, hlacks, hleaves, hroom⟩ := hprepared.leaves h
  -- the first step is done, so a string that had to be read has been read
  have hreading : t.NeedsReading x ↔ t.LeavesReading .toBit x :=
    ⟨fun hneeds => ⟨.inl rfl, hneeds, fun hfull => hroom ⟨hneeds, hfull⟩⟩, fun hr => hr.2.1⟩
  rcases hlater with ⟨hsecond, rfl⟩ | ⟨k, hsecond, rfl⟩
  · -- no room for the bias
    obtain ⟨rfl, -⟩ := Constant.refused (k := .numToBit) hsecond
    refine (hleaves.with_pool id _).congr hreading (iff_of_false id ?_)
    rintro ⟨-, hr, -⟩
    cases hr
  · -- no room for the result
    rcases h₁.run_knumToBit hsecond with ⟨hnot, rfl⟩ | ⟨hnew, z, hop, hgains, hvalue, hview⟩
    · refine hleaves.congr hreading (iff_of_false id ?_)
      rintro ⟨-, -, hyes, -⟩
      exact hnot (hlacks.mpr hyes)
    · refine (hleaves.congr hreading .rfl).add_bias id hop hgains hvalue hview ?_
      exact ⟨rfl, rfl, hlacks.mp hnew, hroom⟩

/-- **Refused conversions.** Everything that was recorded before is there after a conversion that is
refused: the records, the snapshots, and the newest record of every opcode but two. The trace has
grown by the reading of the string exactly if a conversion to bits or to an integer needed one and
there was room for it, and by the bias exactly if a conversion to bits was refused for want of room
for an instruction, the bias was new, and the string, if there was one to read, could be read. So
the recording is as before exactly if neither is the case. Nothing at all changes if the conversion
is one to a number or to a string, or if it is refused because of the type. -/
theorem Reachable.refused_coercion_leaves (h : Reachable t)
    (hrun : (coerce c x).run t = .error (.refused r) t') :
    t.Leaves x (t.LeavesReading c x) (t.LeavesBias c x r) t' ∧
      (t'.SameRecording t ↔ ¬ t.LeavesReading c x ∧ ¬ t.LeavesBias c x r) ∧
      (c = .toNum ∨ c = .toStr ∨ (∃ c' ty, r = .badType c' ty) → t' = t) := by
  have hleaves : t.Leaves x (t.LeavesReading c x) (t.LeavesBias c x r) t' := by
    cases c with
    | toNum => exact .of_unchanged (.inl rfl) (unchanged_of_toNum hrun)
    | toStr => exact .of_unchanged (.inr rfl) (unchanged_of_toStr hrun)
    | toBit => exact h.canonical.leaves_toBit hrun
    | toInt => exact h.canonical.leaves_toInt hrun
  -- the settings and the folder are no matter of the steps: no growth of a trace touches them
  have hgrows := (grows_coerce t c x h.sound.laid).2
  rw [after_of_error hrun] at hgrows
  have hextends := (View.Extends.refl t.view).growths h.sound.wellFormed hgrows
  refine ⟨hleaves, hleaves.sameRecording_iff h.sound hextends.config hextends.folder, ?_⟩
  rintro (rfl | rfl | ⟨c', ty, rfl⟩)
  · exact unchanged_of_toNum hrun
  · exact unchanged_of_toStr hrun
  · exact h.sound.unchanged_of_badType hrun

/-- With room for one more instruction, the conversion of a string to bits reads the string, interns
the bias, and is refused then. -/
theorem refused_coercion_leaves_both :
    ∃ t t' x, Reachable t ∧ t.isLive x.ref = true ∧
      (coerce .toBit x).run t = .error (.refused .traceOverflow) t' ∧
      (t'.nins = t.nins + 1 ∧ t'.record? t.nins = .ok (readingOf x)) ∧
      (t'.nk = t.nk - 1 ∧ t'.value (t.nk - 1) = .ok (.num bitBias)) ∧ ¬ t'.SameRecording t := by
  obtain ⟨t₀, ht₀⟩ : ∃ t, start { maxInstructions := 3 } {} = .ok t := ⟨_, rfl⟩
  have hreachable := (Reachable.start ht₀).step (.emitRaw ⟨.sload, rfl⟩ Ty.str.guarded 1 0)
  generalize ht : t₀.step (.emitRaw ⟨.sload, rfl⟩ Ty.str.guarded 1 0) = t at hreachable
  obtain ⟨t', hlive, hfolder, hroom, hfirst, hrun⟩ : ∃ t',
      t.isLive (TRef.of Ref.first Ty.str).ref = true ∧ t.folder = none ∧
      ¬ t.InstructionsFull ∧ t.heads.get .strto = Ref.none ∧
      (coerce .toBit (.of Ref.first Ty.str)).run t = .error (.refused .traceOverflow) t' := by
    subst ht
    cases ht₀
    exact ⟨_, rfl, rfl, by decide, rfl, rfl⟩
  have hneeds : t.NeedsReading (.of Ref.first Ty.str) := by
    refine ⟨by decide, ?_⟩
    rintro ⟨⟨f, hf, -⟩, -⟩
    rw [hfolder] at hf
    cases hf
  -- there are no constants yet, and a load is none
  have hlacks : t.LacksBias := by
    have hsound := (Reachable.start ht₀).sound
    have hroom₀ : ¬ t₀.InstructionsFull := by
      cases ht₀
      decide
    obtain ⟨t₁, hload, -, hview⟩ := hsound.laid.run_emitRaw hroom₀ .sload Ty.str.guarded 1 0
    rw [step, after_of_ok hload] at ht
    subst ht
    rw [hreachable.canonical.lacksBias_iff, hview, View.lacks_push_iff hsound.wellFormed rfl,
      lacks_iff]
    exact fun r => not_hasKey_of_start ht₀ r _
  obtain ⟨hleaves, hsame, -⟩ := hreachable.refused_coercion_leaves hrun
  obtain ⟨hnins, -, hrecord⟩ := hleaves.read ⟨.inl rfl, hneeds, hroom⟩
  have hbias : t.LeavesBias .toBit (.of Ref.first Ty.str) .traceOverflow :=
    ⟨rfl, rfl, hlacks, fun hboth => hroom hboth.2⟩
  obtain ⟨hnk, -, hvalue, -⟩ := hleaves.biased hbias
  rw [hfirst] at hrecord
  exact ⟨t, t', _, hreachable, hlive, hrun, ⟨hnins, hrecord⟩, ⟨hnk, hvalue⟩,
    fun hyes => (hsame.mp hyes).2 hbias⟩

/-- With room for one constant, which is taken, the conversion of a string to bits is refused after
the string has been read. -/
theorem refused_coercion_not_undone :
    ∃ t t' x, Reachable t ∧ t.isLive x.ref = true ∧
      (coerce .toBit x).run t = .error (.refused .constOverflow) t' ∧ t'.nins ≠ t.nins := by
  obtain ⟨t₀, ht₀⟩ : ∃ t, start { maxConstants := 1 } {} = .ok t := ⟨_, rfl⟩
  have hreachable := ((Reachable.start ht₀).step (.intern (.int 7))).step
    (.emitRaw ⟨.sload, rfl⟩ Ty.str.guarded 1 0)
  generalize ht : (t₀.step (.intern (.int 7))).step _ = t at hreachable
  obtain ⟨t', hlive, hrun, hnins⟩ : ∃ t', t.isLive (TRef.of Ref.first Ty.str).ref = true ∧
      (coerce .toBit (.of Ref.first Ty.str)).run t = .error (.refused .constOverflow) t' ∧
      t'.nins ≠ t.nins := by
    subst ht
    cases ht₀
    exact ⟨_, rfl, rfl, by decide⟩
  exact ⟨t, t', _, hreachable, hlive, hrun, hnins⟩

end Trace

end TraceIR
