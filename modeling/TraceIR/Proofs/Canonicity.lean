import TraceIR.Proofs.Capacity

/-!
# One constant for each key

`View.Canonical` says of one moment that no two constants have the same key. This file adds what
that means for requests, and what happens to a constant afterwards.

* `Trace.OnePerKey` — the constants of a trace and their keys, in terms of what the trace answers.
  Numbers from the pool are told apart by their bits, and from the two masks in any case.
* `Canonical.hasKey_step` and `value?_step` — one step leaves a constant its key, or removes it, and
  the pool keeps what it holds. `Canonical.kept` follows by induction along the steps.
* `Reachable.interning_canonical` — a request finds the constant with its key if there is one, and
  otherwise adds exactly one if there is room; the constant keeps its key and its value for as long
  as it lives.
-/

namespace TraceIR.Trace

variable {t t' : Trace} {c : Constant} {k : Key} {r : Ref} {v : Value}

/-! ### Constants and their keys -/

/-- A constant with a key is an interned one. -/
private theorem Canonical.interned_of_hasKey (h : t.Canonical) (hr : t.HasKey r k) :
    r.isConst = true ∧ ¬ r.IsFixed := by
  obtain ⟨x, hx, hk⟩ := hr
  rw [record?_eq_ok_iff] at hx
  constructor
  · rw [← h.sound.wellFormed.kind hx, Record.op_of_key? hk, k.isConst_op]
  · intro hfixed
    rw [h.canonical.fixed hfixed hx] at hk
    cases hk

/-- The value of a constant is the value of its key. -/
theorem Canonical.value_of_hasKey (h : t.Canonical) (hr : t.HasKey r k)
    (hv : k.value? t.pool = some v) : t.value r = .ok v := by
  have hconst := (h.interned_of_hasKey hr).1
  obtain ⟨x, hx, hk⟩ := hr
  have hfor := (h.heldIn (record?_eq_ok_iff.mp hx) hk).1
  rw [value, if_pos hconst, hx]
  exact hfor.value hv

/-- The reference of a constant fits into the answer to a request. -/
private theorem Canonical.ref_of_hasKey (h : t.Canonical) (hr : t.HasKey r k) (ty : Ty) :
    (TRef.of r ty).ref = r := by
  obtain ⟨x, hx, -⟩ := hr
  have hlive := ((t.isLive_iff r).mp (isLive_of_record? hx)).2
  exact TRef.ref_of (UInt32.le_trans (UInt32.le_of_lt hlive) h.sound.laid.nins_le) ty

/-- Every interned constant has a key, and no two have the same one. Two numbers from the pool
differ in their bits, and none of them is a mask. -/
structure OnePerKey (t : Trace) : Prop where
  keyed : ∀ r, t.isLive r = true → r.isConst = true → ¬ r.IsFixed → ∃ k, t.HasKey r k
  unique : ∀ r q k, t.HasKey r k → t.HasKey q k → r = q
  numbers : ∀ r q i j, t.HasKey r (.num (.pooled i)) → t.HasKey q (.num (.pooled j)) → r ≠ q →
    ∃ x y, t.value r = .ok (.num x) ∧ t.value q = .ok (.num y) ∧ x ≠ y
  masks : ∀ r q i s, t.HasKey r (.num (.pooled i)) → t.HasKey q (.num s) →
    s = .absMask ∨ s = .negMask → r ≠ q

private theorem HasKey.key_eq {k' : Key} (h : t.HasKey r k) (h' : t.HasKey r k') : k = k' := by
  obtain ⟨x, hx, hk⟩ := h
  obtain ⟨y, hy, hk'⟩ := h'
  obtain rfl := Except.ok.inj (hx.symm.trans hy)
  exact Option.some.inj (hk.symm.trans hk')

/-- A number from the pool lies in its slot. -/
theorem Canonical.exists_holds (h : t.Canonical) {i : Nat} (hr : t.HasKey r (.num (.pooled i))) :
    ∃ x, t.pool.Holds x i ∧ t.value r = .ok (.num x) := by
  obtain ⟨x, hx, hk⟩ := hr
  obtain ⟨n, hn⟩ := (h.heldIn (record?_eq_ok_iff.mp hx) hk).2
  refine ⟨n, hn, h.value_of_hasKey ⟨x, hx, hk⟩ ?_⟩
  rw [Key.value?, NumSlot.value?, hn.get?]
  rfl

theorem Canonical.onePerKey (h : t.Canonical) : t.OnePerKey where
  keyed := by
    intro r hlive hconst hfixed
    obtain ⟨x, hx⟩ := h.sound.exists_record hlive
    obtain ⟨k, hk, -⟩ := h.canonical.interned hconst hfixed (record?_eq_ok_iff.mp hx)
    exact ⟨k, x, hx, hk.key⟩
  unique := by
    rintro r q k ⟨x, hx, hk⟩ ⟨y, hy, hk'⟩
    exact h.canonical.unique (record?_eq_ok_iff.mp hx) (record?_eq_ok_iff.mp hy) hk hk'
  numbers := by
    intro r q i j hr hq hne
    obtain ⟨x, hx, hvalue⟩ := h.exists_holds hr
    obtain ⟨y, hy, hvalue'⟩ := h.exists_holds hq
    refine ⟨x, y, hvalue, hvalue', ?_⟩
    -- one number has one slot, and one slot one constant
    rintro rfl
    obtain rfl := hx.slot_eq hy
    obtain ⟨z, hz, hk⟩ := hr
    obtain ⟨z', hz', hk'⟩ := hq
    exact hne (h.canonical.unique (record?_eq_ok_iff.mp hz) (record?_eq_ok_iff.mp hz') hk hk')
  masks := by
    rintro r q i s hr hq hs rfl
    have hkey := hr.key_eq hq
    rcases hs with rfl | rfl
    · cases hkey
    · cases hkey

/-! ### Constants that stay -/

/-- One step leaves a constant its key, unless it removes the constant. -/
theorem Canonical.hasKey_step (h : t.Canonical) (hr : t.HasKey r k) {s : Step}
    (hlive : (t.step s).isLive r = true) : (t.step s).HasKey r k := by
  obtain ⟨hconst, hfixed⟩ := h.interned_of_hasKey hr
  obtain ⟨x, hx, hk⟩ := hr
  rcases step_cases t s with hgrows | ⟨cp, rfl⟩ | rfl | ⟨f, rfl⟩
  · -- what is there stays
    obtain ⟨-, hgrowths⟩ := hgrows h.sound.laid
    have hextends := (View.Extends.refl t.view).growths h.sound.wellFormed hgrowths
    exact ⟨x, record?_eq_ok_iff.mpr (hextends.record (record?_eq_ok_iff.mp hx)), hk⟩
  · rcases h.sound.laid.step_rollback cp with hsame | ⟨hcp, -, hview⟩
    · rw [hsame]
      exact ⟨x, hx, hk⟩
    · -- what is left is as it was
      have hcut := h.sound.wellFormed.cut_rollback hcp
      rw [← hview] at hcut
      have hrange : cp.const ≤ r ∧ r < cp.ins := by
        rw [← hcut.nk, ← hcut.nins]
        exact (isLive_iff _ r).mp hlive
      refine ⟨x, record?_eq_ok_iff.mpr ?_, hk⟩
      rw [hcut.record r hrange.1 hrange.2]
      exact record?_eq_ok_iff.mp hx
  · -- a trace that begins again has only its fixed constants
    obtain ⟨t', hrun, -, hview⟩ := h.sound.laid.run_setup
    rw [step, after_of_ok hrun] at hlive
    have hnk : t'.nk = Ref.true := congrArg View.nk hview
    have hge : Ref.true ≤ r := hnk ▸ ((t'.isLive_iff r).mp hlive).1
    have hlt : r < Ref.bias := of_decide_eq_true hconst
    exact absurd (Ref.isFixed_iff.mpr ⟨hge, hlt⟩) hfixed
  · exact ⟨x, hx, hk⟩

/-- No step takes a number from the pool. -/
private theorem Sound.get?_step (h : t.Sound) (s : Step) {i : Nat} {x : Binary64}
    (hx : t.pool.get? i = some x) : (t.step s).pool.get? i = some x := by
  rcases step_cases t s with hgrows | ⟨cp, rfl⟩ | rfl | ⟨f, rfl⟩
  · exact get?_of_growths (hgrows h.laid).2 hx
  · rcases h.laid.step_rollback cp with hsame | ⟨hcp, -, hview⟩
    · rw [hsame]
      exact hx
    · have hcut := h.wellFormed.cut_rollback hcp
      rw [← hview] at hcut
      have hpool : (t.step (.rollback cp)).pool = t.pool := hcut.pool
      rw [hpool]
      exact hx
  · obtain ⟨t', hrun, -, hview⟩ := h.laid.run_setup
    have hpool : t'.pool = t.pool := congrArg View.pool hview
    rw [Trace.step, after_of_ok hrun, hpool]
    exact hx
  · exact hx

/-- The reference is live after every one of the steps. -/
def StaysLive (t : Trace) (l : List Step) (r : Ref) : Prop :=
  ∀ l', l' <+: l → (t.steps l').isLive r = true

/-- **A constant stays what it is** for as long as it lives. -/
theorem Canonical.kept (l : List Step) :
    ∀ {t : Trace}, t.Canonical → t.HasKey r k → t.StaysLive l r →
      (t.steps l).HasKey r k ∧
        ∀ v, k.value? t.pool = some v → (t.steps l).value r = .ok v := by
  induction l with
  | nil =>
    intro t h hr _
    exact ⟨hr, fun v hv => h.value_of_hasKey hr hv⟩
  | cons s l ih =>
    intro t h hr hlive
    have hstep : (t.step s).HasKey r k :=
      h.hasKey_step hr (hlive [s] (List.prefix_cons_inj s |>.mpr List.nil_prefix))
    have hlive' : (t.step s).StaysLive l r := fun l' hl' =>
      hlive (s :: l') ((List.prefix_cons_inj s).mpr hl')
    obtain ⟨hkey, hvalue⟩ := ih (stepInvariant_canonical.step h s) hstep hlive'
    refine ⟨hkey, fun v hv => hvalue v ?_⟩
    exact Key.value?_mono (fun i x hx => h.sound.get?_step s hx) hv

/-- A request that is answered leaves the constant with its key at the answer. -/
theorem Canonical.hasKey_of_intern (h : t.Canonical) (hk : c.key? t.pool = some k) {y : TRef}
    (hrun : c.intern.run t = .ok y t') :
    t'.Canonical ∧ t'.HasKey y.ref k ∧ k.value? t'.pool = c.value? := by
  have hcanonical := h.constant c
  rw [after_of_ok hrun] at hcanonical
  have hvalue := (Constant.heldIn_poolAfter hk).2
  have hinterned := h.interned hk
  rw [hrun] at hinterned
  cases hinterned with
  | @found r x hx hkey =>
    have hpool := Constant.poolAfter_of_heldIn hk (h.heldIn hx hkey).2
    have hr : t.HasKey r k := ⟨x, record?_eq_ok_iff.mpr hx, hkey⟩
    rw [hcanonical.ref_of_hasKey hr]
    exact ⟨hcanonical, hr, hpool ▸ hvalue⟩
  | added hnew hroom hbuffer hx hadd hlaid hview =>
    have hpool : t'.pool = c.poolAfter t.pool := congrArg View.pool hview
    have hr := (h.gains hx hview).hasKey
    rw [hcanonical.ref_of_hasKey hr, hpool]
    exact ⟨hcanonical, hr, hvalue⟩

/-! ### Requests -/

/-- A request for a key that is there finds it and changes nothing. -/
theorem Canonical.run_intern_of_hasKey (h : t.Canonical) (hk : c.key? t.pool = some k)
    (hr : t.HasKey r k) : c.intern.run t = .ok (.of r c.ty) t := by
  have hinterned := h.interned hk
  generalize c.intern.run t = z at hinterned ⊢
  cases hinterned with
  | @found q x hx hkey =>
    rw [h.onePerKey.unique r q k hr ⟨x, record?_eq_ok_iff.mpr hx, hkey⟩]
  | full hnew _ => exact absurd hr (lacks_iff.mp hnew r)
  | stuck hnew _ _ => exact absurd hr (lacks_iff.mp hnew r)
  | added hnew _ _ _ _ _ _ => exact absurd hr (lacks_iff.mp hnew r)

/-- A request for a new key is refused once the limit is reached. -/
theorem Canonical.run_intern_of_full (h : t.Canonical) (hk : c.key? t.pool = some k)
    (hnew : ∀ r, ¬ t.HasKey r k) (hfull : t.ConstantsFull) :
    c.intern.run t =
      .error (.refused .constOverflow) { t with pool := c.poolAfter t.pool } := by
  have hinterned := h.interned hk
  generalize c.intern.run t = z at hinterned ⊢
  cases hinterned with
  | @found q x hx hkey => exact absurd ⟨x, record?_eq_ok_iff.mpr hx, hkey⟩ (hnew q)
  | full _ _ => rfl
  | stuck _ hroom _ => exact absurd hfull hroom
  | added _ hroom _ _ _ _ _ => exact absurd hfull hroom

/-- **Interning is canonical and faithful.** Whatever a recording has done, no two constants have
the same key. A request that makes no sense changes nothing. A request for a key that is there finds
it and changes nothing; one for a new key is refused at the limit, and below the limit it adds
exactly that constant if and only if there is room, which there always is under moderate options.
From then on, for as long as the constant lives, it keeps its key and its value. -/
theorem Reachable.interning_canonical (h : Reachable t) :
    t.OnePerKey ∧
      ∀ c : Constant,
        (c.key? t.pool = none → ∃ b, c.intern.run t = .error (.broken b) t) ∧
        ∀ k, c.key? t.pool = some k →
          (∀ r, t.HasKey r k → c.intern.run t = .ok (.of r c.ty) t) ∧
          ((∀ r, ¬ t.HasKey r k) → t.ConstantsFull →
            c.intern.run t =
              .error (.refused .constOverflow) { t with pool := c.poolAfter t.pool }) ∧
          ((∀ r, ¬ t.HasKey r k) → ¬ t.ConstantsFull →
            ((∃ t', c.intern.run t = .ok (.of (t.nk - 1) c.ty) t' ∧ t.Gains k t') ↔
              t.HasRoomBelow) ∧ (t.config.Moderate → t.HasRoomBelow)) ∧
          ∀ y t', c.intern.run t = .ok y t' → ∀ l, t'.StaysLive l y.ref →
            (t'.steps l).HasKey y.ref k ∧
              ∀ v, c.value? = some v → (t'.steps l).value y.ref = .ok v := by
  have hcanonical := h.canonical
  refine ⟨hcanonical.onePerKey, fun c => ⟨Constant.run_intern_of_no_key, fun k hk => ?_⟩⟩
  refine ⟨fun r hr => hcanonical.run_intern_of_hasKey hk hr, hcanonical.run_intern_of_full hk,
    fun hnew hroom => ⟨hcanonical.gains_iff hk hnew hroom, fun hmoderate => ?_⟩,
    fun y t' hrun l hlive => ?_⟩
  · exact h.settled.hasRoomBelow_of_moderate hmoderate hroom
  · obtain ⟨hcanonical', hr, hvalue⟩ := hcanonical.hasKey_of_intern hk hrun
    obtain ⟨hkey, hkept⟩ := Canonical.kept l hcanonical' hr hlive
    exact ⟨hkey, fun v hv => hkept v (hvalue.trans hv)⟩

/-- A mask, a number with the bits of the mask, and an integer that is gone again. -/
def equalBits : List Step :=
  [.intern .numAbs, .intern (.num ⟨0x7fffffffffffffff⟩), .intern (.int 5),
    .rollback ⟨Ref.first, Ref.true - 2, 0⟩]

theorem interning_canonical_of_equalBits :
    ∃ t, start {} {} = .ok t ∧ (t.steps equalBits).OnePerKey ∧
      Constant.numAbs.intern.run (t.steps equalBits) =
        .ok (.of (Ref.true - 1) Ty.num) (t.steps equalBits) ∧
      (Constant.num ⟨0x7fffffffffffffff⟩).intern.run (t.steps equalBits) =
        .ok (.of (Ref.true - 2) Ty.num) (t.steps equalBits) := by
  obtain ⟨t, ht, hmask, hnumber, hslot⟩ : ∃ t, start {} {} = .ok t ∧
      (t.steps equalBits).HasKey (Ref.true - 1) (.num .absMask) ∧
      (t.steps equalBits).HasKey (Ref.true - 2) (.num (.pooled 0)) ∧
      (Constant.num ⟨0x7fffffffffffffff⟩).key? (t.steps equalBits).pool =
        some (.num (.pooled 0)) :=
    ⟨_, rfl, ⟨_, by rfl, by rfl⟩, ⟨_, by rfl, by rfl⟩, by rfl⟩
  obtain ⟨hone, hruns⟩ := Reachable.interning_canonical ((Reachable.start ht).steps equalBits)
  exact ⟨t, ht, hone, ((hruns .numAbs).2 _ rfl).1 _ hmask,
    ((hruns (.num _)).2 _ hslot).1 _ hnumber⟩

/-- Below the limit, but with a first array that reaches around, a pointer that is not there is not
added either. -/
theorem pointer_not_interned_oversized_buffer :
    ∃ t, start { minSize := 131076 } {} = .ok t ∧ ¬ t.ConstantsFull ∧
      (∀ r, ¬ t.HasKey r (.pointer 0x40)) ∧
      (Constant.pointer 0x40).intern.run t =
        .error (.broken (.misplacedBottom 131076 Ref.true 0xffffffff)) t := by
  obtain ⟨t, ht, hroom, hstuck⟩ := exists_oversized
  have hnew := fun r => not_hasKey_of_start ht r (.pointer 0x40)
  have hcanonical := (Reachable.start ht).canonical
  exact ⟨t, ht, hroom, hnew,
    hcanonical.run_intern_of_stuck (c := .pointer 0x40) rfl hnew hroom hstuck⟩

end TraceIR.Trace
