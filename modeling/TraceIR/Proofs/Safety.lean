import TraceIR.Proofs.CleanGrowth
import TraceIR.Proofs.Room

/-!
# Recording breaks no rule

A recording that is given live references can be refused, but it never breaks a rule of the trace,
and what it answers is live again.

* `EndsIn` — a step ends as it should, or stops for a reason that is allowed. It composes
  (`EndsIn.bind`). For actions the reason is a refusal (`Trace.Meets`).
* `Trace.Healthy` — what recording with live references relies on: a sound and tidy trace with room
  for constants.
* `Trace.Yields` — what recording with live references achieves. One law for each operation ends in
  `Healthy.emit`, `Healthy.constant` and `Healthy.coerce`.
* `Healthy.rollback`, `Healthy.setup` and `Healthy.of_start` — the steps that do not grow a trace.
-/

namespace TraceIR

/-! ### Steps that end as they should -/

/-- The step stops for a reason that is allowed, or it ends as `Q` says. -/
def EndsIn {ε σ α : Type} (allowed : ε → Prop) (s : σ) (a : EStateM ε σ α) (Q : α → σ → Prop) :
    Prop :=
  match a.run s with
  | .ok x s' => Q x s'
  | .error e _ => allowed e

namespace EndsIn

variable {ε σ α β : Type} {allowed : ε → Prop} {s s' : σ} {a : EStateM ε σ α} {x : α} {e : ε}
  {Q R : α → σ → Prop} {f : α → EStateM ε σ β} {S : β → σ → Prop}

theorem of_ok (hrun : a.run s = .ok x s') (hq : Q x s') : EndsIn allowed s a Q := by
  rw [EndsIn, hrun]
  exact hq

theorem of_error (hrun : a.run s = .error e s') (he : allowed e) : EndsIn allowed s a Q := by
  rw [EndsIn, hrun]
  exact he

theorem post (h : EndsIn allowed s a Q) (hrun : a.run s = .ok x s') : Q x s' := by
  rw [EndsIn, hrun] at h
  exact h

theorem allowed_of_error (h : EndsIn allowed s a Q) (hrun : a.run s = .error e s') :
    allowed e := by
  rw [EndsIn, hrun] at h
  exact h

/-- What follows from how the step ends may use that it does. -/
theorem mono (h : EndsIn allowed s a Q) (hqr : ∀ x s', a.run s = .ok x s' → Q x s' → R x s') :
    EndsIn allowed s a R := by
  cases hrun : a.run s with
  | ok x s' => exact .of_ok hrun (hqr x s' hrun (h.post hrun))
  | error e s' => exact .of_error hrun (h.allowed_of_error hrun)

/-- A first step whose end is known. -/
theorem of_bind (ha : a.run s = .ok x s') (h : EndsIn allowed s' (f x) S) :
    EndsIn allowed s (a >>= f) S := by
  rw [EndsIn, Trace.run_bind_of_ok ha]
  exact h

/-- Two steps in a row. -/
theorem bind (ha : EndsIn allowed s a Q) (hf : ∀ x s', Q x s' → EndsIn allowed s' (f x) S) :
    EndsIn allowed s (a >>= f) S := by
  cases hrun : a.run s with
  | ok x s' => exact .of_bind hrun (hf x s' (ha.post hrun))
  | error e s' => exact .of_error (Trace.run_bind_of_error hrun f) (ha.allowed_of_error hrun)

end EndsIn

namespace Trace

/-- The fault is a refusal. -/
def IsRefusal (e : Fault) : Prop :=
  ∃ r, e = .refused r

/-- The action is refused, or it ends as `Q` says. -/
abbrev Meets {α : Type} (t : Trace) (a : Action α) (Q : α → Trace → Prop) : Prop :=
  EndsIn IsRefusal t a Q

namespace Meets

variable {α : Type} {t t' : Trace} {a : Action α} {Q : α → Trace → Prop}

private theorem of_refused {r : Refusal} (hrun : a.run t = .error (.refused r) t') : t.Meets a Q :=
  .of_error hrun ⟨r, rfl⟩

end Meets

/-! ### Healthy traces -/

/-- A sound trace with room for constants whose records can be relied on. -/
structure Healthy (t : Trace) : Prop where
  sound : t.Sound
  roomy : t.Roomy
  tidy : t.view.Tidy

/-- From `t` recording came to the healthy trace `t'` by clean changes, and `y` is live there. -/
structure Yields (t : Trace) (y : TRef) (t' : Trace) : Prop where
  healthy : t'.Healthy
  growths : View.CleanGrowths t.view t'.view
  live : t'.view.IsLive y.ref

variable {t t' : Trace} {y : TRef}

private theorem Healthy.yields (h : t.Healthy) (hy : t.view.IsLive y.ref) : t.Yields y t :=
  ⟨h, .refl, hy⟩

/-- Clean changes keep a trace healthy as long as there is room for constants. -/
private theorem Healthy.growths (h : t.Healthy) (hlaid : t'.Laid) (hroomy : t'.Roomy)
    (hg : View.CleanGrowths t.view t'.view) : t'.Healthy :=
  ⟨⟨hlaid, h.sound.wellFormed.growths hg.growths⟩, hroomy,
    h.tidy.cleanGrowths h.sound.wellFormed hg⟩

private theorem Yields.trans {t'' : Trace} {z : TRef} (h : t.Yields y t') (h' : t'.Yields z t'') :
    t.Yields z t'' :=
  ⟨h'.healthy, h.growths.trans h'.growths, h'.live⟩

/-- What was live before still is. -/
theorem Yields.keeps (h : t.Yields y t') (ht : t.Healthy) {r : Ref} (hr : t.view.IsLive r) :
    t'.view.IsLive r :=
  hr.growths ht.sound.wellFormed h.growths

theorem Healthy.ref_of (h : t.Healthy) {r : Ref} (hr : t.view.IsLive r) (ty : Ty) :
    (TRef.of r ty).ref = r :=
  TRef.ref_of (UInt32.le_of_lt (UInt32.lt_of_lt_of_le hr.2 h.sound.laid.nins_le)) ty

private theorem Healthy.yields_of (h : t.Healthy) {r : Ref} (hr : t.view.IsLive r) (ty : Ty) :
    t.Yields (.of r ty) t :=
  h.yields (by rw [h.ref_of hr]; exact hr)

/-- Continue with a live reference. -/
theorem Meets.andThen {f : TRef → Action TRef} {a : Action TRef} (ha : t.Meets a t.Yields)
    (hf : ∀ y t', t.Yields y t' → t'.Meets (f y) t'.Yields) : t.Meets (a >>= f) t.Yields :=
  ha.bind fun y t' hy => (hf y t' hy).mono fun _ _ _ hz => hy.trans hz

/-! ### Instructions -/

end Trace

/-- The operands that are references are live. -/
structure View.Feeds (v : View) (op : Opcode) (a b : Ref) : Prop where
  left : op.shape.left = .ref → v.IsLive a
  right : op.shape.right = .ref → v.IsLive b

namespace View.Feeds

variable {v : View} {op : Opcode} {a b : Ref}

private theorem isLive (h : v.Feeds op a b) {ty : Ty} {r : Ref}
    (hr : Record.RefersTo { op, ty, left := a, right := b } r) : v.IsLive r := by
  rcases hr with ⟨hkind, rfl⟩ | ⟨hkind, rfl⟩
  · exact h.left hkind
  · exact h.right hkind

/-- An instruction with one operand. -/
theorem of_left (ha : v.IsLive a) (hop : op.shape.right ≠ .ref) : v.Feeds op a b :=
  ⟨fun _ => ha, fun hright => absurd hright hop⟩

end View.Feeds

/-- Comparisons and operations that commute have two references. -/
theorem Opcode.shape_of_commutative {op : Opcode} (h : op.shape.commutative = true) :
    op.shape.left = .ref ∧ op.shape.right = .ref := by
  revert h
  cases op <;> decide

private theorem Opcode.shape_of_comparison {op : Opcode} (h : op.isComparison = true) :
    op.shape.left = .ref ∧ op.shape.right = .ref := by
  revert h
  cases op <;> decide

private theorem View.Feeds.swap {v : View} {op : Opcode} {a b : Ref} (h : v.Feeds op a b)
    (hop : op.shape.commutative = true) : v.Feeds op b a := by
  obtain ⟨hleft, hright⟩ := Opcode.shape_of_commutative hop
  exact ⟨fun _ => h.right hright, fun _ => h.left hleft⟩

namespace Trace

variable {t t' : Trace} {y : TRef} {op : Opcode} {a b : Ref}

private theorem Healthy.emitRaw (h : t.Healthy) (hop : op.isConst = false) (ty : Ty)
    (hfeeds : t.view.Feeds op a b) : t.Meets (emitRaw op ty a b) t.Yields := by
  by_cases hfull : t.InstructionsFull
  · exact .of_refused (by rw [run_emitRaw, if_pos hfull])
  · obtain ⟨t', hrun, hlaid, hview⟩ := h.sound.laid.run_emitRaw hfull op ty a b
    have hlimit := Laid.lt_limit_of_not_full hfull
    have hg : View.CleanGrowths t.view t'.view := by
      rw [hview]
      exact .single (.push _ hop hlimit fun _ hr => hfeeds.isLive hr)
    have hhealthy := h.growths hlaid (h.roomy.emitRaw h.sound.laid hrun) hg
    have hlive : t'.view.IsLive t.nins := by
      rw [hview]
      exact h.sound.wellFormed.isLive_push hlimit _
    refine .of_ok hrun ⟨hhealthy, hg, ?_⟩
    rw [hhealthy.ref_of hlive]
    exact hlive

/-- An instruction that is shared is there. -/
private theorem Healthy.emitShared (h : t.Healthy) (hop : op.isConst = false) (ty : Ty)
    (hfeeds : t.view.Feeds op a b) : t.Meets (emitShared op ty a b) t.Yields := by
  obtain ⟨refs, hchain⟩ := h.sound.wellFormed.chains op
  rw [Trace.emitShared]
  refine .of_bind (by rw [run_ask, h.sound.laid.search_eq hchain]) ?_
  generalize hfound : refs.findSome? _ = found
  cases hjoin : found.join with
  | none => exact h.emitRaw hop ty hfeeds
  | some r =>
    obtain rfl := Option.join_eq_some_iff.mp hjoin
    obtain ⟨q, -, hprobe⟩ := List.exists_of_findSome?_eq_some hfound
    obtain ⟨x, hx, hprobe⟩ := Option.bind_eq_some_iff.mp hprobe
    -- the walk along the chain stopped at the instruction that it answers with
    obtain rfl : q = r := by
      split at hprobe
      · cases hprobe
      · split at hprobe
        · exact Option.some.inj (Option.some.inj hprobe)
        · cases hprobe
    exact .of_ok rfl (h.yields_of (h.sound.wellFormed.isLive_iff.mpr ⟨x, hx⟩) ty)

private theorem Healthy.place (h : t.Healthy) (f : Folder) (hop : op.isConst = false) (ty : Ty)
    (hfeeds : t.view.Feeds op a b) : t.Meets (place f op ty a b) t.Yields := by
  rw [Trace.place]
  split
  · exact h.emitShared hop ty hfeeds
  · exact h.emitRaw hop ty hfeeds

/-- A constant that is there has a value, unless there is none for its kind. -/
private theorem Healthy.value_cases (h : t.Healthy) {r : Ref} (hr : t.view.IsLive r)
    (hconst : r.isConst = true) :
    (∃ v, t.value r = .ok v) ∨ ∃ e, t.value r = .error (.refused e) := by
  obtain ⟨x, hx⟩ := h.sound.wellFormed.isLive_iff.mp hr
  rw [value, if_pos hconst, record?_eq_ok_iff.mpr hx]
  dsimp only [recordValue]
  split
  · split
    · exact .inl ⟨_, rfl⟩
    · split
      · exact .inl ⟨_, rfl⟩
      · exact .inl ⟨_, rfl⟩
  · exact .inl ⟨_, rfl⟩
  · next hop =>
    obtain ⟨n, hn⟩ := h.tidy.number hx hop
    change x.payload.num?.bind (·.value? t.pool) = some n at hn
    rw [hn]
    exact .inl ⟨_, rfl⟩
  · split
    · exact .inl ⟨_, rfl⟩
    · exact .inl ⟨_, rfl⟩
  · exact .inl ⟨_, rfl⟩
  · exact .inl ⟨_, rfl⟩
  · exact .inr ⟨_, rfl⟩

/-- A comparison of constants that are there is decided, left open or refused. -/
private theorem Healthy.foldComparison_cases (h : t.Healthy) (op : Opcode) (ha : t.view.IsLive a)
    (hb : t.view.IsLive b) (haconst : a.isConst = true) (hbconst : b.isConst = true) :
    t.foldComparison op a b = .ok none ∨
      t.foldComparison op a b = .ok (some (.of Ref.true Ty.true)) ∨
        ∃ e, t.foldComparison op a b = .error (.refused e) := by
  rw [foldComparison, fixedRef_true]
  rcases h.value_cases ha haconst with ⟨va, hva⟩ | ⟨e, hva⟩
  · rcases h.value_cases hb hbconst with ⟨vb, hvb⟩ | ⟨e, hvb⟩
    · rw [hva, hvb]
      dsimp only
      split
      · exact .inr (.inl rfl)
      · exact .inr (.inr ⟨_, rfl⟩)
      · exact .inl rfl
    · rw [hva, hvb]
      exact .inl rfl
  · rw [hva]
    cases t.value b with
    | ok vb => exact .inl rfl
    | error e => exact .inl rfl

private theorem Healthy.emitDecided (h : t.Healthy) (f : Folder) (hop : op.isConst = false)
    (ty : Ty) (hfeeds : t.view.Feeds op a b) : t.Meets (emitDecided f op ty a b) t.Yields := by
  rw [Trace.emitDecided]
  split
  · next hdecide =>
    simp only [Bool.and_eq_true] at hdecide
    obtain ⟨⟨⟨-, hcompare⟩, ha⟩, hb⟩ := hdecide
    obtain ⟨hleft, hright⟩ := Opcode.shape_of_comparison hcompare
    refine .of_bind (x := t) rfl ?_
    rcases h.foldComparison_cases op (hfeeds.left hleft) (hfeeds.right hright) ha hb with
      hfold | hfold | ⟨e, hfold⟩
    · rw [hfold]
      exact h.place f hop ty hfeeds
    · -- a comparison that holds is answered with a fixed constant
      rw [hfold]
      have htrue := h.sound.wellFormed.isLive_of_isFixed (r := Ref.true) (.inr (.inr rfl))
      exact .of_ok rfl (h.yields_of htrue _)
    · rw [hfold]
      exact Meets.of_refused rfl
  · exact h.place f hop ty hfeeds

/-- **Emission** with live operands. -/
theorem Healthy.emit (h : t.Healthy) (hop : op.isConst = false) (ty : Ty)
    (hfeeds : t.view.Feeds op a b) : t.Meets (emit op ty a b) t.Yields := by
  rw [Trace.emit]
  refine .of_bind (x := t) rfl ?_
  split
  · exact h.emitRaw hop ty hfeeds
  · next f _ =>
    split
    · next hswap =>
      simp only [Bool.and_eq_true] at hswap
      exact h.emitDecided f hop ty (hfeeds.swap hswap.1.2)
    · exact h.emitDecided f hop ty hfeeds

/-! ### Constants -/

private theorem Healthy.addConstant (h : t.Healthy) {x : Record} (hop : x.op.isConst = true)
    (hkey : x.op = .kslot → t.view.IsLive x.left ∧ x.left.isConst = true)
    (hnumber : x.op = .knum → ∃ n, x.number? t.pool = some n) :
    t.Meets (addConstant x) t.Yields := by
  by_cases hfull : t.ConstantsFull
  · exact .of_refused (by rw [run_addConstant, if_pos hfull])
  · obtain ⟨buffer, hbuffer, -⟩ := h.roomy.exists_roomBelow h.sound.laid hfull
    obtain ⟨t', hrun, hlaid, hview⟩ := h.sound.laid.run_addConstant hfull hbuffer x
    have hg : View.CleanGrowths t.view t'.view := by
      rw [hview]
      exact .single (.pushConstant x hop (Laid.one_lt_of_not_full hfull) hkey hnumber)
    have hhealthy := h.growths hlaid (h.roomy.addConstant h.sound.laid hrun) hg
    have hlive : t'.view.IsLive (t.nk - 1) := by
      rw [hview]
      exact h.sound.wellFormed.isLive_pushConstant x
    refine .of_ok hrun ⟨hhealthy, hg, ?_⟩
    rw [hhealthy.ref_of hlive]
    exact hlive

private theorem Healthy.intern (h : t.Healthy) (same : Record → Bool) (ty : Ty) {x : Record}
    (hop : x.op.isConst = true)
    (hkey : x.op = .kslot → t.view.IsLive x.left ∧ x.left.isConst = true)
    (hnumber : x.op = .knum → ∃ n, x.number? t.pool = some n) :
    t.Meets (intern same ty x) t.Yields := by
  obtain ⟨refs, hchain⟩ := h.sound.wellFormed.chains x.op
  rw [Trace.intern]
  refine .of_bind (x := t.view.findIn same refs)
    (by rw [find, run_ask, h.sound.laid.search_eq hchain]; rfl) ?_
  cases hfound : t.view.findIn same refs with
  | none => exact h.addConstant hop hkey hnumber
  | some r =>
    obtain ⟨-, y, hy, -⟩ := (hchain.mem_iff r).mp (View.mem_of_findIn hfound)
    exact .of_ok rfl (h.yields_of (h.sound.wellFormed.isLive_iff.mpr ⟨y, hy⟩) ty)

private theorem Healthy.kint (h : t.Healthy) (k : Int32) : t.Meets (kint k) t.Yields :=
  h.intern _ _ rfl (fun hop => by cases hop) fun hop => by cases hop

private theorem Healthy.knumSlot (h : t.Healthy) {s : NumSlot} {n : Binary64}
    (hs : s.value? t.pool = some n) : t.Meets (knumSlot s) t.Yields :=
  h.intern _ _ rfl (fun hop => by cases hop) fun _ => ⟨n, hs⟩

/-- A number is given its place in the pool first. -/
theorem Healthy.knum (h : t.Healthy) (x : Binary64) : t.Meets (knum x) t.Yields := by
  have hg : View.CleanGrowths t.view { t with pool := (t.pool.find x).2 : Trace }.view :=
    .single (.pool x)
  have hpool : Healthy { t with pool := (t.pool.find x).2 } :=
    h.growths (h.sound.laid.of_view rfl rfl rfl rfl) (h.roomy.of_eq rfl rfl rfl rfl) hg
  have hslot := hpool.knumSlot (s := .pooled (t.pool.find x).1) (t.pool.holds_find x).get?
  exact hslot.mono fun _ _ _ hy => ⟨hy.healthy, hg.trans hy.growths, hy.live⟩

/-- The request can be met: an object is given, and a key is a constant that is there. -/
def Constant.IsFit (v : View) : Constant → Prop
  | .object o _ => o.isSome = true
  | .slot key n => key.isConst = true ∧ v.IsLive key.ref ∧ n ≤ Ref.limit
  | _ => True

/-- **Interning** what can be met. -/
theorem Healthy.constant (h : t.Healthy) {k : Constant} (hk : k.IsFit t.view) :
    t.Meets k.intern t.Yields := by
  cases k with
  | int k => exact h.kint k
  | num x => exact h.knum x
  | numInt x =>
    rw [Constant.intern, knumInt]
    cases x.int32? with
    | some k => exact h.kint k
    | none => exact h.knum x
  | numToBit => exact h.knum bitBias
  | numAbs => exact h.knumSlot (s := .absMask) rfl
  | numNeg => exact h.knumSlot (s := .negMask) rfl
  | object o ty =>
    cases o with
    | none => cases hk
    | some o => exact h.intern _ _ rfl (fun hop => by cases hop) fun hop => by cases hop
  | pointer p => exact h.intern _ _ rfl (fun hop => by cases hop) fun hop => by cases hop
  | null ty => exact h.intern _ _ rfl (fun hop => by cases hop) fun hop => by cases hop
  | slot key n =>
    obtain ⟨hconst, hlive, hn⟩ := hk
    have hkey : ¬ ((!key.isConst) = true ∨ Ref.limit < n) := by
      rw [hconst]
      exact not_or.mpr ⟨by decide, UInt32.not_lt.mpr hn⟩
    rw [Constant.intern, kslot, if_neg hkey]
    exact h.intern _ _ rfl (fun _ => ⟨hlive, hconst⟩) fun hop => by cases hop

theorem tag_of_isPrimitive {ty : Ty} (h : ty.isPrimitive = true) :
    ty.tag = Ty.nil ∨ ty.tag = Ty.false ∨ ty.tag = Ty.true := by
  rw [Ty.isPrimitive, Ty.between, Bool.and_eq_true, decide_eq_true_eq, decide_eq_true_eq] at h
  have hle : ty.tag.bits.toNat ≤ 2 := UInt8.le_iff_toNat_le.mp h.2
  have hcases : ty.tag.bits = 0 ∨ ty.tag.bits = 1 ∨ ty.tag.bits = 2 := by
    simp only [← UInt8.toNat_inj]
    change ty.tag.bits.toNat = 0 ∨ ty.tag.bits.toNat = 1 ∨ ty.tag.bits.toNat = 2
    omega
  exact hcases.imp (congrArg Ty.mk) (Or.imp (congrArg Ty.mk) (congrArg Ty.mk))

theorem isFixed_fixedRef {ty : Ty} (h : ty.isPrimitive = true) : (fixedRef ty).IsFixed := by
  rcases tag_of_isPrimitive h with htag | htag | htag
  · rw [fixedRef, htag]
    decide
  · rw [fixedRef, htag]
    decide
  · rw [fixedRef, htag]
    decide

/-- The fixed constants are there. -/
theorem Healthy.kpri (h : t.Healthy) {ty : Ty} (hty : ty.isPrimitive = true) :
    t.Meets (ask fun _ => kpri ty) t.Yields := by
  have hfixed := isFixed_fixedRef hty
  refine .of_ok (x := .of (fixedRef ty) ty) ?_
    (h.yields_of (h.sound.wellFormed.isLive_of_isFixed hfixed) ty)
  rw [run_ask, Trace.kpri, if_pos hty]

/-! ### Conversions -/

private theorem Healthy.numberOrString (h : t.Healthy) (c : Coercion) {x : TRef}
    (hx : t.view.IsLive x.ref) : t.Meets (numberOrString c x) t.Yields := by
  rw [Trace.numberOrString]
  split
  · exact h.emit rfl _ (.of_left hx (by decide))
  split
  · exact .of_ok rfl (h.yields hx)
  · exact .of_refused rfl

/-- **Converting** a live value. -/
theorem Healthy.coerce (h : t.Healthy) (c : Coercion) {x : TRef} (hx : t.view.IsLive x.ref) :
    t.Meets (coerce c x) t.Yields := by
  cases c with
  | toNum =>
    rw [Trace.coerce, toNum]
    split
    · exact .of_ok rfl (h.yields hx)
    split
    · exact h.emit rfl _ (.of_left hx (by decide))
    split
    · exact h.emit rfl _ (.of_left hx (by decide))
    · exact .of_refused rfl
  | toStr =>
    rw [Trace.coerce, toStr]
    split
    · exact .of_ok rfl (h.yields hx)
    split
    · exact h.emit rfl _ (.of_left hx (by decide))
    · exact .of_refused rfl
  | toBit =>
    rw [Trace.coerce, toBit]
    split
    · exact .of_ok rfl (h.yields hx)
    · refine (h.numberOrString _ hx).andThen fun n t₁ hn => ?_
      refine (hn.healthy.knum _).andThen fun k t₂ hk => ?_
      exact hk.healthy.emit rfl _ ⟨fun _ => hk.keeps hn.healthy hn.live, fun _ => hk.live⟩
  | toInt =>
    rw [Trace.coerce, toInt]
    split
    · exact .of_ok rfl (h.yields hx)
    · refine (h.numberOrString _ hx).andThen fun n t₁ hn => ?_
      exact hn.healthy.emit rfl _ (.of_left hn.live (by decide))

/-! ### Snapshots, going back and beginning -/

theorem Healthy.addSnapshot (h : t.Healthy) {refs : List Ref}
    (hrefs : ∀ r ∈ refs, t.view.IsLive r) :
    t.Meets (addSnapshot refs) fun _ t' =>
      t'.Healthy ∧ View.CleanGrowths t.view t'.view := by
  have hg : View.CleanGrowths t.view
      { t with snapshots := t.snapshots.push refs : Trace }.view := .single (.snapshot refs hrefs)
  exact .of_ok rfl
    ⟨h.growths (h.sound.laid.of_view rfl rfl rfl rfl) (h.roomy.of_eq rfl rfl rfl rfl) hg, hg⟩

/-- Going back, to whatever point, leaves a healthy trace. -/
theorem Healthy.rollback (h : t.Healthy) {cp : Checkpoint}
    (hrun : (rollback cp).run t = .ok () t') : t'.Healthy := by
  obtain ⟨hcp, hlaid, hview⟩ := h.sound.laid.of_run_rollback hrun
  have hcut := h.sound.wellFormed.cut_rollback (accepts_iff.mp hcp.1).1
  rw [← hview] at hcut
  have htidy : View.Tidy
      { t.view with snapshots := t.view.snapshots.take cp.snapshots.toNat } :=
    ⟨h.tidy.older, h.tidy.number⟩
  exact ⟨⟨hlaid, hcut.wellFormed⟩, h.roomy.rollback h.sound.laid h.sound.wellFormed hrun,
    htidy.cut hcut⟩

theorem Healthy.setup (h : t.Healthy) :
    ∃ t', setup.run t = .ok () t' ∧ t'.Healthy ∧ t'.view = t.view.restart := by
  obtain ⟨t', hrun, hlaid, hview⟩ := h.sound.laid.run_setup
  refine ⟨t', hrun, ⟨⟨hlaid, ?_⟩, h.roomy.setup h.sound.laid hrun, ?_⟩, hview⟩
  · rw [hview]
    exact View.wellFormed_initial ..
  · rw [hview]
    exact View.Tidy.initial ..

theorem Healthy.of_start {config : Config} {pool : Pool} (hmoderate : config.normalize.Moderate)
    (hstart : start config pool = .ok t) : t.Healthy := by
  obtain ⟨hlaid, hview⟩ := start_eq_ok hstart
  refine ⟨⟨hlaid, ?_⟩, .of_start hmoderate hstart, ?_⟩
  · rw [hview]
    exact View.wellFormed_initial ..
  · rw [hview]
    exact View.Tidy.initial ..

end Trace

end TraceIR
