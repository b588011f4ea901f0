import TraceIR.Proofs.Interning
import TraceIR.Proofs.Safety

/-!
# The limits of a trace

The options limit how far a trace can grow at either end, and a typed reference has room for 16 bits
of a reference. The limits hold whatever is done to a trace, even if constants are emitted as
instructions, which recordings never do.

* `Trace.Contained` — the bounds of the live range keep to the limits, and no link of a chain leads
  beyond them, not even from a slot that is not live.
* `Trace.Confines` — an action keeps a trace contained, and its answer has a property. There is one
  lemma for each action on the way to a call.
* `Move` — a step of a recording, or an emission of any opcode. `Contained.moves` is the run lemma.
* `Call` — everything that is answered with a typed reference. `confines_call` says that the answer
  is one and bears the type asked for, and `Reachable.isLive_call` that it is live.
-/

namespace TraceIR

/-! ### Typed references -/

/-- A typed reference gives the tag of its type back. -/
theorem TRef.ty_of {r : Ref} (h : r ≤ Ref.limit) (ty : Ty) : (TRef.of r ty).ty = ty.tag := by
  have hr : r.toNat ≤ 0xffff := UInt32.le_iff_toNat_le.mp h
  have htag : ty.tag.bits.toNat < 256 := ty.tag.bits.toNat_lt
  have hbits : ((TRef.of r ty).bits >>> 24).toUInt8 = ty.tag.bits := by
    rw [← UInt8.toNat_inj, UInt32.toNat_toUInt8, UInt32.toNat_shiftRight, TRef.of, UInt32.toNat_or,
      UInt32.toNat_shiftLeft, UInt8.toNat_toUInt32, show (24 : UInt32).toNat % 32 = 24 from rfl,
      Nat.shiftRight_or_distrib, Nat.shiftLeft_eq, Nat.shiftRight_eq_div_pow,
      Nat.shiftRight_eq_div_pow, Nat.div_eq_of_lt (show r.toNat < 2 ^ 24 by omega), Nat.zero_or]
    omega
  rw [TRef.ty, hbits]

namespace TRef

/-- There is a reference, and the type is the one asked for. -/
structure Bears (y : TRef) (ty : Ty) : Prop where
  ref_ne : y.ref ≠ Ref.none
  ty_eq : y.ty = ty.tag

private theorem Bears.ne_none {y : TRef} {ty : Ty} (h : y.Bears ty) : y ≠ .none := by
  rintro rfl
  exact h.ref_ne rfl

private theorem Bears.of_tag {y : TRef} {ty ty' : Ty} (h : y.Bears ty) (htag : ty.tag = ty'.tag) :
    y.Bears ty' :=
  ⟨h.ref_ne, h.ty_eq.trans htag⟩

private theorem bears_of {r : Ref} (hne : r ≠ Ref.none) (hle : r ≤ Ref.limit) (ty : Ty) :
    (of r ty).Bears ty where
  ref_ne := by rwa [ref_of hle]
  ty_eq := ty_of hle ty

end TRef

/-! ### Links within the limits -/

namespace Buffer

/-- No slot links to a reference beyond the limit. -/
def Linked (b : Buffer) : Prop :=
  ∀ x ∈ b.slots, x.prev ≤ Ref.limit

variable {b b' : Buffer}

private theorem Linked.get? (h : b.Linked) {r : Ref} {x : Record} (hx : b.get? r = some x) :
    x.prev ≤ Ref.limit :=
  h x (Array.mem_of_getElem? hx)

private theorem Linked.set (h : b.Linked) (r : Ref) {x : Record} (hx : x.prev ≤ Ref.limit) :
    (b.set r x).Linked := by
  intro y hy
  rcases Array.mem_or_eq_of_mem_setIfInBounds hy with hy | rfl
  · exact h y hy
  · exact hx

private theorem linked_blank : Record.blank.prev ≤ Ref.limit := by
  decide

/-- Slots that are blank or taken over from another buffer link as they did there. -/
private theorem Linked.of_mem (h : b.Linked) (hmem : ∀ x ∈ b'.slots, x ∈ b.slots ∨ x = .blank) :
    b'.Linked := by
  intro x hx
  rcases hmem x hx with hx | rfl
  · exact h x hx
  · exact linked_blank

private theorem mem_of_mem_extract {slots : Array Record} {i j : Nat} {x : Record}
    (h : x ∈ slots.extract i j) : x ∈ slots := by
  rw [← Array.mem_toList_iff, Array.toList_extract] at h
  exact Array.mem_toList_iff.mp (List.mem_of_mem_drop (List.mem_of_mem_take h))

/-- Copying makes no new records. -/
private theorem mem_of_copyUp {source target slots : Array Record} {distance live : Nat}
    {x : Record} (h : copyUp source target distance live = .ok slots) (hx : x ∈ slots) :
    x ∈ target ∨ x ∈ source := by
  obtain ⟨-, -, rfl⟩ := copyUp_cases h
  rw [Array.mem_append, Array.mem_append] at hx
  rcases hx with (hx | hx) | hx
  · exact .inl (mem_of_mem_extract hx)
  · exact .inr (mem_of_mem_extract (mem_of_mem_extract hx))
  · exact .inl (mem_of_mem_extract hx)

private theorem Linked.clear (h : b.Linked) : b.clear.Linked :=
  h.of_mem fun _ hx => .inr (Array.mem_replicate.mp hx).2

private theorem Linked.growTop (h : b.Linked) (minSize : Int) : (b.growTop minSize).Linked := by
  refine h.of_mem fun x hx => ?_
  rw [Buffer.growTop] at hx
  split at hx
  · exact .inr (Array.mem_replicate.mp hx).2
  · exact (Array.mem_append.mp hx).imp_right fun hx => (Array.mem_replicate.mp hx).2

private theorem Linked.growBottom (h : b.Linked) {low high : Ref}
    (hgrow : b.growBottom low high = .ok b') : b'.Linked := by
  refine h.of_mem fun x hx => ?_
  -- the slots are moved up within the buffer, or copied into one of twice the size
  obtain ⟨-, ⟨-, -, hmove⟩ | ⟨-, -, hmove⟩⟩ := growBottom_cases hgrow
  · rcases mem_of_copyUp (moveUp_eq_ok hmove).1 hx with hx | hx
    · exact .inl hx
    · exact .inl hx
  · rcases mem_of_copyUp (moveUp_eq_ok hmove).1 hx with hx | hx
    · exact .inr (Array.mem_replicate.mp hx).2
    · exact .inl hx

end Buffer

/-! ### Traces within the limits -/

namespace Config

/-- The reference that instructions do not reach. -/
def instructionEnd (c : Config) : Int :=
  min Ref.limit.toNat (Ref.bias.toNat + c.maxInstructions)

/-- The lowest reference that constants reach. -/
def constantEnd (c : Config) : Int :=
  max 1 (Ref.true.toNat - c.maxConstants)

/-- The limits make sense, and the one on instructions fits a machine word. -/
structure Fits (c : Config) : Prop where
  instructions_pos : 0 < c.maxInstructions
  instructions_lt : c.maxInstructions < 0x80000000
  constants_pos : 0 < c.maxConstants

private theorem fits_normalize {c : Config} (h : c.maxInstructions < 0x80000000) :
    c.normalize.Fits := by
  constructor
  · simp only [normalize]
    split
    · decide
    · omega
  · simp only [normalize]
    split
    · decide
    · exact h
  · simp only [normalize]
    split
    · decide
    · omega

end Config

namespace Trace

variable {c : Config} {t t' : Trace} {α β : Type}

/-- The live range keeps to the limits of `c`, and all links to the references that there are. -/
structure Contained (c : Config) (t : Trace) : Prop where
  laid : t.Laid
  config : t.config = c
  fits : c.Fits
  nins_le : (t.nins.toNat : Int) ≤ c.instructionEnd
  nk_ge : c.constantEnd ≤ t.nk.toNat
  heads : ∀ op, t.heads.get op ≤ Ref.limit
  linked : t.buffer.Linked

private theorem Contained.full_iff (h : t.Contained c) :
    t.InstructionsFull ↔ (t.nins.toNat : Int) = c.instructionEnd := by
  have hle := h.nins_le
  have hpos := h.fits.instructions_pos
  rw [InstructionsFull, h.config, UInt32.le_iff_toNat_le, UInt32.le_iff_toNat_le,
    toNat_instructionLimit hpos.le h.fits.instructions_lt, Ref.toNat_limit]
  -- the check is against two bounds, and the end is the smaller of them
  rw [Config.instructionEnd, Ref.toNat_limit, Ref.toNat_bias] at hle ⊢
  omega

/-- Only the range, the links and the buffer matter. -/
private theorem Contained.of_eq (h : t.Contained c) (hconfig : t'.config = t.config)
    (hnins : t'.nins = t.nins) (hnk : t'.nk = t.nk) (hheads : t'.heads = t.heads)
    (hbuffer : t'.buffer = t.buffer) : t'.Contained c where
  laid := h.laid.of_view hconfig hnins hnk hbuffer
  config := hconfig.trans h.config
  fits := h.fits
  nins_le := hnins ▸ h.nins_le
  nk_ge := hnk ▸ h.nk_ge
  heads := hheads ▸ h.heads
  linked := hbuffer ▸ h.linked

private theorem heads_set_le {heads : Heads} (h : ∀ op, heads.get op ≤ Ref.limit) {op : Opcode}
    {r : Ref} (hr : r ≤ Ref.limit) (op' : Opcode) : (heads.set op r).get op' ≤ Ref.limit := by
  by_cases hop : op = op'
  · rw [hop, Heads.get_set_self]
    exact hr
  · rw [Heads.get_set_of_ne _ _ hop]
    exact h op'

/-! ### Actions that keep the limits -/

/-- The action keeps a trace within the limits, whether it succeeds or fails, and what it answers
satisfies `Q`. -/
def Confines (c : Config) (a : Action α) (Q : α → Prop) : Prop :=
  ∀ ⦃t : Trace⦄, t.Contained c → (t.after a).Contained c ∧ ∀ x t', a.run t = .ok x t' → Q x

namespace Confines

variable {a : Action α} {Q Q' : α → Prop} {R : β → Prop} {f : α → Action β}

private theorem mono (h : Confines c a Q) (hQ : ∀ x, Q x → Q' x) : Confines c a Q' := by
  intro t ht
  obtain ⟨hafter, hanswer⟩ := h ht
  exact ⟨hafter, fun x t' hrun => hQ x (hanswer x t' hrun)⟩

private theorem pure {x : α} (hx : Q x) : Confines c (pure x) Q := by
  intro t ht
  refine ⟨ht, fun y t' hrun => ?_⟩
  cases hrun
  exact hx

private theorem throw (e : Fault) : Confines c (throw e : Action α) Q := by
  intro t ht
  refine ⟨ht, fun y t' hrun => ?_⟩
  cases hrun

private theorem get {f : Trace → Action β} (hf : ∀ t, Confines c (f t) R) :
    Confines c (MonadState.get >>= f) R := by
  intro t ht
  rw [after_bind, EStateM.run_bind, EStateM.run_get]
  exact hf t ht

private theorem ask {q : Trace → Except Breach α}
    (hq : ∀ t x, Contained c t → q t = .ok x → Q x) : Confines c (Trace.ask q) Q := by
  intro t ht
  rw [after_ask]
  refine ⟨ht, fun x t' hrun => ?_⟩
  rw [run_ask] at hrun
  cases hx : q t with
  | ok y =>
    rw [hx] at hrun
    cases hrun
    exact hq t x ht hx
  | error e =>
    rw [hx] at hrun
    cases hrun

private theorem bind (ha : Confines c a Q) (hf : ∀ x, Q x → Confines c (f x) R) :
    Confines c (a >>= f) R := by
  intro t ht
  obtain ⟨hafter, hanswer⟩ := ha ht
  rw [after_bind]
  cases hrun : a.run t with
  | ok x t₁ =>
    rw [after_of_ok hrun] at hafter
    rw [run_bind_of_ok hrun]
    exact hf x (hanswer x t₁ hrun) hafter
  | error e t₁ =>
    rw [after_of_error hrun] at hafter
    rw [run_bind_of_error hrun]
    exact ⟨hafter, fun y t' hrun => by cases hrun⟩

end Confines

/-! Records that enter. -/

private theorem Contained.linked_roomAbove (h : t.Contained c) : t.roomAbove.Linked := by
  rw [roomAbove]
  split
  · exact h.linked.growTop _
  · exact h.linked

private theorem Contained.linked_roomBelow (h : t.Contained c) {buffer : Buffer}
    (hbuffer : t.roomBelow = .ok buffer) : buffer.Linked := by
  rw [roomBelow] at hbuffer
  split at hbuffer
  · exact h.linked.growBottom hbuffer
  · cases hbuffer
    exact h.linked

private theorem confines_emitRaw (op : Opcode) (ty : Ty) (a b : Ref) :
    Confines c (emitRaw op ty a b) (TRef.Bears · ty) := by
  intro t h
  by_cases hfull : t.InstructionsFull
  · have hrun : (emitRaw op ty a b).run t = .error (.refused .traceOverflow) t := by
      rw [run_emitRaw, if_pos hfull]
    rw [after_of_error hrun, hrun]
    exact ⟨h, fun y t' hok => by cases hok⟩
  · obtain ⟨t₁, hrun, hlaid, hview⟩ := h.laid.run_emitRaw hfull op ty a b
    have hlt := Laid.lt_limit_of_not_full hfull
    have hle := h.laid.nins_le
    have hne : t.nins ≠ Ref.none := by
      have hbase := h.laid.base_lt
      grind
    -- the new record links to the head that its chain had
    have hbuffer : t₁.buffer.Linked := by
      rw [run_emitRaw, if_neg hfull] at hrun
      split at hrun
      · cases hrun
        exact h.linked_roomAbove.set _ (h.heads op)
      · cases hrun
    rw [after_of_ok hrun, hrun]
    refine ⟨?_, fun y t' hok => ?_⟩
    · exact
        { laid := hlaid
          config := (congrArg View.config hview).trans h.config
          fits := h.fits
          nins_le := by
            have hnins : t₁.nins = t.nins + 1 := congrArg View.nins hview
            have hbound := h.nins_le
            -- the trace is not full, so it is below the end and not at it
            have hother := mt h.full_iff.mpr hfull
            rw [hnins, Ref.toNat_succ hlt]
            omega
          nk_ge := by
            rw [show t₁.nk = t.nk from congrArg View.nk hview]
            exact h.nk_ge
          heads := by
            rw [show t₁.heads = t.heads.set op t.nins from congrArg View.heads hview]
            exact heads_set_le h.heads hle
          linked := hbuffer }
    · cases hok
      exact TRef.bears_of hne hle ty

private theorem confines_addConstant (x : Record) : Confines c (addConstant x)
    (TRef.Bears · x.ty) := by
  intro t h
  by_cases hfull : t.ConstantsFull
  · have hrun : (addConstant x).run t = .error (.refused .constOverflow) t := by
      rw [run_addConstant, if_pos hfull]
    rw [after_of_error hrun, hrun]
    exact ⟨h, fun y t' hok => by cases hok⟩
  cases hroom : t.roomBelow with
  | error e =>
    have hrun : (addConstant x).run t = .error (.broken e) t := by
      rw [run_addConstant, if_neg hfull, hroom]
    rw [after_of_error hrun, hrun]
    exact ⟨h, fun y t' hok => by cases hok⟩
  | ok buffer =>
    obtain ⟨t₁, hrun, hlaid, hview⟩ := h.laid.run_addConstant hfull hroom x
    have hone := Laid.one_lt_of_not_full hfull
    have hnk := h.laid.nk_le
    -- the last constant enters at one, since zero is no reference
    have hle : t.nk - 1 ≤ Ref.limit := by grind
    have hne : t.nk - 1 ≠ Ref.none := by grind
    have hbuffer : t₁.buffer.Linked := by
      rw [run_addConstant, if_neg hfull, hroom] at hrun
      dsimp only at hrun
      split at hrun
      · cases hrun
        exact (h.linked_roomBelow hroom).set _ (h.heads x.op)
      · cases hrun
    rw [after_of_ok hrun, hrun]
    refine ⟨?_, fun y t' hok => ?_⟩
    · exact
        { laid := hlaid
          config := (congrArg View.config hview).trans h.config
          fits := h.fits
          nins_le := by
            rw [show t₁.nins = t.nins from congrArg View.nins hview]
            exact h.nins_le
          nk_ge := by
            have hnk₁ : t₁.nk = t.nk - 1 := congrArg View.nk hview
            -- a constant enters only while fewer than the limit are there
            have hroom : ¬ c.maxConstants ≤ (Ref.true - t.nk).toNat := by
              rw [← h.config]
              exact fun hle => hfull (.inl hle)
            rw [UInt32.toNat_sub_of_le _ _ hnk, Ref.toNat_true] at hroom
            rw [UInt32.lt_iff_toNat_lt, UInt32.toNat_one] at hone
            rw [hnk₁, Ref.toNat_pred h.laid.nk_pos, Config.constantEnd, Ref.toNat_true]
            omega
          heads := by
            rw [show t₁.heads = t.heads.set x.op (t.nk - 1) from congrArg View.heads hview]
            exact heads_set_le h.heads hle
          linked := hbuffer }
    · cases hok
      exact TRef.bears_of hne hle x.ty

/-! Walks along a chain. -/

/-- A walk that begins within the limits looks at references within the limits only. -/
private theorem Contained.exists_of_searchFrom (h : t.Contained c) {probe : Ref → Record → Option α}
    {x : α} (n : Nat) : ∀ {r : Ref}, r ≤ Ref.limit → t.searchFrom probe n r = .ok (some x) →
      ∃ q y, q ≠ Ref.none ∧ q ≤ Ref.limit ∧ probe q y = some x := by
  induction n with
  | zero =>
    intro r hr hfound
    rw [searchFrom] at hfound
    split at hfound
    · cases hfound
    · cases hfound
  | succ n ih =>
    intro r hr hfound
    rw [searchFrom] at hfound
    split at hfound
    · cases hfound
    · next hne =>
      cases hy : t.buffer.get? r with
      | none =>
        rw [slot?, hy] at hfound
        cases hfound
      | some y =>
        rw [slot?, hy] at hfound
        dsimp only [bind, Except.bind] at hfound
        cases hprobe : probe r y with
        | some a =>
          rw [hprobe] at hfound
          cases hfound
          exact ⟨r, y, hne, hr, hprobe⟩
        | none =>
          -- the walk goes on at the link, live or not, and that is within the limits too
          rw [hprobe] at hfound
          exact ih (h.linked.get? hy) hfound

private theorem Contained.exists_of_search (h : t.Contained c) {op : Opcode}
    {probe : Ref → Record → Option α} {x : α} (hfound : t.search op probe = .ok (some x)) :
    ∃ q y, q ≠ Ref.none ∧ q ≤ Ref.limit ∧ probe q y = some x :=
  h.exists_of_searchFrom _ (h.heads op) hfound

/-! Interning. -/

private theorem confines_intern (same : Record → Bool) {ty ty' : Ty} {x : Record}
    (hx : x.ty.tag = ty'.tag) (hty : ty.tag = ty'.tag) : Confines c (intern same ty x)
    (TRef.Bears · ty') := by
  have hfind : Confines c (find x.op same) fun found =>
      ∀ r, found = some r → r ≠ Ref.none ∧ r ≤ Ref.limit := by
    refine .ask fun t found h hfound r hr => ?_
    subst hr
    obtain ⟨q, y, hne, hle, hprobe⟩ := h.exists_of_search hfound
    split at hprobe
    · cases hprobe
      exact ⟨hne, hle⟩
    · cases hprobe
  refine hfind.bind fun found hfound => ?_
  cases found with
  | some r =>
    obtain ⟨hne, hle⟩ := hfound r rfl
    exact .pure ((TRef.bears_of hne hle ty).of_tag hty)
  | none => exact (confines_addConstant x).mono fun y hy => hy.of_tag hx

/-- **A request for a constant.** -/
theorem confines_constant (k : Constant) : Confines c k.intern (TRef.Bears · k.ty) := by
  intro t h
  cases hk : k.key? t.pool with
  | none =>
    obtain ⟨b, hrun⟩ := Constant.run_intern_of_no_key hk
    rw [after_of_error hrun, hrun]
    exact ⟨h, fun y t' hok => by cases hok⟩
  | some key =>
    -- a number enters the pool first, which the limits do not depend on
    obtain ⟨a, ha, hrun⟩ := Constant.exists_seeks hk
    have hpool : Contained c { t with pool := k.poolAfter t.pool } :=
      h.of_eq rfl rfl rfl rfl rfl
    have hafter : t.after k.intern = { t with pool := k.poolAfter t.pool : Trace }.after a := by
      rw [after, after, hrun]
    rw [hafter, hrun]
    cases ha with
    | intern hsame hx hty hty' => exact confines_intern _ hty' hty hpool

/-! Emission. -/

/-- An instruction of the opcode and type is answered by `y`: by one of this type, or by the fixed
constant that decides a comparison. -/
def Answers (op : Opcode) (ty : Ty) (y : TRef) : Prop :=
  y.Bears ty ∨ op.isComparison = true ∧ y = .of Ref.true Ty.true

variable {op : Opcode} {ty : Ty}

private theorem confines_emitShared (op : Opcode) (ty : Ty) (a b : Ref) :
    Confines c (emitShared op ty a b) (TRef.Bears · ty) := by
  refine Confines.bind (Q := fun found => ∀ r, found = some (some r) →
    r ≠ Ref.none ∧ r ≤ Ref.limit) (.ask fun t found h hfound r hr => ?_) fun found hfound => ?_
  · subst hr
    obtain ⟨q, y, hne, hle, hprobe⟩ := h.exists_of_search hfound
    -- the search stops at an older instruction without an answer
    split at hprobe
    · cases hprobe
    · split at hprobe
      · cases hprobe
        exact ⟨hne, hle⟩
      · cases hprobe
  · cases hjoin : found.join with
    | some r =>
      obtain ⟨hne, hle⟩ := hfound r (Option.join_eq_some_iff.mp hjoin)
      exact .pure (TRef.bears_of hne hle ty)
    | none => exact confines_emitRaw ..

private theorem confines_place (f : Folder) (op : Opcode) (ty : Ty) (a b : Ref) :
    Confines c (place f op ty a b) (TRef.Bears · ty) := by
  rw [place]
  split
  · exact confines_emitShared ..
  · exact confines_emitRaw ..

private theorem confines_emitDecided (f : Folder) (op : Opcode) (ty : Ty) (a b : Ref) :
    Confines c (emitDecided f op ty a b) (Answers op ty) := by
  have hplace : Confines c (place f op ty a b) (Answers op ty) :=
    (confines_place f op ty a b).mono fun _ => .inl
  rw [emitDecided]
  split
  · next hdecide =>
    simp only [Bool.and_eq_true] at hdecide
    refine .get fun t => ?_
    cases hfound : t.foldComparison op a b with
    | error e => exact .throw e
    | ok found =>
      cases found with
      | some y =>
        obtain ⟨rfl, -⟩ := foldComparison_eq_some_iff.mp hfound
        exact .pure (.inr ⟨hdecide.1.1.2, rfl⟩)
      | none => exact hplace
  · exact hplace

/-- **Emission** of any opcode. -/
theorem confines_emit (op : Opcode) (ty : Ty) (a b : Ref) :
    Confines c (emit op ty a b) (Answers op ty) := by
  refine .get fun t => ?_
  cases t.folder with
  | none => exact (confines_emitRaw op ty a b).mono fun _ => .inl
  | some f =>
    dsimp only
    split
    · exact confines_emitDecided ..
    · exact confines_emitDecided ..

/-! Going back. -/

/-- Instructions leave from the upper end, down to `BASE`, and leave the constants alone. -/
private theorem Contained.popInstructions (n : Nat) :
    ∀ {t : Trace}, t.Contained c → Ref.first.toNat + n ≤ t.nins.toNat →
      (t.after (popInstructions n)).Contained c ∧ (t.after (popInstructions n)).nk = t.nk := by
  induction n with
  | zero => exact fun h _ => ⟨h, rfl⟩
  | succ n ih =>
    intro t h hn
    have hfirst : Ref.first < t.nins := by
      rw [UInt32.lt_iff_toNat_lt]
      omega
    obtain ⟨x, t₁, hget, ht₁, hlaid, -⟩ := h.laid.popInstruction hfirst
    have hnins : t₁.nins.toNat = t.nins.toNat - 1 := by
      rw [ht₁]
      exact Ref.toNat_pred (by omega)
    have hbound := h.nins_le
    have hcontained : t₁.Contained c :=
      { laid := hlaid
        config := by rw [ht₁]; exact h.config
        fits := h.fits
        nins_le := by omega
        nk_ge := by rw [ht₁]; exact h.nk_ge
        -- the new head is the link of the record that leaves
        heads := by rw [ht₁]; exact heads_set_le h.heads (h.linked.get? hget)
        linked := by rw [ht₁]; exact h.linked }
    have hafter : t.after (Trace.popInstructions (n + 1)) = t₁.after (Trace.popInstructions n) := by
      rw [after, after, run_popInstructions_succ hget, ht₁]
    have hnk : t₁.nk = t.nk := by rw [ht₁]
    rw [hafter, ← hnk]
    exact ih hcontained (by omega)

/-- Constants leave from the lower end, up to the fixed ones. -/
private theorem Contained.popConstants (n : Nat) :
    ∀ {t : Trace}, t.Contained c → t.nk.toNat + n ≤ Ref.true.toNat →
      (t.after (popConstants n)).Contained c := by
  induction n with
  | zero => exact fun h _ => h
  | succ n ih =>
    intro t h hn
    have htrue : t.nk < Ref.true := by
      rw [UInt32.lt_iff_toNat_lt]
      omega
    obtain ⟨x, t₁, hget, ht₁, hlaid, -⟩ := h.laid.popConstant htrue
    have hnk : t₁.nk.toNat = t.nk.toNat + 1 := by
      rw [ht₁]
      exact Ref.toNat_succ (by grind)
    have hbound := h.nk_ge
    have hcontained : t₁.Contained c :=
      { laid := hlaid
        config := by rw [ht₁]; exact h.config
        fits := h.fits
        nins_le := by rw [ht₁]; exact h.nins_le
        nk_ge := by omega
        heads := by rw [ht₁]; exact heads_set_le h.heads (h.linked.get? hget)
        linked := by rw [ht₁]; exact h.linked.set _ Buffer.linked_blank }
    have hafter : t.after (Trace.popConstants (n + 1)) = t₁.after (Trace.popConstants n) := by
      rw [after, after, run_popConstants_succ hget, ht₁]
    rw [hafter]
    exact ih hcontained (by omega)

private theorem Contained.rollback (h : t.Contained c) (cp : Checkpoint) :
    (t.after (rollback cp)).Contained c := by
  by_cases hcp : t.accepts cp = true ∧ 0 ≤ cp.snapshots
  · obtain ⟨hreaches, -⟩ := accepts_iff.mp hcp.1
    have hins : cp.ins ≤ t.nins := hreaches.ins_le
    have hnk : t.nk ≤ cp.const := hreaches.nk_le
    have hfirst := UInt32.le_iff_toNat_le.mp hreaches.first_le
    have htrue := UInt32.le_iff_toNat_le.mp hreaches.const_le
    have hcount : Ref.first.toNat + (t.nins - cp.ins).toNat ≤ t.nins.toNat := by
      rw [UInt32.toNat_sub_of_le _ _ hins]
      rw [UInt32.le_iff_toNat_le] at hins
      omega
    have hstart : Contained c { t with snapshots := t.snapshots.take cp.snapshots.toNat } :=
      h.of_eq rfl rfl rfl rfl rfl
    -- how many constants leave is counted after the instructions have left
    obtain ⟨hpopped, hnk₁⟩ := hstart.popInstructions _ hcount
    obtain ⟨t₁, hrun, -⟩ := hstart.laid.run_popInstructions _ hcount
    rw [after_of_ok hrun] at hpopped hnk₁
    have hafter : t.after (Trace.rollback cp) =
        t₁.after (Trace.popConstants (cp.const - t₁.nk).toNat) := by
      rw [after, after, run_rollback_of_accepted hcp.1 hcp.2, run_bind_of_ok hrun,
        EStateM.run_bind, EStateM.run_get]
    rw [hafter]
    refine hpopped.popConstants _ ?_
    rw [hnk₁]
    dsimp only
    rw [UInt32.toNat_sub_of_le _ _ hnk]
    rw [UInt32.le_iff_toNat_le] at hnk
    omega
  · obtain ⟨b, hrun⟩ := run_rollback_of_rejected hcp
    rw [after_of_error hrun]
    exact h

/-! Beginning. -/

/-- A trace that begins is within the limits. -/
private theorem contained_of_setup (hfits : t.config.Fits) (hlaid : t'.Laid)
    (hlinked : t.cleared.roomAbove.Linked) (hrun : setup.run t = .ok () t') :
    t'.Contained t.config := by
  obtain ⟨-, -, -, rfl⟩ := run_setup_eq_ok.mp hrun
  have hinstructions := hfits.instructions_pos
  have hconstants := hfits.constants_pos
  have hnone : (0 : Ref) ≤ Ref.limit := by decide
  refine
    { laid := hlaid
      config := based_config t
      fits := hfits
      nins_le := ?_
      nk_ge := ?_
      heads := heads_set_le (fun op => ?_) (by decide)
      linked := ?_ }
  · show (Ref.first.toNat : Int) ≤ _
    rw [Config.instructionEnd, Ref.toNat_first, Ref.toNat_limit, Ref.toNat_bias]
    omega
  · show _ ≤ (Ref.true.toNat : Int)
    rw [Config.constantEnd, Ref.toNat_true]
    omega
  · rw [Heads.get_empty]
    exact hnone
  -- `BASE` and the fixed constants link to nothing
  · exact (((hlinked.set _ hnone).set _ hnone).set _ hnone).set _ hnone

private theorem Contained.setup (h : t.Contained c) : (t.after setup).Contained c := by
  obtain ⟨t', hrun, hlaid, -⟩ := h.laid.run_setup
  rw [after_of_ok hrun, ← h.config]
  refine contained_of_setup (h.config ▸ h.fits) hlaid ?_ hrun
  rw [h.laid.roomAbove_cleared]
  exact h.linked.clear

private theorem contained_of_start {config : Config} {pool : Pool}
    (hmax : config.maxInstructions < 0x80000000) (hstart : start config pool = .ok t) :
    t.Contained config.normalize := by
  have hlaid := (start_eq_ok hstart).1
  rw [start] at hstart
  cases hrun : Trace.setup.run { config := config.normalize, pool } with
  | error e t' =>
    rw [hrun] at hstart
    cases hstart
  | ok u t' =>
    rw [hrun] at hstart
    cases hstart
    refine contained_of_setup (Config.fits_normalize hmax) hlaid ?_ hrun
    have hempty : Buffer.Linked {} := fun x hx => absurd hx (Array.not_mem_empty x)
    exact hempty.growTop _

/-- **One step** of a recording keeps to the limits. -/
theorem stepInvariant_contained : StepInvariant (Contained c) where
  folder h _ := h.of_eq rfl rfl rfl rfl rfl
  snapshot h _ := h.of_eq rfl rfl rfl rfl rfl
  guard h := h.of_eq rfl rfl rfl rfl rfl
  emitRaw h _ _ ty a b := (confines_emitRaw _ ty a b h).1
  constant h k := (confines_constant k h).1
  rollback h cp := h.rollback cp
  setup h := h.setup

end Trace

/-! ### Moves -/

/-- A step of a recording, or an emission of any opcode. -/
inductive Move where
  | step (s : Step)
  | emit (op : Opcode) (ty : Ty) (a b : Ref)
  | emitRaw (op : Opcode) (ty : Ty) (a b : Ref)

/-- No constant is emitted as an instruction. -/
def Move.isProper : Move → Bool
  | step _ => true
  | emit op .. => !op.isConst
  | emitRaw op .. => !op.isConst

namespace Trace

variable {c : Config} {t t' : Trace}

/-- The trace after a move, whether the move succeeds or fails. -/
def move (t : Trace) : Move → Trace
  | .step s => t.step s
  | .emit op ty a b => t.after (emit op ty a b)
  | .emitRaw op ty a b => t.after (emitRaw op ty a b)

/-- The trace after some moves. -/
def moves (t : Trace) (l : List Move) : Trace :=
  l.foldl move t

private theorem Contained.move (h : t.Contained c) (m : Move) : (t.move m).Contained c := by
  cases m with
  | step s => exact stepInvariant_contained.step h s
  | emit op ty a b => exact (confines_emit op ty a b h).1
  | emitRaw op ty a b => exact (confines_emitRaw op ty a b h).1

/-- Any moves keep to the limits. -/
theorem Contained.moves (h : t.Contained c) (l : List Move) : (t.moves l).Contained c := by
  induction l generalizing t with
  | nil => exact h
  | cons m l ih => exact ih (h.move m)

/-- A proper move is a step of a recording. -/
private theorem Reachable.move (h : Reachable t) {m : Move} (hm : m.isProper = true) :
    Reachable (t.move m) := by
  cases m with
  | step s => exact h.step s
  | emit op ty a b => exact h.step (.emit ⟨op, Bool.not_eq_true' _ |>.mp hm⟩ ty a b)
  | emitRaw op ty a b => exact h.step (.emitRaw ⟨op, Bool.not_eq_true' _ |>.mp hm⟩ ty a b)

theorem Reachable.moves (h : Reachable t) {l : List Move} (hl : ∀ m ∈ l, m.isProper = true) :
    Reachable (t.moves l) := by
  induction l generalizing t with
  | nil => exact h
  | cons m l ih =>
    rw [List.forall_mem_cons] at hl
    exact ih (h.move hl.1) hl.2

end Trace

/-! ### Calls -/

/-- What is answered with a typed reference. -/
inductive Call where
  | emit (op : Opcode) (ty : Ty) (a b : Ref)
  | emitRaw (op : Opcode) (ty : Ty) (a b : Ref)
  | intern (k : Trace.Constant)
  | fixed (ty : Ty)

namespace Call

/-- Make the call. -/
def action : Call → Action TRef
  | emit op ty a b => Trace.emit op ty a b
  | emitRaw op ty a b => Trace.emitRaw op ty a b
  | intern k => k.intern
  | fixed ty => Trace.ask fun _ => Trace.kpri ty

/-- The type asked for. -/
def ty : Call → Ty
  | emit _ ty .. => ty
  | emitRaw _ ty .. => ty
  | intern k => k.ty
  | fixed ty => ty

/-- Can a folder decide the answer? -/
def isComparison : Call → Bool
  | emit op .. => op.isComparison
  | _ => false

end Call

namespace Trace

variable {c : Config} {t t' : Trace} {y : TRef}

/-- **Answers** are references, of the type asked for or the one that decides a comparison. -/
theorem confines_call (k : Call) : Confines c k.action fun y =>
    y.Bears k.ty ∨ k.isComparison = true ∧ y = .of Ref.true Ty.true := by
  cases k with
  | emit op ty a b => exact confines_emit op ty a b
  | emitRaw op ty a b => exact (confines_emitRaw op ty a b).mono fun _ => .inl
  | intern k => exact (confines_constant k).mono fun _ => .inl
  | fixed ty =>
    refine .ask fun t y _ hy => .inl ?_
    rw [kpri] at hy
    split at hy
    · next hty =>
      cases hy
      have hfixed := Ref.isFixed_iff.mp (isFixed_fixedRef hty)
      exact TRef.bears_of (by grind) (by grind) ty
    · cases hy

private theorem Laid.isLive_of (h : t.Laid) {r : Ref} (hr : t.isLive r = true) (ty : Ty) :
    t.isLive (TRef.of r ty).ref = true := by
  have hlt := ((t.isLive_iff r).mp hr).2
  rwa [TRef.ref_of (UInt32.le_trans (UInt32.le_of_lt hlt) h.nins_le)]

private theorem Laid.isLive_of_record (h : t.Laid) {r : Ref} {x : Record}
    (hx : t.view.record r = some x) :
    t.isLive r = true :=
  (t.isLive_iff r).mpr ((h.record_isSome_iff r).mp (Option.isSome_iff_exists.mpr ⟨x, hx⟩))

private theorem Laid.isLive_of_isFixed (h : t.Laid) {r : Ref} (hr : r.IsFixed) :
    t.isLive r = true := by
  obtain ⟨htrue, hbase⟩ := Ref.isFixed_iff.mp hr
  exact (t.isLive_iff r).mpr
    ⟨UInt32.le_trans h.nk_le htrue, UInt32.lt_trans hbase h.base_lt⟩

/-- An emission is answered with a reference that is live afterwards. -/
private theorem Placed.isLive {op : Opcode} {ty : Ty} {a b : Ref} (h : Placed t op ty a b y t')
    (hlaid : t.Laid) : t'.isLive y.ref = true := by
  cases h with
  | decided hfinds => exact hlaid.isLive_of (hlaid.isLive_of_isFixed (.inr (.inr rfl))) _
  | shared hop hx => exact hlaid.isLive_of (hlaid.isLive_of_record hx) ty
  | appended hlimit hlaid' hview =>
    have hnew := t.view.push_record_self { op, ty, left := a, right := b }
    rw [← hview] at hnew
    exact hlaid'.isLive_of (hlaid'.isLive_of_record hnew) ty

/-- **In a recording** every answer is live. -/
theorem Reachable.isLive_call (h : Reachable t) {k : Call} (hrun : k.action.run t = .ok y t') :
    t'.isLive y.ref = true := by
  have hlaid := h.sound.laid
  cases k with
  | emit op ty a b =>
    -- the operands may have been swapped
    rcases h.sound.placed_emit hrun with hplaced | ⟨-, hplaced⟩
    · exact hplaced.isLive hlaid
    · exact hplaced.isLive hlaid
  | emitRaw op ty a b => exact (hlaid.placed_emitRaw hrun).isLive hlaid
  | intern k =>
    cases hk : k.key? t.pool with
    | none =>
      obtain ⟨b, hrun'⟩ := Constant.run_intern_of_no_key hk
      rw [show k.intern.run t = .ok y t' from hrun] at hrun'
      cases hrun'
    | some key =>
      -- here the chains matter: they must list live constants only
      have hinterned := h.canonical.interned hk
      rw [show k.intern.run t = .ok y t' from hrun] at hinterned
      cases hinterned with
      | found hx hkey => exact hlaid.isLive_of (hlaid.isLive_of_record hx) _
      | added hnew hroom hbuffer hfor hadd hlaid' hview =>
        rename_i x
        have hnew := View.pushConstant_record_self
          { t.view with pool := k.poolAfter t.pool : View } x
        rw [← hview] at hnew
        exact hlaid'.isLive_of (hlaid'.isLive_of_record hnew) _
  | fixed ty =>
    have hask : (ask fun _ => kpri ty).run t = .ok y t' := hrun
    by_cases hty : ty.isPrimitive = true
    · rw [run_ask, kpri, if_pos hty] at hask
      cases hask
      exact hlaid.isLive_of (hlaid.isLive_of_isFixed (isFixed_fixedRef hty)) ty
    · rw [run_ask, kpri, if_neg hty] at hask
      cases hask

/-! ### The law -/

private theorem Contained.first_le (h : t.Contained c) : Ref.first ≤ t.nins := by
  have hbase := h.laid.base_lt
  grind

/-- A live reference is one and fits 16 bits. -/
private theorem Contained.fits_of_isLive (h : t.Contained c) {r : Ref} (hr : t.isLive r = true) :
    r ≠ Ref.none ∧ r.toNat < 0x10000 := by
  obtain ⟨hlow, hhigh⟩ := (t.isLive_iff r).mp hr
  have hpos := h.laid.nk_pos
  have hle := UInt32.le_iff_toNat_le.mp h.laid.nins_le
  rw [UInt32.le_iff_toNat_le] at hlow
  rw [UInt32.lt_iff_toNat_lt] at hhigh
  rw [Ref.toNat_limit] at hle
  refine ⟨fun hnone => ?_, by omega⟩
  rw [hnone, Ref.toNat_none] at hlow
  omega

/-- An instruction is refused at the limit, and enters below it. -/
private theorem Contained.refuses_iff (h : t.Contained c) (op : Opcode) (ty : Ty) (a b : Ref) :
    (∃ t', (emitRaw op ty a b).run t = .error (.refused .traceOverflow) t') ↔
      (t.nins.toNat : Int) = c.instructionEnd := by
  rw [← h.full_iff]
  constructor
  · rintro ⟨t', hrun⟩
    by_contra hroom
    obtain ⟨t₁, hrun₁, -⟩ := h.laid.run_emitRaw hroom op ty a b
    rw [hrun] at hrun₁
    cases hrun₁
  · intro hfull
    exact ⟨t, by rw [run_emitRaw, if_pos hfull]⟩

private theorem Contained.exists_emitRaw (h : t.Contained c)
    (hroom : (t.nins.toNat : Int) ≠ c.instructionEnd) (op : Opcode) (ty : Ty) (a b : Ref) :
    ∃ y t', (emitRaw op ty a b).run t = .ok y t' ∧ t'.isLive y.ref = true := by
  obtain ⟨t', hrun, -⟩ := h.laid.run_emitRaw (mt h.full_iff.mp hroom) op ty a b
  exact ⟨_, t', hrun, (h.laid.placed_emitRaw hrun).isLive h.laid⟩

/-- **Limits.** Whatever is done to a trace, it stays within the limits that its options set, and
so does every live reference. An instruction is refused exactly if the limit is reached. What is
answered is a reference and bears the type asked for, or the one that decides a comparison, and it
is live unless a constant was emitted as an instruction before. -/
theorem limits_hold {config : Config} {pool : Pool} (hstart : start config pool = .ok t)
    (hmax : config.maxInstructions < 0x80000000) (l : List Move) :
    (Ref.first ≤ (t.moves l).nins ∧
        ((t.moves l).nins.toNat : Int) ≤ config.normalize.instructionEnd ∧
        config.normalize.constantEnd ≤ (t.moves l).nk.toNat ∧ (t.moves l).nk ≤ Ref.true) ∧
      (∀ r, (t.moves l).isLive r = true → r ≠ Ref.none ∧ r.toNat < 0x10000) ∧
      (∀ op ty a b,
        ((∃ t', (emitRaw op ty a b).run (t.moves l) = .error (.refused .traceOverflow) t') ↔
          ((t.moves l).nins.toNat : Int) = config.normalize.instructionEnd) ∧
        (((t.moves l).nins.toNat : Int) ≠ config.normalize.instructionEnd →
          ∃ y t', (emitRaw op ty a b).run (t.moves l) = .ok y t' ∧ t'.isLive y.ref = true)) ∧
      ∀ (k : Call) y t', k.action.run (t.moves l) = .ok y t' →
        y ≠ .none ∧ (y.ty = k.ty.tag ∨ k.isComparison = true ∧ y = .of Ref.true Ty.true) ∧
        ((∀ m ∈ l, m.isProper = true) → t'.isLive y.ref = true) := by
  have h := (contained_of_start hmax hstart).moves l
  refine ⟨⟨h.first_le, h.nins_le, h.nk_ge, h.laid.nk_le⟩, fun r hr => h.fits_of_isLive hr,
    fun op ty a b => ⟨h.refuses_iff op ty a b, fun hroom => h.exists_emitRaw hroom op ty a b⟩,
    fun k y t' hrun => ?_⟩
  have hlive : (∀ m ∈ l, m.isProper = true) → t'.isLive y.ref = true := fun hl =>
    ((Reachable.start hstart).moves hl).isLive_call hrun
  rcases (confines_call k h).2 y t' hrun with hbears | ⟨hcompare, rfl⟩
  · exact ⟨hbears.ne_none, .inl hbears.ty_eq, hlive⟩
  · exact ⟨by decide, .inr ⟨hcompare, rfl⟩, hlive⟩

/-- One instruction fits beside `BASE`, and one constant beside the fixed ones. -/
def tightMoves : List Move :=
  [.step (.useFolder (some ⟨true, true⟩)), .step (.intern (.int 7)), .step (.intern (.int 8)),
    .emit .add Ty.int Ref.nil Ref.true, .emitRaw .sub Ty.int Ref.nil Ref.nil]

/-- A trace that is full at both ends refuses one more instruction, but still shares the one that it
has. -/
theorem limits_hold_of_tightMoves :
    ∃ t, start { maxInstructions := 2, maxConstants := 1 } {} = .ok t ∧
      (t.moves tightMoves).nins = Ref.first + 1 ∧ (t.moves tightMoves).nk = Ref.true - 1 ∧
      (∃ t', (emitRaw .sub Ty.int Ref.nil Ref.nil).run (t.moves tightMoves) =
        .error (.refused .traceOverflow) t') ∧
      ∃ y t', (emit .add Ty.int Ref.true Ref.nil).run (t.moves tightMoves) = .ok y t' ∧
        y ≠ .none ∧ t'.isLive y.ref = true := by
  obtain ⟨t, hstart⟩ : ∃ t, start { maxInstructions := 2, maxConstants := 1 } {} = .ok t :=
    ⟨_, rfl⟩
  have hnins : (t.moves tightMoves).nins = Ref.first + 1 := by
    cases hstart
    decide +kernel
  have hnk : (t.moves tightMoves).nk = Ref.true - 1 := by
    cases hstart
    decide +kernel
  have hshared :
      ∃ y t', (emit .add Ty.int Ref.true Ref.nil).run (t.moves tightMoves) = .ok y t' := by
    cases hstart
    exact ⟨_, _, rfl⟩
  obtain ⟨-, -, hraw, hanswer⟩ := limits_hold hstart (by decide) tightMoves
  obtain ⟨y, t', hrun⟩ := hshared
  obtain ⟨hne, -, hlive⟩ := hanswer (.emit .add Ty.int Ref.true Ref.nil) y t' hrun
  refine ⟨t, hstart, hnins, hnk, (hraw ..).1.mpr ?_, y, t', hrun, hne,
    hlive (List.all_eq_true.mp rfl)⟩
  rw [hnins]
  decide

/-- A constant is emitted as an instruction, the real constant follows it in the chain, and then
both leave again. -/
def nullAsInstruction : List Move :=
  [.emitRaw .knull Ty.int Ref.none Ref.none, .step (.intern (.null Ty.str)),
    .step (.rollback ⟨Ref.first, Ref.true, 0⟩)]

/-- The chain keeps what left, so a later request is answered with a reference that is not live. -/
theorem dead_answer_of_nullAsInstruction :
    ∃ t y t', start {} {} = .ok t ∧
      (Constant.null Ty.int).intern.run (t.moves nullAsInstruction) = .ok y t' ∧
      t'.isLive y.ref = false := by
  obtain ⟨t, hstart⟩ : ∃ t, start {} {} = .ok t := ⟨_, rfl⟩
  refine ⟨t, .of Ref.first Ty.int, t.moves nullAsInstruction, hstart, ?_, ?_⟩
  · cases hstart
    rfl
  · cases hstart
    decide +kernel

end Trace

end TraceIR
