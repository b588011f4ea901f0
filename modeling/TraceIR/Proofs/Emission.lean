import TraceIR.Proofs.Recording

/-!
# What a request that succeeds has done

Interning and emission answer with a reference. This file says where it comes from.

* `Sound.run_intern` — an interned constant is the newest one in its chain that matches, or it is
  new.
* `Trace.FindsTrue` — the comparisons of constants that the folder answers itself.
* `Trace.Placed` — an emitted instruction was decided, is shared with an equal one newer than both
  operands, or is new. `Sound.placed_emit` says that there is nothing else, and that the operands
  were at most swapped.
-/

namespace TraceIR

/-- A typed reference gives its reference back. -/
theorem TRef.ref_of {r : Ref} (h : r ≤ Ref.limit) (ty : Ty) : (TRef.of r ty).ref = r := by
  have hr : r.toNat ≤ 0xffff := UInt32.le_iff_toNat_le.mp h
  have hmask : (0xffff : UInt32).toNat = 2 ^ 16 - 1 := rfl
  rw [← UInt32.toNat_inj, TRef.of, TRef.ref, UInt32.toNat_and, UInt32.toNat_or, hmask,
    Nat.and_two_pow_sub_one_eq_mod, Nat.or_mod_two_pow, UInt32.toNat_shiftLeft,
    Nat.mod_eq_of_lt (a := r.toNat) (by omega)]
  -- the tag starts at bit 24, above the mask
  have htag : ty.tag.bits.toUInt32.toNat <<< ((24 : UInt32).toNat % 32) % 2 ^ 32 % 2 ^ 16 = 0 := by
    rw [Nat.shiftLeft_eq, show (24 : UInt32).toNat % 32 = 24 from rfl]
    omega
  rw [htag, Nat.or_zero]

/-- The first reference whose record satisfies the condition. -/
def View.findIn (v : View) (same : Record → Bool) (refs : List Ref) : Option Ref :=
  refs.findSome? fun r => (v.record r).bind fun x => if same x then some r else none

namespace Trace

variable {t t' : Trace} {y : TRef}

/-! ### Interning -/

theorem Laid.run_addConstant_of_ok (h : t.Laid) {x : Record}
    (hrun : (addConstant x).run t = .ok y t') :
    1 < t.nk ∧ y = .of (t.nk - 1) x.ty ∧ t'.Laid ∧ t'.view = t.view.pushConstant x := by
  by_cases hfull : t.ConstantsFull
  · rw [Trace.run_addConstant, if_pos hfull] at hrun
    cases hrun
  · cases hbuffer : t.roomBelow with
    | error e =>
      rw [Trace.run_addConstant, if_neg hfull, hbuffer] at hrun
      cases hrun
    | ok buffer =>
      obtain ⟨t₁, hrun₁, hlaid, hview⟩ := h.run_addConstant hfull hbuffer x
      rw [hrun₁] at hrun
      cases hrun
      exact ⟨Laid.one_lt_of_not_full hfull, rfl, hlaid, hview⟩

/-- Interning searches the chain of the opcode and adds the constant if it is not there. -/
theorem Laid.run_intern_eq (h : t.Laid) {same : Record → Bool} {ty : Ty} {x : Record}
    {refs : List Ref} (hchain : t.view.IsChain x.op refs) :
    (intern same ty x).run t =
      match t.view.findIn same refs with
      | some r => .ok (.of r ty) t
      | none => (addConstant x).run t := by
  have hfind : (find x.op same).run t = .ok (t.view.findIn same refs) t := by
    rw [find, run_ask, h.search_eq hchain]
    rfl
  rw [intern, run_bind_of_ok hfind]
  cases t.view.findIn same refs with
  | some r => rfl
  | none => rfl

/-- **Interning** answers with the newest constant that matches, or adds a new one. -/
theorem Sound.run_intern (h : t.Sound) {same : Record → Bool} {ty : Ty} {x : Record}
    {refs : List Ref} (hchain : t.view.IsChain x.op refs)
    (hrun : (intern same ty x).run t = .ok y t') :
    (∃ r, t.view.findIn same refs = some r ∧ y = .of r ty ∧ t' = t) ∨
      t.view.findIn same refs = none ∧ 1 < t.nk ∧ y = .of (t.nk - 1) x.ty ∧ t'.Laid ∧
        t'.view = t.view.pushConstant x := by
  rw [h.laid.run_intern_eq hchain] at hrun
  cases hfound : t.view.findIn same refs with
  | some r =>
    rw [hfound] at hrun
    cases hrun
    exact .inl ⟨r, rfl, rfl, rfl⟩
  | none =>
    rw [hfound] at hrun
    exact .inr ⟨rfl, h.laid.run_addConstant_of_ok hrun⟩

/-! ### Comparisons of constants -/

/-- A comparison is decided if both constants have a value and it holds of these. -/
theorem foldComparison_eq_some_iff {op : Opcode} {a b : Ref} :
    t.foldComparison op a b = .ok (some y) ↔
      y = .of Ref.true Ty.true ∧ ∃ va vb, t.value a = .ok va ∧ t.value b = .ok vb ∧
        t.outcome? op a b va vb = some true := by
  rw [foldComparison, fixedRef_true]
  constructor
  · intro h
    split at h
    · next va vb ha hb =>
      split at h
      · next hout => exact ⟨(Option.some.inj (Except.ok.inj h)).symm, va, vb, ha, hb, hout⟩
      · cases h
      · cases h
    all_goals cases h
  · rintro ⟨rfl, va, vb, ha, hb, hout⟩
    rw [ha, hb]
    dsimp only
    rw [hout]

/-- The folder answers the comparison itself: it compares two constants and holds. -/
structure FindsTrue (t : Trace) (op : Opcode) (a b : Ref) : Prop where
  folds : ∃ f, t.folder = some f ∧ f.fold = true
  comparison : op.isComparison = true
  left : a.isConst = true
  right : b.isConst = true
  holds : t.foldComparison op a b = .ok (some (.of Ref.true Ty.true))

/-! ### Emission -/

/-- Where the result of an emission comes from. -/
inductive Placed (t : Trace) (op : Opcode) (ty : Ty) (a b : Ref) : TRef → Trace → Prop
  | decided (h : t.FindsTrue op a b) : Placed t op ty a b (.of Ref.true Ty.true) t
  | shared {r : Ref} {x : Record} (hop : op.isNormal = true) (hx : t.view.record r = some x)
      (hxop : x.op = op) (ha : a < r) (hb : b < r) (hleft : x.left = a) (hright : x.right = b)
      (hty : x.ty.tag = ty.tag) : Placed t op ty a b (.of r ty) t
  | appended {t' : Trace} (hlimit : t.nins < Ref.limit) (hlaid : t'.Laid)
      (hview : t'.view = t.view.push { op, ty, left := a, right := b }) :
      Placed t op ty a b (.of t.nins ty) t'

variable {op : Opcode} {ty : Ty} {a b : Ref}

theorem Laid.placed_emitRaw (h : t.Laid) (hrun : (emitRaw op ty a b).run t = .ok y t') :
    Placed t op ty a b y t' := by
  by_cases hfull : t.InstructionsFull
  · rw [Trace.run_emitRaw, if_pos hfull] at hrun
    cases hrun
  · obtain ⟨t₁, hrun₁, hlaid, hview⟩ := h.run_emitRaw hfull op ty a b
    rw [hrun₁] at hrun
    cases hrun
    exact .appended (Laid.lt_limit_of_not_full hfull) hlaid hview

theorem lt_of_not_le_max {r : Ref} (h : ¬ r ≤ max a b) : a < r ∧ b < r := by
  change ¬ r ≤ if a ≤ b then b else a at h
  by_cases hab : a ≤ b
  · rw [if_pos hab] at h
    exact ⟨UInt32.lt_of_le_of_lt hab (UInt32.not_le.mp h), UInt32.not_le.mp h⟩
  · rw [if_neg hab] at h
    exact ⟨UInt32.not_le.mp h, UInt32.lt_trans (UInt32.not_le.mp hab) (UInt32.not_le.mp h)⟩

/-- An instruction that is shared is equal and newer than both operands. -/
private theorem Sound.placed_emitShared (h : t.Sound) (hop : op.isNormal = true)
    (hrun : (emitShared op ty a b).run t = .ok y t') : Placed t op ty a b y t' := by
  obtain ⟨refs, hchain⟩ := h.wellFormed.chains op
  rw [emitShared, run_bind_of_ok (by rw [run_ask, h.laid.search_eq hchain])] at hrun
  generalize hfound : refs.findSome? _ = found at hrun
  cases hjoin : found.join with
  | none =>
    rw [hjoin] at hrun
    exact h.laid.placed_emitRaw hrun
  | some r =>
    rw [hjoin] at hrun
    cases hrun
    obtain rfl := Option.join_eq_some_iff.mp hjoin
    obtain ⟨q, hq, hprobe⟩ := List.exists_of_findSome?_eq_some hfound
    obtain ⟨x, hx, hprobe⟩ := Option.bind_eq_some_iff.mp hprobe
    obtain ⟨-, x', hx', hxop⟩ := (hchain.mem_iff q).mp hq
    obtain rfl := Option.some.inj (hx.symm.trans hx')
    -- the search gives up at the newer operand, so what it finds is newer than both
    by_cases hold : q ≤ max a b
    · rw [if_pos hold] at hprobe
      cases hprobe
    rw [if_neg hold] at hprobe
    by_cases heq : (x.left == a && x.right == b && x.ty.tag == ty.tag) = true
    · rw [if_pos heq] at hprobe
      cases hprobe
      simp only [Bool.and_eq_true, beq_iff_eq] at heq
      obtain ⟨ha, hb⟩ := lt_of_not_le_max hold
      exact .shared hop hx hxop ha hb heq.1.1 heq.1.2 heq.2
    · rw [if_neg heq] at hprobe
      cases hprobe

private theorem Sound.placed_place (h : t.Sound) {f : Folder}
    (hrun : (place f op ty a b).run t = .ok y t') : Placed t op ty a b y t' := by
  rw [place] at hrun
  by_cases hshare : (f.cse && op.isNormal) = true
  · rw [if_pos hshare] at hrun
    exact h.placed_emitShared (Bool.and_eq_true_iff.mp hshare).2 hrun
  · rw [if_neg hshare] at hrun
    exact h.laid.placed_emitRaw hrun

private theorem Sound.placed_emitDecided (h : t.Sound) {f : Folder} (hfolder : t.folder = some f)
    (hrun : (emitDecided f op ty a b).run t = .ok y t') : Placed t op ty a b y t' := by
  rw [emitDecided] at hrun
  by_cases hdecide : (f.fold && op.isComparison && a.isConst && b.isConst) = true
  · rw [if_pos hdecide, EStateM.run_bind, EStateM.run_get] at hrun
    dsimp only at hrun
    simp only [Bool.and_eq_true] at hdecide
    obtain ⟨⟨⟨hfold, hop⟩, ha⟩, hb⟩ := hdecide
    cases hfound : t.foldComparison op a b with
    | error e =>
      rw [hfound] at hrun
      cases hrun
    | ok found =>
      rw [hfound] at hrun
      cases found with
      | some x =>
        cases hrun
        obtain ⟨rfl, -⟩ := foldComparison_eq_some_iff.mp hfound
        exact .decided ⟨⟨f, hfolder, hfold⟩, hop, ha, hb, hfound⟩
      | none => exact h.placed_place hrun
  · rw [if_neg hdecide] at hrun
    exact h.placed_place hrun

/-- **Emission.** Operands are swapped only if the opcode commutes. -/
theorem Sound.placed_emit (h : t.Sound) (hrun : (emit op ty a b).run t = .ok y t') :
    Placed t op ty a b y t' ∨ op.shape.commutative = true ∧ Placed t op ty b a y t' := by
  rw [emit, EStateM.run_bind, EStateM.run_get] at hrun
  dsimp only at hrun
  cases hfolder : t.folder with
  | none =>
    rw [hfolder] at hrun
    exact .inl (h.laid.placed_emitRaw hrun)
  | some f =>
    rw [hfolder] at hrun
    dsimp only at hrun
    by_cases hswap : (f.fold && op.shape.commutative && decide (a < b)) = true
    · rw [if_pos hswap] at hrun
      simp only [Bool.and_eq_true] at hswap
      exact .inr ⟨hswap.1.2, h.placed_emitDecided hfolder hrun⟩
    · rw [if_neg hswap] at hrun
      exact .inl (h.placed_emitDecided hfolder hrun)

end Trace

end TraceIR
