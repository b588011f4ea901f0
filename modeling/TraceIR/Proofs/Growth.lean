import Mathlib.Logic.Relation
import TraceIR.Proofs.Chain
import TraceIR.Trace.Coerce

/-!
# What recording can do to a trace

Emission, interning and conversion go through folding, sharing and look-ups, but what they leave
behind is always the same few changes. This file says once what these are, so that an invariant of
recording is proved for each kind of change and not for each operation.

* `View.Growth` — one change: a record enters, a snapshot is taken, a number gets its place in the
  pool, or the guard mark is reset.
* `Trace.Grows t t'` — `t'` comes from `t` by such changes, and its layout stays sound.
* `grows_emit`, `grows_constant`, `grows_coerce` — recording grows a trace, whether it succeeds,
  refuses or breaks a rule.
-/

namespace TraceIR

/-- One change that recording makes. -/
inductive View.Growth (v : View) : View → Prop
  | pool (x : Binary64) : Growth v { v with pool := (v.pool.find x).2 }
  | resetGuard : Growth v { v with guardEmitted := false }
  | snapshot (refs : List Ref) : Growth v { v with snapshots := v.snapshots.push refs }
  | push (x : Record) (hop : x.op.isConst = false) (hlimit : v.nins < Ref.limit) :
      Growth v (v.push x)
  | pushConstant (x : Record) (hop : x.op.isConst = true) (hone : 1 < v.nk) :
      Growth v (v.pushConstant x)

/-- A change keeps a view well formed. -/
private theorem View.WellFormed.growth {v v' : View} (h : v.WellFormed) (hg : v.Growth v') :
    v'.WellFormed := by
  cases hg with
  | pool x => exact h.of_eq rfl rfl rfl rfl
  | resetGuard => exact h.of_eq rfl rfl rfl rfl
  | snapshot refs => exact h.of_eq rfl rfl rfl rfl
  | push x hop hlimit => exact h.push hlimit hop
  | pushConstant x hop hone => exact h.pushConstant hone hop

/-- Any number of changes keep a view well formed. -/
theorem View.WellFormed.growths {v v' : View} (h : v.WellFormed)
    (hg : Relation.ReflTransGen View.Growth v v') : v'.WellFormed := by
  induction hg with
  | refl => exact h
  | tail _ hstep ih => exact ih.growth hstep

namespace Trace

/-- A trace whose layout is sound becomes `t'` by changes that recording makes. -/
def Grows (t t' : Trace) : Prop :=
  t.Laid → t'.Laid ∧ Relation.ReflTransGen View.Growth t.view t'.view

namespace Grows

variable {t t' t'' : Trace}

theorem refl (t : Trace) : t.Grows t :=
  fun h => ⟨h, .refl⟩

private theorem trans (h : t.Grows t') (h' : t'.Grows t'') : t.Grows t'' := by
  intro hlaid
  obtain ⟨hlaid', hg⟩ := h hlaid
  obtain ⟨hlaid'', hg'⟩ := h' hlaid'
  exact ⟨hlaid'', hg.trans hg'⟩

/-- A change that leaves the records alone. -/
theorem of_growth (hconfig : t'.config = t.config) (hnins : t'.nins = t.nins)
    (hnk : t'.nk = t.nk) (hbuffer : t'.buffer = t.buffer) (hg : t.view.Growth t'.view) :
    t.Grows t' :=
  fun h => ⟨h.of_view hconfig hnins hnk hbuffer, .single hg⟩

/-- If each of two actions only makes a trace grow, so do the two in a row. -/
theorem bind {α β : Type} {a : Action α} {f : α → Action β} (ha : t.Grows (t.after a))
    (hf : ∀ x t', a.run t = .ok x t' → t'.Grows (t'.after (f x))) :
    t.Grows (t.after (a >>= f)) := by
  rw [after_bind]
  cases hrun : a.run t with
  | ok x t' =>
    rw [after_of_ok hrun] at ha
    exact ha.trans (hf x t' hrun)
  | error e t' =>
    rw [after_of_error hrun] at ha
    exact ha

private theorem ask_bind {α β : Type} {q : Trace → Except Breach α} {f : α → Action β}
    (hf : ∀ x, t.Grows (t.after (f x))) : t.Grows (t.after (ask q >>= f)) := by
  refine bind (by rw [after_ask]; exact refl t) fun x t' hrun => ?_
  rw [run_ask] at hrun
  cases hq : q t with
  | ok a =>
    rw [hq] at hrun
    cases hrun
    exact hf x
  | error e =>
    rw [hq] at hrun
    cases hrun

end Grows

variable (t : Trace)

/-! ### Records -/

theorem grows_emitRaw {op : Opcode} (hop : op.isConst = false) (ty : Ty) (a b : Ref) :
    t.Grows (t.after (emitRaw op ty a b)) := by
  intro h
  by_cases hfull : t.InstructionsFull
  · rw [after_of_error (by rw [run_emitRaw, if_pos hfull])]
    exact ⟨h, .refl⟩
  · obtain ⟨t', hrun, hlaid, hview⟩ := h.run_emitRaw hfull op ty a b
    rw [after_of_ok hrun, hview]
    exact ⟨hlaid, .single (.push _ hop (Laid.lt_limit_of_not_full hfull))⟩

private theorem grows_addConstant {x : Record} (hop : x.op.isConst = true) :
    t.Grows (t.after (addConstant x)) := by
  intro h
  by_cases hfull : t.ConstantsFull
  · rw [after_of_error (by rw [run_addConstant, if_pos hfull])]
    exact ⟨h, .refl⟩
  · cases hbuffer : t.roomBelow with
    | error e =>
      rw [after_of_error (by rw [run_addConstant, if_neg hfull, hbuffer])]
      exact ⟨h, .refl⟩
    | ok buffer =>
      obtain ⟨t', hrun, hlaid, hview⟩ := h.run_addConstant hfull hbuffer x
      rw [after_of_ok hrun, hview]
      exact ⟨hlaid, .single (.pushConstant x hop (Laid.one_lt_of_not_full hfull))⟩

theorem grows_intern (same : Record → Bool) (ty : Ty) {x : Record} (hop : x.op.isConst = true) :
    t.Grows (t.after (intern same ty x)) := by
  refine Grows.ask_bind fun found => ?_
  cases found with
  | some r => exact .refl t
  | none => exact grows_addConstant t hop

/-! ### Constants -/

private theorem grows_kint (k : Int32) : t.Grows (t.after (kint k)) :=
  grows_intern t _ _ rfl

private theorem grows_knumSlot (s : NumSlot) : t.Grows (t.after (knumSlot s)) :=
  grows_intern t _ _ rfl

/-- The pool grows even if the constant is refused. -/
private theorem grows_knum (x : Binary64) : t.Grows (t.after (knum x)) := by
  have hpool : t.Grows { t with pool := (t.pool.find x).2 } :=
    .of_growth rfl rfl rfl rfl (.pool x)
  exact hpool.trans (grows_knumSlot _ _)

private theorem grows_knumInt (x : Binary64) : t.Grows (t.after (knumInt x)) := by
  rw [knumInt]
  cases x.int32? with
  | some k => exact grows_kint t k
  | none => exact grows_knum t x

private theorem grows_kgc (o : Option Object) (ty : Ty) : t.Grows (t.after (kgc o ty)) := by
  cases o with
  | none => exact .refl t
  | some o => exact grows_intern t _ _ rfl

private theorem grows_kslot (key : TRef) (slot : Ref) : t.Grows (t.after (kslot key slot)) := by
  rw [kslot]
  by_cases hkey : !key.isConst ∨ Ref.limit < slot
  · rw [if_pos hkey]
    exact .refl t
  · rw [if_neg hkey]
    exact grows_intern t _ _ rfl

theorem grows_constant (k : Constant) : t.Grows (t.after k.intern) := by
  cases k with
  | int k => exact grows_kint t k
  | num x => exact grows_knum t x
  | numInt x => exact grows_knumInt t x
  | numToBit => exact grows_knum t bitBias
  | numAbs => exact grows_knumSlot t .absMask
  | numNeg => exact grows_knumSlot t .negMask
  | object o ty => exact grows_kgc t o ty
  | pointer p => exact grows_intern t _ _ rfl
  | null ty => exact grows_intern t _ _ rfl
  | slot key n => exact grows_kslot t key n

/-! ### Emission -/

private theorem grows_emitShared {op : Opcode} (hop : op.isConst = false) (ty : Ty) (a b : Ref) :
    t.Grows (t.after (emitShared op ty a b)) := by
  refine Grows.ask_bind fun found => ?_
  cases found.join with
  | some r => exact .refl t
  | none => exact grows_emitRaw t hop ty a b

private theorem grows_place (f : Folder) {op : Opcode} (hop : op.isConst = false) (ty : Ty)
    (a b : Ref) :
    t.Grows (t.after (place f op ty a b)) := by
  rw [place]
  split
  · exact grows_emitShared t hop ty a b
  · exact grows_emitRaw t hop ty a b

private theorem grows_emitDecided (f : Folder) {op : Opcode} (hop : op.isConst = false) (ty : Ty)
    (a b : Ref) : t.Grows (t.after (emitDecided f op ty a b)) := by
  rw [emitDecided]
  split
  · rw [after_bind, EStateM.run_get]
    dsimp only
    cases t.foldComparison op a b with
    | error e => exact .refl t
    | ok found =>
      cases found with
      | some x => exact .refl t
      | none => exact grows_place t f hop ty a b
  · exact grows_place t f hop ty a b

theorem grows_emit {op : Opcode} (hop : op.isConst = false) (ty : Ty) (a b : Ref) :
    t.Grows (t.after (emit op ty a b)) := by
  rw [emit, after_bind, EStateM.run_get]
  dsimp only
  cases t.folder with
  | none => exact grows_emitRaw t hop ty a b
  | some f =>
    dsimp only
    split
    · exact grows_emitDecided t f hop ty b a
    · exact grows_emitDecided t f hop ty a b

/-! ### Conversions -/

private theorem grows_numberOrString (c : Coercion) (x : TRef) :
    t.Grows (t.after (numberOrString c x)) := by
  rw [numberOrString]
  split
  · exact grows_emit t rfl _ _ _
  split
  · exact .refl t
  · exact .refl t

theorem grows_coerce (c : Coercion) (x : TRef) : t.Grows (t.after (coerce c x)) := by
  cases c with
  | toNum =>
    rw [coerce, toNum]
    split
    · exact .refl t
    split
    · exact grows_emit t rfl _ _ _
    split
    · exact grows_emit t rfl _ _ _
    · exact .refl t
  | toStr =>
    rw [coerce, toStr]
    split
    · exact .refl t
    split
    · exact grows_emit t rfl _ _ _
    · exact .refl t
  | toBit =>
    rw [coerce, toBit]
    split
    · exact .refl t
    · refine .bind (grows_numberOrString t _ x) fun y t₁ _ => ?_
      exact .bind (grows_knum t₁ _) fun k t₂ _ => grows_emit t₂ rfl _ _ _
  | toInt =>
    rw [coerce, toInt]
    split
    · exact .refl t
    · exact .bind (grows_numberOrString t _ x) fun y t₁ _ => grows_emit t₁ rfl _ _ _

end Trace

end TraceIR
