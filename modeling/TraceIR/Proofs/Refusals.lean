import TraceIR.Proofs.Limits

/-!
# Refusals leave a trace alone

An instruction can be refused because the trace is full or because a guard could never hold, and a
constant because there are too many. Whoever asked may go on with the trace, so a refusal must not
leave half of the work behind.

* `Trace.Refuses` — an action that is refused leaves the trace as it was, and the reason is a given
  one. Looking at the trace before acting keeps that (`Refuses.ask_bind`, `Refuses.get_bind`), so the
  one thing left to check of an action is the step that changes something.
* `Trace.Declined` — the reasons for which an instruction is refused, beside `Trace.Placed` for those
  that are taken.
* `Trace.refusal_changes_pool_only` — a call that is refused changes nothing but the pool, and that
  only by the number it asked for.
-/

namespace TraceIR

namespace Trace

variable {α β : Type} {t t' : Trace} {op : Opcode} {a b : Ref}

/-! ### Actions that are refused -/

/-- If the action is refused, then for a reason that satisfies `R`, and the trace is as before. -/
def Refuses (R : Trace → Refusal → Prop) (act : Action α) : Prop :=
  ∀ ⦃t t' : Trace⦄ ⦃r : Refusal⦄, act.run t = .error (.refused r) t' → t' = t ∧ R t r

namespace Refuses

variable {R R' : Trace → Refusal → Prop} {act : Action α}

private theorem mono (h : Refuses R act) (hR : ∀ t r, R t r → R' t r) : Refuses R' act := by
  intro t t' r hrun
  obtain ⟨htrace, hr⟩ := h hrun
  exact ⟨htrace, hR t r hr⟩

/-- What is answered at once is not refused. -/
private theorem pure (x : α) : Refuses R (pure x : Action α) := by
  intro t t' r hrun
  cases hrun

/-- A question changes nothing, and if it fails that is no refusal. -/
theorem ask_bind {q : Trace → Except Breach β} {f : β → Action α} (hf : ∀ x, Refuses R (f x)) :
    Refuses R (ask q >>= f) := by
  intro t t' r hrun
  rw [EStateM.run_bind, run_ask] at hrun
  cases hq : q t with
  | error e =>
    rw [hq] at hrun
    cases hrun
  | ok x =>
    rw [hq] at hrun
    exact hf x hrun

/-- An action that depends on the trace it meets. -/
theorem get_bind {f : Trace → Action α} (hf : ∀ t, Refuses (fun t' r => t' = t → R t r) (f t)) :
    Refuses R (MonadState.get >>= f) := by
  intro t t' r hrun
  rw [EStateM.run_bind, EStateM.run_get] at hrun
  obtain ⟨htrace, hr⟩ := hf t hrun
  exact ⟨htrace, hr rfl⟩

end Refuses

/-! ### Instructions -/

/-- The folder finds that the comparison of two constants fails. -/
structure FindsFalse (t : Trace) (op : Opcode) (a b : Ref) (va vb : Value) : Prop where
  folds : ∃ f, t.folder = some f ∧ f.fold = true
  comparison : op.isComparison = true
  left : t.value a = .ok va
  right : t.value b = .ok vb
  fails : t.outcome? op a b va vb = some false

/-- Why an instruction is refused. -/
inductive Declined (t : Trace) (op : Opcode) (a b : Ref) : Refusal → Prop
  | full (h : t.InstructionsFull) : Declined t op a b .traceOverflow
  | guard {va vb : Value} (h : t.FindsFalse op a b va vb) :
      Declined t op a b (.guardFails op va vb)

/-- A refusal by the folder names the comparison and the values that it found. -/
private theorem foldComparison_eq_refused {r : Refusal}
    (h : t.foldComparison op a b = .error (.refused r)) :
    ∃ va vb, r = .guardFails op va vb ∧ t.value a = .ok va ∧ t.value b = .ok vb ∧
      t.outcome? op a b va vb = some false := by
  rw [foldComparison] at h
  split at h
  · next va vb ha hb =>
    split at h
    · cases h
    · next hout =>
      cases h
      exact ⟨va, vb, rfl, ha, hb, hout⟩
    · cases h
  · cases h
  -- what is left is a value that cannot be read, and that is a broken rule
  · next f hnot ha =>
    cases h
    exact absurd rfl (hnot r)
  · cases h
  · next f hnot hb _ _ =>
    cases h
    exact absurd rfl (hnot r)

private theorem refuses_emitRaw (op : Opcode) (ty : Ty) (a b : Ref) :
    Refuses (fun t r => r = .traceOverflow ∧ t.InstructionsFull) (emitRaw op ty a b) := by
  intro t t' r hrun
  rw [run_emitRaw] at hrun
  split at hrun
  · next hfull =>
    cases hrun
    exact ⟨rfl, rfl, hfull⟩
  · split at hrun
    · cases hrun
    · cases hrun

private theorem refuses_emitShared (op : Opcode) (ty : Ty) (a b : Ref) :
    Refuses (fun t r => r = .traceOverflow ∧ t.InstructionsFull) (emitShared op ty a b) := by
  apply Refuses.ask_bind
  intro found
  cases found.join with
  | some r => exact .pure _
  | none => exact refuses_emitRaw op ty a b

private theorem refuses_place (f : Folder) (op : Opcode) (ty : Ty) (a b : Ref) :
    Refuses (fun t r => r = .traceOverflow ∧ t.InstructionsFull) (place f op ty a b) := by
  unfold place
  split
  · exact refuses_emitShared op ty a b
  · exact refuses_emitRaw op ty a b

private theorem refuses_emitDecided {f : Folder} (op : Opcode) (ty : Ty) (a b : Ref) :
    Refuses (fun t r => t.folder = some f → t.Declined op a b r) (emitDecided f op ty a b) := by
  have hplace : Refuses (fun t r => t.folder = some f → t.Declined op a b r)
      (place f op ty a b) := by
    refine (refuses_place f op ty a b).mono ?_
    rintro t r ⟨rfl, hfull⟩ -
    exact .full hfull
  unfold emitDecided
  split
  · next hdecide =>
    simp only [Bool.and_eq_true] at hdecide
    obtain ⟨⟨⟨hfold, hop⟩, -⟩, -⟩ := hdecide
    apply Refuses.get_bind
    intro t
    cases hfound : t.foldComparison op a b with
    | error e =>
      -- the folder gives up before anything is emitted
      intro t₁ t' r hrun
      cases hrun
      refine ⟨rfl, ?_⟩
      rintro rfl hfolder
      obtain ⟨va, vb, rfl, ha, hb, hout⟩ := foldComparison_eq_refused hfound
      exact .guard ⟨⟨f, hfolder, hfold⟩, hop, ha, hb, hout⟩
    | ok found =>
      cases found with
      | some y => exact .pure y
      | none =>
        refine hplace.mono ?_
        rintro t₁ r hr rfl
        exact hr
  · exact hplace

/-- **Emission.** A folder may have swapped the operands of an opcode that commutes. -/
theorem refuses_emit (op : Opcode) (ty : Ty) (a b : Ref) :
    Refuses (fun t r => t.Declined op a b r ∨
      op.shape.commutative = true ∧ t.Declined op b a r) (emit op ty a b) := by
  apply Refuses.get_bind
  intro t
  cases hfolder : t.folder with
  | none =>
    refine (refuses_emitRaw op ty a b).mono ?_
    rintro t₁ r ⟨rfl, hfull⟩ rfl
    exact .inl (.full hfull)
  | some f =>
    dsimp only
    split
    · next hswap =>
      simp only [Bool.and_eq_true] at hswap
      refine (refuses_emitDecided op ty b a).mono ?_
      rintro t₁ r hr rfl
      exact .inr ⟨hswap.1.2, hr hfolder⟩
    · refine (refuses_emitDecided op ty a b).mono ?_
      rintro t₁ r hr rfl
      exact .inl (hr hfolder)

/-! ### Constants -/

private theorem refuses_addConstant (x : Record) :
    Refuses (fun t r => r = .constOverflow ∧ t.ConstantsFull) (addConstant x) := by
  intro t t' r hrun
  rw [run_addConstant] at hrun
  split at hrun
  · next hfull =>
    cases hrun
    exact ⟨rfl, rfl, hfull⟩
  · split at hrun
    · split at hrun
      · cases hrun
      · cases hrun
    · cases hrun

private theorem refuses_intern (same : Record → Bool) (ty : Ty) (x : Record) :
    Refuses (fun t r => r = .constOverflow ∧ t.ConstantsFull) (intern same ty x) := by
  apply Refuses.ask_bind
  intro found
  cases found with
  | some r => exact .pure _
  | none => exact refuses_addConstant x

/-- **A request for a constant** that is refused has put its number into the pool. -/
theorem Constant.refused {k : Constant} {r : Refusal}
    (hrun : k.intern.run t = .error (.refused r) t') :
    t' = { t with pool := k.poolAfter t.pool } ∧ r = .constOverflow ∧ t.ConstantsFull := by
  cases hk : k.key? t.pool with
  | none =>
    obtain ⟨e, hbroken⟩ := run_intern_of_no_key hk
    rw [hbroken] at hrun
    cases hrun
  | some key =>
    obtain ⟨act, hseeks, hseek⟩ := exists_seeks hk
    rw [hseek] at hrun
    cases hseeks with
    | intern hsame hx hty hty' =>
      obtain ⟨rfl, hr, hfull⟩ := refuses_intern _ _ _ hrun
      exact ⟨rfl, hr, hfull⟩

end Trace

/-! ### Calls -/

namespace Call

/-- The pool after the call. -/
def poolAfter (p : Pool) : Call → Pool
  | intern k => k.poolAfter p
  | _ => p

/-- Why the call is refused. -/
def Declined (t : Trace) (r : Refusal) : Call → Prop
  | emit op _ a b => t.Declined op a b r ∨ op.shape.commutative = true ∧ t.Declined op b a r
  | emitRaw .. => r = .traceOverflow ∧ t.InstructionsFull
  | intern _ => r = .constOverflow ∧ t.ConstantsFull
  | fixed _ => False

private theorem poolAfter_of_refused {t t' : Trace} {k : Call} {r : Refusal}
    (hrun : k.action.run t = .error (.refused r) t') :
    t' = { t with pool := k.poolAfter t.pool } ∧ k.Declined t r := by
  cases k with
  | emit op ty a b => exact Trace.refuses_emit op ty a b hrun
  | emitRaw op ty a b => exact Trace.refuses_emitRaw op ty a b hrun
  | intern k => exact Trace.Constant.refused hrun
  | fixed ty =>
    rw [action, Trace.run_ask] at hrun
    split at hrun
    · cases hrun
    · cases hrun

/-- The pool only gains slots. -/
private theorem get?_poolAfter (k : Call) {p : Pool} {i : Nat} {n : Binary64}
    (h : p.get? i = some n) :
    (k.poolAfter p).get? i = some n := by
  cases k with
  | intern k => exact k.get?_poolAfter h
  | _ => exact h

end Call

namespace Trace

/-- **A call that is refused** leaves the trace exactly as it was: its range, its records and their
links, the newest record of every opcode, the snapshots, the guard mark and the buffer. Only the
pool may have gained a slot, for the number that was asked for, and the slots that were taken before
keep their patterns. The reason is one of three: no reference is left for an instruction or for a
constant, or a comparison of two constants fails. -/
theorem refusal_changes_pool_only {t t' : Trace} {k : Call} {r : Refusal}
    (hrun : k.action.run t = .error (.refused r) t') :
    t' = { t with pool := t'.pool } ∧
      (t'.pool = t.pool ∨ ∃ c x, k = .intern c ∧ c.demand = .number x ∧
        t'.pool = (t.pool.find x).2) ∧
      (∀ i n, t.pool.get? i = some n → t'.pool.get? i = some n) ∧
      k.Declined t r ∧
      (r = .traceOverflow ∨ r = .constOverflow ∨ ∃ op va vb, r = .guardFails op va vb) := by
  obtain ⟨rfl, hdeclined⟩ := Call.poolAfter_of_refused hrun
  refine ⟨rfl, ?_, fun i n hn => k.get?_poolAfter hn, hdeclined, ?_⟩
  · cases k with
    | intern c =>
      cases hc : c.demand with
      | number x =>
        refine .inr ⟨c, x, rfl, hc, ?_⟩
        show c.poolAfter t.pool = _
        rw [Constant.poolAfter, hc]
      | key k | absurd =>
        left
        show c.poolAfter t.pool = _
        rw [Constant.poolAfter, hc]
    | emit op ty a b | emitRaw op ty a b | fixed ty => exact .inl rfl
  · cases k with
    | emit op ty a b =>
      rcases hdeclined with h | ⟨-, h⟩
      · cases h with
        | full => exact .inl rfl
        | guard => exact .inr (.inr ⟨_, _, _, rfl⟩)
      · cases h with
        | full => exact .inl rfl
        | guard => exact .inr (.inr ⟨_, _, _, rfl⟩)
    | emitRaw op ty a b => exact .inl hdeclined.1
    | intern c => exact .inr (.inl hdeclined.1)
    | fixed ty => exact hdeclined.elim

/-- With room for one constant only, a second one is refused after its number has entered the
pool. -/
theorem refusal_changes_pool_only_of_second_number :
    ∃ t t', Reachable t ∧
      (Call.intern (.num ⟨0x3ff8000000000000⟩)).action.run t =
        .error (.refused .constOverflow) t' ∧
      t' = { t with pool := t'.pool } ∧ t.pool.size = 0 ∧ t'.pool.size = 1 ∧
      t.record? 0x7ffc = .ok { op := .kint, ty := Ty.int, payload := .int 7 } := by
  obtain ⟨t₀, ht₀⟩ : ∃ t, start { maxConstants := 1 } {} = .ok t := ⟨_, rfl⟩
  have hreachable := (Reachable.start ht₀).step (.intern (.int 7))
  generalize ht : t₀.step (.intern (.int 7)) = t at hreachable
  obtain ⟨t', hrun, hsize, hsize', hrecord⟩ : ∃ t',
      (Call.intern (.num ⟨0x3ff8000000000000⟩)).action.run t =
        .error (.refused .constOverflow) t' ∧ t.pool.size = 0 ∧ t'.pool.size = 1 ∧
        t.record? 0x7ffc = .ok { op := .kint, ty := Ty.int, payload := .int 7 } := by
    subst ht
    cases ht₀
    exact ⟨_, rfl, rfl, rfl, rfl⟩
  exact ⟨t, t', hreachable, hrun, (refusal_changes_pool_only hrun).1, hsize, hsize', hrecord⟩

end Trace

end TraceIR
