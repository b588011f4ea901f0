import TraceIR.Trace.Chain

/-!
# Running the basic actions

An `Action` is opened here once. Each basic action has one equation that says what it answers and
what it leaves behind, failures included, so that later proofs rewrite with `run_…` and never
unfold a `do` block of `TraceIR.Trace.Basic`.

* `Trace.after` — the trace that an action leaves behind, whether it succeeds or fails.
* `run_emitRaw` and `run_addConstant` — the two ways in which a record enters a trace.
-/

namespace TraceIR.Trace

/-! ### Sequences -/

section Bind

variable {ε σ α β : Type} {a : EStateM ε σ α} {f : α → EStateM ε σ β} {s s' : σ}

theorem run_bind_of_ok {x : α} (h : a.run s = .ok x s') (f : α → EStateM ε σ β) :
    (a >>= f).run s = (f x).run s' := by
  rw [EStateM.run_bind, h]

theorem run_bind_of_error {e : ε} (h : a.run s = .error e s') (f : α → EStateM ε σ β) :
    (a >>= f).run s = .error e s' := by
  rw [EStateM.run_bind, h]

/-- A sequence that succeeds consists of two actions that succeed. -/
theorem exists_of_run_bind {y : β} (h : (a >>= f).run s = .ok y s') :
    ∃ x s₁, a.run s = .ok x s₁ ∧ (f x).run s₁ = .ok y s' := by
  cases ha : a.run s with
  | ok x s₁ =>
    rw [run_bind_of_ok ha] at h
    exact ⟨x, s₁, rfl, h⟩
  | error e s₁ =>
    rw [run_bind_of_error ha] at h
    cases h

/-- A sequence that fails fails in its first action, or that succeeds and the second one fails. -/
theorem error_cases_of_run_bind {e : ε} (h : (a >>= f).run s = .error e s') :
    a.run s = .error e s' ∨ ∃ x s₁, a.run s = .ok x s₁ ∧ (f x).run s₁ = .error e s' := by
  cases ha : a.run s with
  | ok x s₁ =>
    rw [run_bind_of_ok ha] at h
    exact .inr ⟨x, s₁, rfl, h⟩
  | error e₁ s₁ =>
    rw [run_bind_of_error ha] at h
    cases h
    exact .inl rfl

end Bind

/-! ### Single steps -/

theorem run_ask {α : Type} (q : Trace → Except Breach α) (t : Trace) :
    (ask q).run t =
      match q t with
      | .ok a => .ok a t
      | .error e => .error (.broken e) t := by
  simp only [ask, EStateM.run_bind, EStateM.run_get]
  cases q t with
  | ok a => rfl
  | error e => rfl

theorem run_slot (r : Ref) (t : Trace) :
    (slot r).run t =
      match t.buffer.get? r with
      | some x => .ok x t
      | none => .error (.broken .outOfBounds) t := by
  simp only [slot, EStateM.run_bind, EStateM.run_get]
  cases t.buffer.get? r with
  | some x => rfl
  | none => rfl

@[simp] theorem run_setHead (op : Opcode) (r : Ref) (t : Trace) :
    (setHead op r).run t = .ok () { t with heads := t.heads.set op r } := rfl

theorem run_write (r : Ref) (x : Record) (t : Trace) :
    (write r x).run t =
      if t.buffer.has r then .ok () { t with buffer := t.buffer.set r x }
      else .error (.broken .outOfBounds) t := by
  simp only [write, EStateM.run_bind, EStateM.run_get]
  split <;> rfl

/-! ### What an action leaves behind -/

/-- The trace that an action leaves behind, whether it succeeds or fails. -/
def after {α : Type} (t : Trace) (a : Action α) : Trace :=
  match a.run t with
  | .ok _ t' => t'
  | .error _ t' => t'

theorem after_of_ok {α : Type} {a : Action α} {t t' : Trace} {x : α} (h : a.run t = .ok x t') :
    t.after a = t' := by
  rw [after, h]

theorem after_of_error {α : Type} {a : Action α} {t t' : Trace} {e : Fault}
    (h : a.run t = .error e t') : t.after a = t' := by
  rw [after, h]

@[simp] theorem after_ask {α : Type} (q : Trace → Except Breach α) (t : Trace) :
    t.after (ask q) = t := by
  rw [after, run_ask]
  cases q t with
  | ok a => rfl
  | error e => rfl

/-- After a first action that fails nothing else runs. -/
theorem after_bind {α β : Type} (a : Action α) (f : α → Action β) (t : Trace) :
    t.after (a >>= f) =
      match a.run t with
      | .ok x t' => t'.after (f x)
      | .error _ t' => t' := by
  rw [after, EStateM.run_bind]
  cases a.run t with
  | ok x t' => rfl
  | error e t' => rfl

/-! ### Records entering a trace -/

/-- There is no reference left for an instruction. -/
def InstructionsFull (t : Trace) : Prop :=
  instructionLimit t.config ≤ t.nins ∨ Ref.limit ≤ t.nins

instance (t : Trace) : Decidable t.InstructionsFull :=
  inferInstanceAs (Decidable (_ ∨ _))

/-- There is no reference left for a constant. -/
def ConstantsFull (t : Trace) : Prop :=
  t.config.maxConstants ≤ (Ref.true - t.nk).toNat ∨ t.nk ≤ 1

instance (t : Trace) : Decidable t.ConstantsFull :=
  inferInstanceAs (Decidable (_ ∨ _))

/-- The buffer with room for the next instruction. -/
def roomAbove (t : Trace) : Buffer :=
  if t.buffer.top ≤ t.nins then t.buffer.growTop t.config.minSize else t.buffer

/-- The buffer with room for the next constant. -/
def roomBelow (t : Trace) : Except Breach Buffer :=
  if t.nk ≤ t.buffer.bot then t.buffer.growBottom t.nk t.nins else .ok t.buffer

private theorem run_nextInstruction (t : Trace) :
    nextInstruction.run t =
      if t.InstructionsFull then .error (.refused .traceOverflow) t
      else .ok t.nins { t with buffer := t.roomAbove, nins := t.nins + 1 } := by
  simp only [nextInstruction, EStateM.run_bind, EStateM.run_get]
  by_cases hfull : instructionLimit t.config ≤ t.nins ∨ Ref.limit ≤ t.nins
  · rw [if_pos hfull, if_pos (show t.InstructionsFull from hfull)]
    rfl
  · rw [if_neg hfull, if_neg (show ¬ t.InstructionsFull from hfull)]
    by_cases htop : t.buffer.top ≤ t.nins
    · simp only [EStateM.run_bind, EStateM.run_get, if_pos htop, roomAbove]
      rfl
    · simp only [EStateM.run_bind, EStateM.run_get, if_neg htop, roomAbove]
      rfl

/-- A new instruction becomes the newest record of its opcode and links to the one before. -/
theorem run_emitRaw (op : Opcode) (ty : Ty) (a b : Ref) (t : Trace) :
    (emitRaw op ty a b).run t =
      if t.InstructionsFull then .error (.refused .traceOverflow) t
      else if t.roomAbove.has t.nins then
        .ok (.of t.nins ty)
          { t with
            buffer := t.roomAbove.set t.nins
              { op, ty, left := a, right := b, prev := t.heads.get op }
            nins := t.nins + 1
            heads := t.heads.set op t.nins
            guardEmitted := t.guardEmitted || ty.isGuard }
      else .error (.broken .outOfBounds) { t with buffer := t.roomAbove, nins := t.nins + 1 } := by
  rw [emitRaw, EStateM.run_bind, run_nextInstruction]
  by_cases hfull : t.InstructionsFull
  · rw [if_pos hfull, if_pos hfull]
  · rw [if_neg hfull, if_neg hfull]
    simp only [EStateM.run_bind, EStateM.run_get, run_write]
    by_cases hslot : t.roomAbove.has t.nins = true
    · rw [if_pos hslot, if_pos hslot]
      rfl
    · rw [if_neg hslot, if_neg hslot]

private theorem run_nextConstant (t : Trace) :
    nextConstant.run t =
      if t.ConstantsFull then .error (.refused .constOverflow) t
      else
        match t.roomBelow with
        | .ok buffer => .ok (t.nk - 1) { t with buffer, nk := t.nk - 1 }
        | .error e => .error (.broken e) t := by
  -- as a rewrite, not by unfolding: the kernel must not evaluate the word arithmetic of the test
  simp -implicitDefEqProofs only [nextConstant, EStateM.run_bind, EStateM.run_get]
  by_cases hfull : t.config.maxConstants ≤ (Ref.true - t.nk).toNat ∨ t.nk ≤ 1
  · rw [if_pos hfull, if_pos (show t.ConstantsFull from hfull)]
    rfl
  · rw [if_neg hfull, if_neg (show ¬ t.ConstantsFull from hfull)]
    by_cases hbot : t.nk ≤ t.buffer.bot
    · simp only [EStateM.run_bind, EStateM.run_get, if_pos hbot, roomBelow, run_ask]
      cases t.buffer.growBottom t.nk t.nins with
      | ok buffer => rfl
      | error e => rfl
    · simp only [EStateM.run_bind, EStateM.run_get, if_neg hbot, roomBelow]
      rfl

/-- A new constant becomes the newest record of its opcode and links to the one before. -/
theorem run_addConstant (x : Record) (t : Trace) :
    (addConstant x).run t =
      if t.ConstantsFull then .error (.refused .constOverflow) t
      else
        match t.roomBelow with
        | .ok buffer =>
          if buffer.has (t.nk - 1) then
            .ok (.of (t.nk - 1) x.ty)
              { t with
                buffer := buffer.set (t.nk - 1) { x with prev := t.heads.get x.op }
                nk := t.nk - 1
                heads := t.heads.set x.op (t.nk - 1) }
          else .error (.broken .outOfBounds) { t with buffer, nk := t.nk - 1 }
        | .error e => .error (.broken e) t := by
  rw [addConstant, EStateM.run_bind, run_nextConstant]
  by_cases hfull : t.ConstantsFull
  · rw [if_pos hfull, if_pos hfull]
  · rw [if_neg hfull, if_neg hfull]
    cases t.roomBelow with
    | error e => rfl
    | ok buffer =>
      simp only [EStateM.run_bind, EStateM.run_get, run_write]
      by_cases hslot : buffer.has (t.nk - 1) = true
      · rw [if_pos hslot, if_pos hslot]
        rfl
      · rw [if_neg hslot, if_neg hslot]

end TraceIR.Trace
