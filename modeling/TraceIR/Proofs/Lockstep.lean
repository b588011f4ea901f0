import TraceIR.Proofs.Recording

/-!
# Two runs side by side

Emission and conversion are put together from few parts: they look at the folder, at constants and
at chains, and what they do in the end is to append instructions and to intern constants. So what
the parts keep, the whole keeps. This file says that once, for two runs of the same action, and
reads off the case of a single run.

* `Trace.Match` — two outcomes agree and leave related traces. A fault of a kind that is set aside
  beforehand ends the comparison.
* `Trace.Lockstep` — run on related traces, the action has outcomes that match. It composes
  (`Lockstep.bind`).
* `Lockstep.coerce` — conversions run in lockstep if emission and interning do.
* `Trace.Compatible` — what has to be known of the parts. `Compatible.emit` and `Compatible.coerce` follow.
* `Trace.StepInvariant` — a property that the parts keep is kept by every step of a recording
  (`StepInvariant.step`), and so it holds of every trace that a recording reaches
  (`StepInvariant.of_reachable`).
-/

namespace TraceIR.Trace

/-- The outcomes are the same and leave related traces, or one of them ends the comparison. -/
inductive Match (R : Trace → Trace → Prop) (stop : Fault → Prop) {α : Type} :
    EStateM.Result Fault Trace α → EStateM.Result Fault Trace α → Prop
  | ok {x : α} {t u : Trace} (h : R t u) : Match R stop (.ok x t) (.ok x u)
  | error {e : Fault} {t u : Trace} (h : R t u) : Match R stop (.error e t) (.error e u)
  | left {e : Fault} {t : Trace} {z : EStateM.Result Fault Trace α} (h : stop e) :
      Match R stop (.error e t) z
  | right {e : Fault} {u : Trace} {z : EStateM.Result Fault Trace α} (h : stop e) :
      Match R stop z (.error e u)

/-- Run on related traces, the action has outcomes that match. -/
def Lockstep (R : Trace → Trace → Prop) (stop : Fault → Prop) {α : Type} (a : Action α) : Prop :=
  ∀ t u : Trace, R t u → Match R stop (a.run t) (a.run u)

namespace Lockstep

variable {R : Trace → Trace → Prop} {stop : Fault → Prop} {α β : Type} {a : Action α}
  {f : α → Action β}

theorem pure (x : α) : Lockstep R stop (Pure.pure x : Action α) :=
  fun _ _ h => .ok h

private theorem throw (e : Fault) : Lockstep R stop (MonadExcept.throw e : Action α) :=
  fun _ _ h => .error h

/-- Two actions in a row. -/
theorem bind (ha : Lockstep R stop a) (hf : ∀ x, Lockstep R stop (f x)) :
    Lockstep R stop (a >>= f) := by
  intro t u h
  have hmatch := ha t u h
  rw [EStateM.run_bind, EStateM.run_bind]
  generalize a.run t = y, a.run u = z at hmatch ⊢
  cases hmatch with
  | ok h' => exact hf _ _ _ h'
  | error h' => exact .error h'
  | left hstop => exact .left hstop
  | right hstop => exact .right hstop

theorem map (ha : Lockstep R stop a) (g : α → β) : Lockstep R stop (g <$> a) := by
  rw [map_eq_pure_bind]
  exact ha.bind fun x => pure (g x)

/-- A question that related traces answer alike. -/
theorem ask {q : Trace → Except Breach α} (hq : ∀ {t u}, R t u → q u = q t) :
    Lockstep R stop (Trace.ask q) := by
  intro t u h
  rw [run_ask, run_ask, hq h]
  cases q t with
  | ok x => exact .ok h
  | error e => exact .error h

/-- An action that depends on what it reads from the trace. -/
theorem get {f : Trace → Action α} (hf : ∀ {t u}, R t u → Match R stop ((f t).run t) ((f u).run u)) :
    Lockstep R stop (MonadState.get >>= f) :=
  fun _ _ h => hf h

end Lockstep

/-! ### Conversion from emission and interning -/

end Trace

/-- An operand that the opcode does not have is none. -/
structure Opcode.Omits (op : Opcode) (a b : Ref) : Prop where
  left : op.shape.left = .absent → a = Ref.none
  right : op.shape.right = .absent → b = Ref.none

/-- An instruction with one operand. -/
theorem Opcode.Omits.single {op : Opcode} (h : op.shape.left ≠ .absent) (a : Ref) :
    op.Omits a Ref.none :=
  ⟨fun hleft => absurd hleft h, fun _ => rfl⟩

/-- An instruction with two operands. -/
theorem Opcode.Omits.pair {op : Opcode} (h : op.shape.left ≠ .absent)
    (h' : op.shape.right ≠ .absent) (a b : Ref) : op.Omits a b :=
  ⟨fun hleft => absurd hleft h, fun hright => absurd hright h'⟩

namespace Trace

section Coerce

variable {R : Trace → Trace → Prop} {stop : Fault → Prop}

theorem Lockstep.numberOrString
    (hemit : ∀ {op : Opcode} {ty : Ty} {a b : Ref}, op.isConst = false → op.Omits a b →
      Lockstep R stop (emit op ty a b)) (c : Coercion) (x : TRef) :
    Lockstep R stop (numberOrString c x) := by
  rw [Trace.numberOrString]
  split
  · exact hemit rfl (.single (by decide) _)
  split
  · exact .pure x
  · exact .throw _

/-- A conversion does nothing but emit instructions and intern a constant. -/
theorem Lockstep.coerce
    (hemit : ∀ {op : Opcode} {ty : Ty} {a b : Ref}, op.isConst = false → op.Omits a b →
      Lockstep R stop (emit op ty a b))
    (hconstant : ∀ k : Constant, Lockstep R stop k.intern) (c : Coercion) (x : TRef) :
    Lockstep R stop (coerce c x) := by
  cases c with
  | toNum =>
    rw [Trace.coerce, toNum]
    split
    · exact .pure x
    split
    · exact hemit rfl (.single (by decide) _)
    split
    · exact hemit rfl (.single (by decide) _)
    · exact .throw _
  | toStr =>
    rw [Trace.coerce, toStr]
    split
    · exact .pure x
    split
    · exact hemit rfl (.single (by decide) _)
    · exact .throw _
  | toBit =>
    rw [Trace.coerce, toBit]
    split
    · exact .pure x
    · refine .bind (.numberOrString hemit _ x) fun y => ?_
      exact .bind (hconstant .numToBit) fun k => hemit rfl (.pair (by decide) (by decide) _ _)
  | toInt =>
    rw [Trace.coerce, toInt]
    split
    · exact .pure x
    · exact .bind (.numberOrString hemit _ x) fun y => hemit rfl (.pair (by decide) (by decide) _ _)

end Coerce

/-! ### Emission and conversion from their parts -/

/-- Related traces show emission the same folder, comparisons and chains, and stay related when an
instruction is appended or a constant interned. -/
structure Compatible (R : Trace → Trace → Prop) (stop : Fault → Prop) : Prop where
  folder : ∀ {t u}, R t u → u.folder = t.folder
  comparison : ∀ {t u}, R t u → ∀ op a b, u.foldComparison op a b = t.foldComparison op a b
  search : ∀ {t u}, R t u → ∀ {α : Type} {op : Opcode}, op.isConst = false →
    ∀ probe : Ref → Record → Option α, u.search op probe = t.search op probe
  emitRaw : ∀ {op : Opcode}, op.isConst = false → ∀ ty a b, Lockstep R stop (emitRaw op ty a b)
  constant : ∀ k : Constant, Lockstep R stop k.intern

namespace Compatible

variable {R : Trace → Trace → Prop} {stop : Fault → Prop} {op : Opcode}

theorem emitShared (h : Compatible R stop) (hop : op.isConst = false) (ty : Ty) (a b : Ref) :
    Lockstep R stop (emitShared op ty a b) := by
  refine .bind (.ask fun hR => h.search hR hop _) fun found => ?_
  cases found.join with
  | some r => exact .pure _
  | none => exact h.emitRaw hop ty a b

theorem place (h : Compatible R stop) (f : Folder) (hop : op.isConst = false) (ty : Ty) (a b : Ref) :
    Lockstep R stop (place f op ty a b) := by
  rw [Trace.place]
  by_cases hshare : (f.cse && op.isNormal) = true
  · rw [if_pos hshare]
    exact h.emitShared hop ty a b
  · rw [if_neg hshare]
    exact h.emitRaw hop ty a b

theorem emitDecided (h : Compatible R stop) (f : Folder) (hop : op.isConst = false) (ty : Ty)
    (a b : Ref) : Lockstep R stop (emitDecided f op ty a b) := by
  rw [Trace.emitDecided]
  by_cases hdecide : (f.fold && op.isComparison && a.isConst && b.isConst) = true
  · rw [if_pos hdecide]
    refine .get fun {t u} hR => ?_
    -- both runs come to the same decision
    rw [h.comparison hR]
    cases t.foldComparison op a b with
    | error e => exact .error hR
    | ok found =>
      cases found with
      | some x => exact .ok hR
      | none => exact h.place f hop ty a b _ _ hR
  · rw [if_neg hdecide]
    exact h.place f hop ty a b

theorem emit (h : Compatible R stop) (hop : op.isConst = false) (ty : Ty) (a b : Ref) :
    Lockstep R stop (emit op ty a b) := by
  rw [Trace.emit]
  refine .get fun {t u} hR => ?_
  rw [h.folder hR]
  cases t.folder with
  | none => exact h.emitRaw hop ty a b _ _ hR
  | some f =>
    dsimp only
    by_cases hswap : (f.fold && op.shape.commutative && decide (a < b)) = true
    · rw [if_pos hswap]
      exact h.emitDecided f hop ty b a _ _ hR
    · rw [if_neg hswap]
      exact h.emitDecided f hop ty a b _ _ hR

theorem coerce (h : Compatible R stop) (c : Coercion) (x : TRef) :
    Lockstep R stop (coerce c x) :=
  .coerce (fun hop _ => h.emit hop _ _ _) h.constant c x

end Compatible

/-! ### One run -/

/-- A property that every step of a recording keeps, because its parts do. -/
structure StepInvariant (P : Trace → Prop) : Prop where
  folder : ∀ {t}, P t → ∀ f, P { t with folder := f }
  snapshot : ∀ {t}, P t → ∀ refs, P { t with snapshots := t.snapshots.push refs }
  guard : ∀ {t}, P t → P { t with guardEmitted := false }
  emitRaw : ∀ {t}, P t → ∀ {op : Opcode}, op.isConst = false → ∀ ty a b,
    P (t.after (emitRaw op ty a b))
  constant : ∀ {t}, P t → ∀ k : Constant, P (t.after k.intern)
  rollback : ∀ {t}, P t → ∀ cp, P (t.after (rollback cp))
  setup : ∀ {t}, P t → P (t.after setup)

namespace StepInvariant

variable {P : Trace → Prop}

/-- A run is in lockstep with itself if it keeps the property. -/
private theorem lockstep_iff {α : Type} {a : Action α} :
    Lockstep (fun t u => u = t ∧ P t) (fun _ => False) a ↔ ∀ t, P t → P (t.after a) := by
  constructor
  · intro h t ht
    have hmatch := h t t ⟨rfl, ht⟩
    rw [after]
    generalize a.run t = y at hmatch ⊢
    cases hmatch with
    | ok h' => exact h'.2
    | error h' => exact h'.2
    | left hstop => exact hstop.elim
    | right hstop => exact hstop.elim
  · rintro h t u ⟨rfl, ht⟩
    have hafter := h u ht
    rw [after] at hafter
    generalize a.run u = y at hafter ⊢
    cases y with
    | ok x t' => exact .ok ⟨rfl, hafter⟩
    | error e t' => exact .error ⟨rfl, hafter⟩

private theorem compatible (h : StepInvariant P) :
    Compatible (fun t u => u = t ∧ P t) fun _ => False where
  folder hR := by rw [hR.1]
  comparison hR _ _ _ := by rw [hR.1]
  search hR _ _ _ _ := by rw [hR.1]
  emitRaw hop ty a b := lockstep_iff.mpr fun _ ht => h.emitRaw ht hop ty a b
  constant k := lockstep_iff.mpr fun _ ht => h.constant ht k

/-- One step keeps the property. -/
theorem step (h : StepInvariant P) {t : Trace} (ht : P t) (s : Step) : P (t.step s) := by
  cases s with
  | useFolder f => exact h.folder ht f
  | emit op ty a b => exact lockstep_iff.mp (h.compatible.emit op.2 ty a b) t ht
  | emitRaw op ty a b => exact h.emitRaw ht op.2 ty a b
  | intern k => exact h.constant ht k
  | coerce c x => exact lockstep_iff.mp (h.compatible.coerce c x) t ht
  | addSnapshot refs => exact h.snapshot ht refs
  | resetGuardEmitted => exact h.guard ht
  | checkpoint => exact ht
  | rollback cp => exact h.rollback ht cp
  | setup => exact h.setup ht

/-- A property that new traces have and steps keep holds of every trace that a recording
reaches. -/
theorem of_reachable (h : StepInvariant P)
    (hstart : ∀ {config pool t}, start config pool = .ok t → P t) {t : Trace}
    (ht : Reachable t) : P t := by
  induction ht with
  | start ht => exact hstart ht
  | step _ s ih => exact h.step ih s

end StepInvariant

end TraceIR.Trace
