import TraceIR.Proofs.Agreement
import TraceIR.Proofs.Lockstep
import TraceIR.Proofs.Passes

/-!
# Recordings in buffers of different size

Two recordings that do the same, one in a small first array and one in a large one, go side by side.
Where the records lie differs, and so does what is left in slots that are not live. Neither is ever
looked at: chains lead to live records only, and everything else asks for a live record first.

* `View.Twin` — the views agree, but for the size of the first array and the slots of the pools.
  Every change of a view keeps that.
* `Trace.Mirrors` — the traces show twin views. Going back, beginning again and passes run in
  lockstep on such traces (`lockstep_rollback`, `lockstep_eliminateDeadCode`).
* `Trace.Twins` — their chains end, too, so that a search goes the same way in both. Then all of
  emission, conversion and interning runs in lockstep (`compatible_twins`).

A recording may stop because a rule is broken, for instance because the buffer cannot grow any
further. That ends the comparison (`Fault.Broken`).
-/

namespace TraceIR

/-- The fault is a broken rule. -/
def Fault.Broken (e : Fault) : Prop :=
  ∃ b, e = .broken b

/-! ### Records -/

/-- The records are the same, links included, but a number may lie in a slot of another pool. -/
structure Record.Twin (p q : Pool) (x y : Record) : Prop extends x.Agree p q y where
  prev : y.prev = x.prev

namespace Record.Twin

variable {p q : Pool} {x y : Record}

private theorem self (h : x.payload.num? = none) : x.Twin p q x :=
  ⟨Record.agree_of_no_number h, rfl⟩

private theorem find (h : x.Twin p q y) (m n : Binary64) : x.Twin (p.find m).2 (q.find n).2 y :=
  ⟨⟨h.op, h.ty, h.left, h.right, h.payload.find m n⟩, h.prev⟩

/-- Records that agree are twins once they get the same link. -/
private theorem relink (h : x.Agree p q y) (r : Ref) :
    Record.Twin p q { x with prev := r } { y with prev := r } :=
  ⟨⟨h.op, h.ty, h.left, h.right, h.payload⟩, rfl⟩

end Record.Twin

/-- The numbers in agreeing payloads are the same. -/
theorem Payload.Agree.number_eq {p q : Pool} {a b : Payload} (h : a.Agree p q b) :
    b.num?.bind (·.value? q) = a.num?.bind (·.value? p) := by
  cases h with
  | same h =>
    cases hn : a.num? with
    | none => rfl
    | some n =>
      -- a fixed slot does not lie in a pool
      cases n with
      | pooled s => exact absurd hn (h s)
      | absMask => rfl
      | negMask => rfl
  | @pooled x s s' hs hs' =>
    show q.get? s' = p.get? s
    rw [hs.get?, hs'.get?]

/-! ### Views -/

/-- The views agree, but for the size of the first array and the slots of the pools. -/
structure View.Twin (v w : View) : Prop where
  config : w.config = { v.config with minSize := w.config.minSize }
  folder : w.folder = v.folder
  nins : w.nins = v.nins
  nk : w.nk = v.nk
  heads : w.heads = v.heads
  guardEmitted : w.guardEmitted = v.guardEmitted
  snapshots : w.snapshots = v.snapshots
  record : ∀ r, Option.Rel (Record.Twin v.pool w.pool) (v.record r) (w.record r)
  /-- An instruction holds no number. -/
  instruction : ∀ r, r.isConst = false → w.record r = v.record r

/-- Writing twins at the same place. -/
private theorem rel_update {R : Record → Record → Prop} {f g : Ref → Option Record}
    {a b : Option Record} (h : ∀ r, Option.Rel R (f r) (g r)) (hab : Option.Rel R a b) (q r : Ref) :
    Option.Rel R (Function.update f q a r) (Function.update g q b r) := by
  rw [Function.update_apply, Function.update_apply]
  by_cases hr : r = q
  · rw [if_pos hr, if_pos hr]
    exact hab
  · rw [if_neg hr, if_neg hr]
    exact h r

namespace View

variable {v w : View} {x y : Record} {r : Ref} {op : Opcode} {refs : List Ref}

/-- New traces are twins. -/
theorem twin_initial {c c' : Config} (hc : c' = { c with minSize := c'.minSize }) (p q : Pool)
    (f : Option Folder) : (initial c p f).Twin (initial c' q f) := by
  refine ⟨hc, rfl, rfl, rfl, rfl, rfl, rfl, fun r => ?_, fun _ _ => rfl⟩
  show Option.Rel (Record.Twin p q) (initialRecord r) (initialRecord r)
  cases hx : initialRecord r with
  | none => exact .none
  | some x => exact .some ⟨agree_initialRecord hx p q, rfl⟩

namespace Twin

/-- At a reference there is nothing in both views, or there are twins. -/
private theorem record_cases (h : v.Twin w) (r : Ref) :
    v.record r = none ∧ w.record r = none ∨
      ∃ x y, v.record r = some x ∧ w.record r = some y ∧ x.Twin v.pool w.pool y := by
  have hrel := h.record r
  generalize v.record r = a, w.record r = b at hrel ⊢
  cases hrel with
  | none => exact .inl ⟨rfl, rfl⟩
  | some hxy => exact .inr ⟨_, _, rfl, rfl, hxy⟩

private theorem deadCode (h : v.Twin w) : w.config.deadCode = v.config.deadCode := by
  rw [h.config]

private theorem maxInstructions (h : v.Twin w) :
    w.config.maxInstructions = v.config.maxInstructions := by
  rw [h.config]

private theorem maxConstants (h : v.Twin w) : w.config.maxConstants = v.config.maxConstants := by
  rw [h.config]

/-- Links lead the same way. -/
private theorem linked (h : v.Twin w) {stop : Ref} (hlinked : Linked v.record r refs stop) :
    Linked w.record r refs stop := by
  induction hlinked with
  | done r => exact .done r
  | @step r stop x refs hx _ ih =>
    rcases h.record_cases r with ⟨hnone, -⟩ | ⟨x', y, hx', hy, hxy⟩
    · rw [hx] at hnone
      cases hnone
    · rw [hx] at hx'
      obtain rfl := Option.some.inj hx'
      refine .step hy ?_
      rw [hxy.prev]
      exact ih

/-- Twins have the same opcode. -/
private theorem exists_op_iff (h : v.Twin w) (r : Ref) (op : Opcode) :
    (∃ y, w.record r = some y ∧ y.op = op) ↔ ∃ x, v.record r = some x ∧ x.op = op := by
  rcases h.record_cases r with ⟨hv, hw⟩ | ⟨x, y, hv, hw, hxy⟩
  · rw [hv, hw]
  · rw [hv, hw]
    constructor
    · rintro ⟨z, hz, rfl⟩
      obtain rfl := Option.some.inj hz
      exact ⟨x, rfl, hxy.op.symm⟩
    · rintro ⟨z, hz, rfl⟩
      obtain rfl := Option.some.inj hz
      exact ⟨y, rfl, hxy.op⟩

private theorem isChain (h : v.Twin w) (hchain : v.IsChain op refs) : w.IsChain op refs := by
  refine ⟨?_, fun r => ?_, hchain.newer⟩
  · rw [h.heads]
    exact h.linked hchain.linked
  · rw [hchain.mem_iff, h.exists_op_iff]

private theorem sameConstants (h : v.Twin w) : v.SameConstants w := by
  refine ⟨h.nk, fun r _ => ?_⟩
  rcases h.record_cases r with ⟨hv, hw⟩ | ⟨x, y, hv, hw, hxy⟩
  · rw [hv, hw]
    exact .none
  · rw [hv, hw]
    exact .some hxy.toAgree

/-! What changes a view. -/

private theorem find (h : v.Twin w) (m n : Binary64) :
    View.Twin { v with pool := (v.pool.find m).2 } { w with pool := (w.pool.find n).2 } := by
  refine ⟨h.config, h.folder, h.nins, h.nk, h.heads, h.guardEmitted, h.snapshots, fun r => ?_,
    h.instruction⟩
  rcases h.record_cases r with ⟨hv, hw⟩ | ⟨x, y, hv, hw, hxy⟩
  · show Option.Rel _ (v.record r) (w.record r)
    rw [hv, hw]
    exact .none
  · show Option.Rel _ (v.record r) (w.record r)
    rw [hv, hw]
    exact .some (hxy.find m n)

private theorem push (h : v.Twin w) (hx : x.payload.num? = none) : (v.push x).Twin (w.push x) := by
  refine ⟨h.config, h.folder, congrArg (· + 1) h.nins, h.nk, ?_, ?_, h.snapshots, fun r => ?_,
    fun r hr => ?_⟩
  · show w.heads.set x.op w.nins = v.heads.set x.op v.nins
    rw [h.heads, h.nins]
  · show (w.guardEmitted || x.ty.isGuard) = (v.guardEmitted || x.ty.isGuard)
    rw [h.guardEmitted]
  · show Option.Rel _ (Function.update v.record v.nins _ r) (Function.update w.record w.nins _ r)
    rw [h.nins, h.heads]
    exact rel_update h.record (.some (.relink (Record.agree_of_no_number hx) _)) v.nins r
  · show Function.update w.record w.nins _ r = Function.update v.record v.nins _ r
    rw [h.nins, h.heads, Function.update_apply, Function.update_apply, h.instruction r hr]

private theorem pushConstant (h : v.Twin w) (hlow : (v.nk - 1).isConst = true)
    (hxy : x.Agree v.pool w.pool y) : (v.pushConstant x).Twin (w.pushConstant y) := by
  refine ⟨h.config, h.folder, h.nins, congrArg (· - 1) h.nk, ?_, h.guardEmitted, h.snapshots,
    fun r => ?_, fun r hr => ?_⟩
  · show w.heads.set y.op (w.nk - 1) = v.heads.set x.op (v.nk - 1)
    rw [h.heads, h.nk, hxy.op]
  · show Option.Rel _ (Function.update v.record (v.nk - 1) _ r)
      (Function.update w.record (w.nk - 1) _ r)
    have hprev : w.heads.get y.op = v.heads.get x.op := by rw [h.heads, hxy.op]
    rw [h.nk, hprev]
    exact rel_update h.record (.some (.relink hxy _)) (v.nk - 1) r
  · have hne : r ≠ v.nk - 1 := by
      rintro rfl
      rw [hlow] at hr
      cases hr
    rw [pushConstant_record_of_ne _ _ hne, pushConstant_record_of_ne _ _ (h.nk.symm ▸ hne)]
    exact h.instruction r hr

private theorem popInstruction (h : v.Twin w) : v.popInstruction.Twin w.popInstruction := by
  rcases h.record_cases (v.nins - 1) with ⟨hv, hw⟩ | ⟨x, y, hv, hw, hxy⟩
  · rw [← h.nins] at hw
    rw [View.popInstruction, View.popInstruction, hv, hw]
    exact h
  · rw [← h.nins] at hw
    rw [popInstruction_eq hv, popInstruction_eq hw]
    refine ⟨h.config, h.folder, congrArg (· - 1) h.nins, h.nk, ?_, h.guardEmitted, h.snapshots,
      fun r => ?_, fun r hr => ?_⟩
    · show w.heads.set y.op y.prev = v.heads.set x.op x.prev
      rw [h.heads, hxy.op, hxy.prev]
    · show Option.Rel _ (Function.update v.record (v.nins - 1) none r)
        (Function.update w.record (w.nins - 1) none r)
      rw [h.nins]
      exact rel_update h.record .none (v.nins - 1) r
    · show Function.update w.record (w.nins - 1) none r =
        Function.update v.record (v.nins - 1) none r
      rw [h.nins, Function.update_apply, Function.update_apply, h.instruction r hr]

private theorem popConstant (h : v.Twin w) : v.popConstant.Twin w.popConstant := by
  rcases h.record_cases v.nk with ⟨hv, hw⟩ | ⟨x, y, hv, hw, hxy⟩
  · rw [← h.nk] at hw
    rw [View.popConstant, View.popConstant, hv, hw]
    exact h
  · rw [← h.nk] at hw
    rw [popConstant_eq hv, popConstant_eq hw]
    refine ⟨h.config, h.folder, h.nins, congrArg (· + 1) h.nk, ?_, h.guardEmitted, h.snapshots,
      fun r => ?_, fun r hr => ?_⟩
    · show w.heads.set y.op y.prev = v.heads.set x.op x.prev
      rw [h.heads, hxy.op, hxy.prev]
    · show Option.Rel _ (Function.update v.record v.nk none r)
        (Function.update w.record w.nk none r)
      rw [h.nk]
      exact rel_update h.record .none v.nk r
    · show Function.update w.record w.nk none r = Function.update v.record v.nk none r
      rw [h.nk, Function.update_apply, Function.update_apply, h.instruction r hr]

/-- A change that keeps twins may be repeated. -/
private theorem iterate {f : View → View} (hf : ∀ {v w : View}, v.Twin w → (f v).Twin (f w))
    (n : Nat) :
    ∀ {v w : View}, v.Twin w → (f^[n] v).Twin (f^[n] w) := by
  induction n with
  | zero => exact fun h => h
  | succ n ih => exact fun h => ih (hf h)

private theorem rollback (h : v.Twin w) (cp : Checkpoint) :
    (v.rollback cp).Twin (w.rollback cp) := by
  have hcount : (w.nins - cp.ins).toNat = (v.nins - cp.ins).toNat := by rw [h.nins]
  have hcount' : (cp.const - w.nk).toNat = (cp.const - v.nk).toNat := by rw [h.nk]
  rw [View.rollback, View.rollback, hcount, hcount']
  refine iterate popConstant _ (iterate popInstruction _ ?_)
  refine ⟨h.config, h.folder, h.nins, h.nk, h.heads, h.guardEmitted, ?_, h.record, h.instruction⟩
  show w.snapshots.take _ = v.snapshots.take _
  rw [h.snapshots]

private theorem setRecord (h : v.Twin w) (hxy : x.Twin v.pool w.pool y)
    (hins : r.isConst = false → y = x) : (v.setRecord r x).Twin (w.setRecord r y) := by
  refine ⟨h.config, h.folder, h.nins, h.nk, h.heads, h.guardEmitted, h.snapshots, fun q => ?_,
    fun q hq => ?_⟩
  · exact rel_update h.record (.some hxy) r q
  · show Function.update w.record r (some y) q = Function.update v.record r (some x) q
    rw [Function.update_apply, Function.update_apply]
    by_cases hqr : q = r
    · subst hqr
      rw [if_pos rfl, if_pos rfl, hins hq]
    · rw [if_neg hqr, if_neg hqr]
      exact h.instruction q hq

end Twin

end View

namespace Trace

variable {t u t' u' : Trace} {r : Ref} {x y : Record} {α : Type}

/-! ### Traces that mirror each other -/

/-- Both traces are laid out soundly, and they show twin views. -/
structure Mirrors (t u : Trace) : Prop where
  left : t.Laid
  right : u.Laid
  view : t.view.Twin u.view

theorem Mirrors.nins_eq (h : Mirrors t u) : u.nins = t.nins :=
  h.view.nins

theorem Mirrors.nk_eq (h : Mirrors t u) : u.nk = t.nk :=
  h.view.nk

theorem Mirrors.snapshots_eq (h : Mirrors t u) : u.snapshots = t.snapshots :=
  h.view.snapshots

/-- Asked for a live record, both traces answer with twins, or neither has one. -/
theorem Mirrors.record?_cases (h : Mirrors t u) (r : Ref) :
    (∃ b, t.record? r = .error b ∧ u.record? r = .error b) ∨
      ∃ x y, t.record? r = .ok x ∧ u.record? r = .ok y ∧ x.Twin t.pool u.pool y ∧
        (r.isConst = false → y = x) := by
  rw [h.left.record?_eq, h.right.record?_eq, h.nk_eq, h.nins_eq]
  rcases h.view.record_cases r with ⟨hv, hw⟩ | ⟨x, y, hv, hw, hxy⟩
  · rw [hv, hw]
    exact .inl ⟨_, rfl, rfl⟩
  · have hins := h.view.instruction r
    rw [hv, hw] at hins
    rw [hv, hw]
    exact .inr ⟨x, y, rfl, rfl, hxy, fun hr => Option.some.inj (hins hr)⟩

/-- Reading a record, and going on alike. -/
private theorem lockstep_record {f : Record → Action α}
    (hf : ∀ {t u x y}, Mirrors t u → x.Twin t.pool u.pool y → (r.isConst = false → y = x) →
      Match Mirrors Fault.Broken ((f x).run t) ((f y).run u)) :
    Lockstep Mirrors Fault.Broken (record r >>= f) := by
  intro t u h
  rcases h.record?_cases r with ⟨b, ht, hu⟩ | ⟨x, y, ht, hu, hxy, hins⟩
  · have hrun : (record r).run t = .error (.broken b) t := by rw [record, run_ask, ht]
    rw [run_bind_of_error hrun]
    exact .left ⟨b, rfl⟩
  · have hrun : (record r).run t = .ok x t := by rw [record, run_ask, ht]
    have hrun' : (record r).run u = .ok y u := by rw [record, run_ask, hu]
    rw [run_bind_of_ok hrun, run_bind_of_ok hrun']
    exact hf h hxy hins

/-- Writing twins. A slot that only one buffer has is not live. -/
private theorem Mirrors.write (h : Mirrors t u) (hxy : x.Twin t.pool u.pool y)
    (hins : r.isConst = false → y = x) :
    Match Mirrors Fault.Broken ((write r x).run t) ((write r y).run u) := by
  by_cases hslot : t.buffer.has r = true
  · by_cases hslot' : u.buffer.has r = true
    · obtain ⟨t', hrun, hlaid, hview⟩ := h.left.run_write_slot hslot x
      obtain ⟨u', hrun', hlaid', hview'⟩ := h.right.run_write_slot hslot' y
      rw [hrun, hrun']
      refine .ok ⟨hlaid, hlaid', ?_⟩
      rw [hview, hview', h.nk_eq, h.nins_eq]
      by_cases hlive : t.nk ≤ r ∧ r < t.nins
      · rw [if_pos hlive, if_pos hlive]
        exact h.view.setRecord hxy hins
      · rw [if_neg hlive, if_neg hlive]
        exact h.view
    · rw [run_write r y u, if_neg hslot']
      exact .right ⟨_, rfl⟩
  · rw [run_write r x t, if_neg hslot]
    exact .left ⟨_, rfl⟩

/-! ### Passes -/

private theorem lockstep_relink (links : Heads) (op : Opcode) (r : Ref) :
    Lockstep Mirrors Fault.Broken (relink links op r) := by
  rw [relink]
  by_cases hlink : links.get op = Ref.none
  · rw [if_pos hlink]
    intro t u h
    refine .ok ⟨h.left.of_view rfl rfl rfl rfl, h.right.of_view rfl rfl rfl rfl, ?_⟩
    refine ⟨h.view.config, h.view.folder, h.view.nins, h.view.nk, ?_, h.view.guardEmitted,
      h.view.snapshots, h.view.record, h.view.instruction⟩
    exact congrArg (Heads.set · op r) h.view.heads
  · rw [if_neg hlink]
    refine lockstep_record fun h hxy hins => h.write (.relink hxy.toAgree r) fun hr => ?_
    rw [hins hr]

private theorem lockstep_sweepOut (s : Sweep) (r : Ref) (x : Record) :
    Lockstep Mirrors Fault.Broken (sweepOut s r x) := by
  rw [sweepOut]
  refine .bind (lockstep_relink _ _ _) fun _ => .bind (lockstep_relink _ _ _) fun _ => ?_
  refine .bind (fun t u h => ?_) fun _ => .pure _
  exact h.write (.self rfl) fun _ => rfl

/-- The walk looks at no payload. -/
private theorem lockstep_sweepAt (s : Sweep) (r : Ref) :
    Lockstep Mirrors Fault.Broken (sweepAt s r) := by
  rw [sweepAt]
  refine lockstep_record fun {t u x y} h hxy _ => ?_
  have hkeep : ∀ s : Sweep, s.keep r y = s.keep r x := by
    intro s
    rw [Sweep.keep, Sweep.keep, hxy.op, hxy.left, hxy.right]
  have hout : sweepOut s r y = sweepOut s r x := by
    rw [sweepOut, sweepOut, hxy.op, hxy.prev]
  rw [hkeep, hkeep, hout, hxy.ty, hxy.op]
  by_cases hmarked : s.needed.contains (key r) = true
  · rw [if_pos hmarked]
    exact .ok h
  rw [if_neg hmarked]
  by_cases hroot : (x.ty.isGuard || x.op.hasSideEffect) = true
  · rw [if_pos hroot]
    exact .ok h
  · rw [if_neg hroot]
    exact lockstep_sweepOut s r x t u h

private theorem lockstep_sweepBelow (n : Nat) :
    ∀ (r : Ref) (s : Sweep), Lockstep Mirrors Fault.Broken (sweepBelow n r s) := by
  induction n with
  | zero => exact fun _ s => .pure s
  | succ n ih => exact fun r s => .bind (lockstep_sweepAt s (r - 1)) fun s => ih (r - 1) s

/-- **Passes** run in lockstep. -/
theorem lockstep_eliminateDeadCode : Lockstep Mirrors Fault.Broken eliminateDeadCode := by
  rw [eliminateDeadCode]
  refine .get fun {t u} h => ?_
  have hon : u.config.deadCode = t.config.deadCode := h.view.deadCode
  rw [hon]
  by_cases hoff : (!t.config.deadCode) = true
  · rw [if_pos hoff]
    exact .ok h
  rw [if_neg hoff]
  -- both begin with the same marks and at the same end
  have hneed : ∀ {t u}, Mirrors t u → u.needSnapshots = t.needSnapshots := by
    intro t u h
    rw [needSnapshots, needSnapshots, h.snapshots_eq, h.nins_eq]
  refine Lockstep.bind (R := Mirrors) (.ask hneed) (fun s => .get fun {t u} h => ?_) _ _ h
  rw [h.nins_eq]
  exact Lockstep.bind (lockstep_sweepBelow _ _ s)
    (fun s => .bind (lockstep_relink _ _ _) fun _ => .pure _) _ _ h

/-! ### Going back and beginning again -/

theorem lockstep_rollback (cp : Checkpoint) : Lockstep Mirrors Fault.Broken (rollback cp) := by
  intro t u h
  have haccepts : u.accepts cp = t.accepts cp := by
    rw [accepts, accepts, h.nins_eq, h.nk_eq, h.snapshots_eq]
  by_cases hcp : t.accepts cp = true ∧ 0 ≤ cp.snapshots
  · obtain ⟨t', hrun, hlaid, hview⟩ := h.left.run_rollback hcp.1 hcp.2
    obtain ⟨u', hrun', hlaid', hview'⟩ := h.right.run_rollback (haccepts.trans hcp.1) hcp.2
    rw [hrun, hrun']
    refine .ok ⟨hlaid, hlaid', ?_⟩
    rw [hview, hview']
    exact h.view.rollback cp
  · obtain ⟨b, hrun⟩ := run_rollback_of_rejected hcp
    rw [hrun]
    exact .left ⟨b, rfl⟩

theorem lockstep_setup : Lockstep Mirrors Fault.Broken setup := by
  intro t u h
  obtain ⟨t', hrun, hlaid, hview⟩ := h.left.run_setup
  obtain ⟨u', hrun', hlaid', hview'⟩ := h.right.run_setup
  rw [hrun, hrun']
  refine .ok ⟨hlaid, hlaid', ?_⟩
  rw [hview, hview', View.restart, View.restart, h.view.folder]
  exact View.twin_initial h.view.config _ _ _

/-! ### Records that enter -/

private theorem Mirrors.emitRaw (h : Mirrors t u) (op : Opcode) (ty : Ty) (a b : Ref) :
    Match Mirrors Fault.Broken ((emitRaw op ty a b).run t) ((emitRaw op ty a b).run u) := by
  have hlimit : instructionLimit u.config = instructionLimit t.config := by
    have hmax : u.config.maxInstructions = t.config.maxInstructions := h.view.maxInstructions
    rw [instructionLimit, instructionLimit, hmax]
  have hfull : u.InstructionsFull ↔ t.InstructionsFull := by
    rw [InstructionsFull, InstructionsFull, hlimit, h.nins_eq]
  by_cases hroom : t.InstructionsFull
  · rw [run_emitRaw, run_emitRaw, if_pos hroom, if_pos (hfull.mpr hroom)]
    exact .error h
  · obtain ⟨t', hrun, hlaid, hview⟩ := h.left.run_emitRaw hroom op ty a b
    obtain ⟨u', hrun', hlaid', hview'⟩ := h.right.run_emitRaw (mt hfull.mp hroom) op ty a b
    rw [hrun, hrun', h.nins_eq]
    refine .ok ⟨hlaid, hlaid', ?_⟩
    rw [hview, hview']
    exact h.view.push rfl

/-- Constants that agree enter, if both buffers have room. -/
private theorem Mirrors.addConstant (h : Mirrors t u) (hxy : x.Agree t.pool u.pool y) :
    Match Mirrors Fault.Broken ((addConstant x).run t) ((addConstant y).run u) := by
  have hfull : u.ConstantsFull ↔ t.ConstantsFull := by
    have hmax : u.config.maxConstants = t.config.maxConstants := h.view.maxConstants
    rw [ConstantsFull, ConstantsFull, hmax, h.nk_eq]
  by_cases hroom : t.ConstantsFull
  · rw [run_addConstant, run_addConstant, if_pos hroom, if_pos (hfull.mpr hroom)]
    exact .error h
  have hroom' := mt hfull.mp hroom
  -- the buffers run out of room at different times, and a failure to grow ends the comparison
  cases hbuffer : t.roomBelow with
  | error e =>
    rw [run_addConstant x t, if_neg hroom, hbuffer]
    exact .left ⟨e, rfl⟩
  | ok buffer =>
    cases hbuffer' : u.roomBelow with
    | error e =>
      rw [run_addConstant y u, if_neg hroom', hbuffer']
      exact .right ⟨e, rfl⟩
    | ok buffer' =>
      obtain ⟨t', hrun, hlaid, hview⟩ := h.left.run_addConstant hroom hbuffer x
      obtain ⟨u', hrun', hlaid', hview'⟩ := h.right.run_addConstant hroom' hbuffer' y
      rw [hrun, hrun', h.nk_eq, hxy.ty]
      refine .ok ⟨hlaid, hlaid', ?_⟩
      rw [hview, hview']
      -- there is room, so the new reference does not wrap around
      have hle := h.left.nk_le
      have hone := Laid.one_lt_of_not_full hroom
      have hlow : (t.nk - 1).isConst = true :=
        decide_eq_true (show t.nk - 1 < Ref.bias by grind)
      exact h.view.pushConstant hlow hxy

/-! ### Values -/

/-- A constant has the same value in both traces. -/
theorem Mirrors.value_eq (h : Mirrors t u) (r : Ref) : u.value r = t.value r := by
  rw [value, value]
  by_cases hr : r.isConst = true
  · rw [if_pos hr, if_pos hr]
    rcases h.record?_cases r with ⟨b, ht, hu⟩ | ⟨x, y, ht, hu, hxy, -⟩
    · rw [ht, hu]
    · rw [ht, hu]
      show u.recordValue y = t.recordValue x
      rw [recordValue, recordValue, hxy.op, hxy.ty, hxy.payload.asInt_eq,
        hxy.payload.number_eq, hxy.payload.object?_eq, hxy.payload.asPointer_eq]
  · rw [if_neg hr, if_neg hr]

private theorem Mirrors.stringText?_eq (h : Mirrors t u) (r : Ref) (v : Value) :
    u.stringText? r v = t.stringText? r v := by
  rw [stringText?, stringText?]
  rcases h.record?_cases r with ⟨b, ht, hu⟩ | ⟨x, y, ht, hu, hxy, -⟩
  · rw [ht, hu]
  · rw [ht, hu]
    dsimp only
    rw [hxy.ty]

/-- A comparison comes out the same. -/
private theorem Mirrors.foldComparison_eq (h : Mirrors t u) (op : Opcode) (a b : Ref) :
    u.foldComparison op a b = t.foldComparison op a b := by
  have houtcome : ∀ va vb, u.outcome? op a b va vb = t.outcome? op a b va vb := by
    intro va vb
    rw [outcome?, outcome?, h.stringText?_eq, h.stringText?_eq]
  simp only [foldComparison, h.value_eq, houtcome]

/-! ### Twins -/

/-- The traces mirror each other, and their chains end. -/
structure Twins (t u : Trace) : Prop extends Mirrors t u where
  threaded : t.view.Threaded
  threaded' : u.view.Threaded

namespace Twins

variable {op : Opcode} {ty : Ty}

theorem woven (h : Twins t u) : t.Woven :=
  ⟨h.left, h.threaded⟩

theorem woven' (h : Twins t u) : u.Woven :=
  ⟨h.right, h.threaded'⟩

/-- A walk along a chain takes the same way. -/
private theorem exists_walk (h : Twins t u) (op : Opcode) :
    ∃ refs, Linked t.view.record (t.heads.get op) refs Ref.none ∧
      Linked u.view.record (u.heads.get op) refs Ref.none ∧ refs.Nodup ∧
      ∀ r ∈ refs, r.isConst = op.isConst := by
  obtain ⟨refs, hlinked, hnodup, hmem⟩ := h.threaded.exists_walk op
  have hheads : u.heads = t.heads := h.view.heads
  refine ⟨refs, hlinked, ?_, hnodup, fun r hr => ?_⟩
  · rw [hheads]
    exact h.view.linked hlinked
  · obtain ⟨x, hx, rfl⟩ := hmem r hr
    exact (h.threaded.kind hx).symm

/-- Chains are listed alike. -/
theorem chain_eq (h : Twins t u) (op : Opcode) : u.chain op = t.chain op := by
  obtain ⟨refs, hlinked, hlinked', hnodup, -⟩ := h.exists_walk op
  rw [h.left.chain_of_linked hlinked hnodup, h.right.chain_of_linked hlinked' hnodup]

/-- Instructions are found alike. -/
private theorem search_eq (h : Twins t u) (hop : op.isConst = false)
    (probe : Ref → Record → Option α) :
    u.search op probe = t.search op probe := by
  obtain ⟨refs, hlinked, hlinked', hnodup, hins⟩ := h.exists_walk op
  rw [h.left.search_of_linked hlinked hnodup, h.right.search_of_linked hlinked' hnodup]
  -- instructions hold no numbers, so the probe is shown the same records
  have hasked : refs.filterMap (fun r => (u.view.record r).bind (probe r)) =
      refs.filterMap fun r => (t.view.record r).bind (probe r) := by
    apply List.filterMap_congr
    intro r hr
    rw [h.view.instruction r ((hins r hr).trans hop)]
  rw [← List.head?_filterMap, ← List.head?_filterMap, hasked]

/-- Constants that agree are looked for, and enter, alike. -/
private theorem intern (h : Twins t u) {same same' : Record → Bool} (hop : x.op.isConst = true)
    (hxy : x.Agree t.pool u.pool y)
    (hsame : ∀ {x y : Record}, x.Agree t.pool u.pool y → same' y = same x) :
    Match Mirrors Fault.Broken ((intern same ty x).run t) ((intern same' ty y).run u) := by
  obtain ⟨refs, hchain⟩ := h.threaded.chains x.op (View.Threaded.ne_nop_of_const hop)
  have hchain' : u.view.IsChain y.op refs := hxy.op ▸ h.view.isChain hchain
  have hconst : ∀ r ∈ refs, r.isConst = true := by
    intro r hr
    obtain ⟨-, z, hz, hzop⟩ := (hchain.mem_iff r).mp hr
    rw [← h.threaded.kind hz, hzop, hop]
  rw [h.left.run_intern_eq hchain, h.right.run_intern_eq hchain',
    h.view.sameConstants.findIn_eq hsame hconst]
  cases t.view.findIn same refs with
  | some r => exact .ok h.toMirrors
  | none => exact h.toMirrors.addConstant hxy

/-- A number gets a slot in each pool first. -/
private theorem knum (h : Twins t u) (n : Binary64) :
    Match Mirrors Fault.Broken ((knum n).run t) ((knum n).run u) := by
  have h' : Twins { t with pool := (t.pool.find n).2 } { u with pool := (u.pool.find n).2 } :=
    { left := h.left.of_view rfl rfl rfl rfl
      right := h.right.of_view rfl rfl rfl rfl
      view := h.view.find n n
      threaded := h.threaded.of_eq rfl rfl rfl rfl
      threaded' := h.threaded'.of_eq rfl rfl rfl rfl }
  have hs := t.pool.holds_find n
  have hs' := u.pool.holds_find n
  exact h'.intern rfl ⟨rfl, rfl, rfl, rfl, .pooled hs hs'⟩ fun hxy =>
    hxy.payload.num?_beq_pooled hs hs'

/-- **A request for a constant** is answered alike. -/
theorem constant (h : Twins t u) (k : Constant) :
    Match Mirrors Fault.Broken (k.intern.run t) (k.intern.run u) := by
  cases k.asks with
  | absurd b hbroken =>
    rw [hbroken t]
    exact .left ⟨b, rfl⟩
  | known hintern hop hx hsame =>
    rw [hintern]
    exact h.intern hop (Record.agree_self hx) hsame
  | number hintern =>
    rw [hintern]
    exact h.knum _

end Twins

/-- Traces that mirror each other are twins if each of them is woven. -/
theorem Match.twins {a : Action α} (h : Match Mirrors Fault.Broken (a.run t) (a.run u))
    (ht : (t.after a).Woven) (hu : (u.after a).Woven) :
    Match Twins Fault.Broken (a.run t) (a.run u) := by
  rw [after] at ht hu
  generalize a.run t = y, a.run u = z at h ht hu ⊢
  cases h with
  | ok h => exact .ok ⟨h, ht.threaded, hu.threaded⟩
  | error h => exact .error ⟨h, ht.threaded, hu.threaded⟩
  | left hstop => exact .left hstop
  | right hstop => exact .right hstop

/-- **Emission, conversion and interning** run in lockstep on twins. -/
theorem compatible_twins : Compatible Twins Fault.Broken where
  folder h := h.view.folder
  comparison h op a b := h.foldComparison_eq op a b
  search h _ _ hop probe := h.search_eq hop probe
  emitRaw hop ty a b _ _ h :=
    (h.emitRaw _ ty a b).twins (h.woven.operate (.step (.emitRaw ⟨_, hop⟩ ty a b)))
      (h.woven'.operate (.step (.emitRaw ⟨_, hop⟩ ty a b)))
  constant k _ _ h :=
    (h.constant k).twins (h.woven.operate (.step (.intern k)))
      (h.woven'.operate (.step (.intern k)))

end Trace

end TraceIR
