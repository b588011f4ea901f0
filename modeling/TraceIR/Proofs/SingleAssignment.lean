import TraceIR.Proofs.History
import TraceIR.Proofs.Survival

/-!
# Single assignment

A trace is in single-assignment form if every reference it holds names something that is there and
older. Scripts build such traces as long as they go back in order, and the elimination of dead code
takes away nothing that is still referred to.

* `Script.Builder.ReachedBy.closed` — what orderly scripts reach is closed.
* `Trace.SingleAssignment` and `Trace.KeepsReferences` — the form of a trace before and after the
  elimination of dead code. `build_single_assignment` says that scripts build such traces.
-/

namespace TraceIR

open Script

/-! ### Closed traces -/

/-- Traces with the same recording are closed together. -/
theorem Trace.SameRecording.closed {t s : Trace} (h : t.SameRecording s) (hs : s.view.Closed) :
    t.view.Closed :=
  hs.of_eq h.nk h.nins h.view_record h.snapshots

private theorem View.Closed.of_startTrace {t : Trace} (h : startTrace {} = .ok t) :
    t.view.Closed := by
  rw [startTrace] at h
  split at h
  · next t₀ hstart =>
    cases h
    obtain ⟨-, hview⟩ := Trace.start_eq_ok hstart
    have hclosed : t₀.view.Closed := by
      rw [hview]
      exact View.Closed.initial ..
    exact hclosed.of_eq rfl rfl rfl rfl
  · cases h

namespace Script.Builder

variable {b b' : Builder} {s : Statement}

/-- A statement that does not go back keeps the trace closed. -/
private theorem Healthy.closed_of_step (h : b.Healthy) (hclosed : b.trace.view.Closed)
    (hstep : (Builder.step s).run b = .ok () b') (hs : ∀ n, s.turn? ≠ some (.returnsTo n)) :
    b'.trace.view.Closed := by
  obtain ⟨-, hadvances, -⟩ := (h.step s).post hstep
  cases hturn : s.turn? with
  | none =>
    rw [hturn] at hadvances
    exact hclosed.cleanGrowths h.trace.sound.wellFormed hadvances.1
  | some turn =>
    rw [hturn] at hadvances
    cases turn with
    | takes n =>
      rw [hadvances.1]
      exact hclosed
    | returnsTo n => exact absurd hturn (hs n)
    | restarts =>
      obtain ⟨t', hrun, -, hview⟩ := h.trace.setup
      obtain ⟨hrun', -⟩ := hadvances
      rw [hrun] at hrun'
      cases hrun'
      rw [hview]
      exact View.Closed.initial ..

/-- **What an orderly script reaches is closed.** The induction is on the length of the script: a
return restores what a shorter script reached. -/
theorem ReachedBy.closed {script : List Statement} (h : b.ReachedBy script)
    (hordered : Orderly script) : b.trace.view.Closed := by
  induction hlen : script.length using Nat.strong_induction_on generalizing script b with
  | _ len ih =>
    rcases List.eq_nil_or_concat script with rfl | ⟨ss, s, rfl⟩
    · obtain ⟨t, ht, hrun⟩ := h
      cases hrun
      exact .of_startTrace ht
    · rw [List.concat_eq_append] at *
      rw [List.length_append, List.length_singleton] at hlen
      by_cases hreturns : ∃ n, s.turn? = some (.returnsTo n)
      · obtain ⟨n, hn⟩ := hreturns
        obtain ⟨pre, c, mid, rfl, b₁, hb₁, hsame⟩ := hordered.exists_restored h hn
        have hshorter : (pre ++ [c]).length < len := by
          simp only [List.length_append, List.length_cons, List.length_nil] at hlen ⊢
          omega
        have hsplit : pre ++ c :: mid ++ [s] = pre ++ [c] ++ (mid ++ [s]) := by simp
        rw [hsplit] at hordered
        exact hsame.closed (ih _ hshorter hb₁ hordered.of_append rfl)
      · obtain ⟨b₀, hb₀, hstep⟩ := reachedBy_concat.mp h
        have hclosed := ih ss.length (by omega) hb₀ hordered.of_append rfl
        exact hb₀.healthy.closed_of_step hclosed hstep fun n hn => hreturns ⟨n, hn⟩

end Script.Builder

namespace Trace

variable {t t' : Trace}

/-- A healthy trace whose snapshots name what is there is fit for the elimination of dead code. -/
theorem Healthy.grounded (h : t.Healthy)
    (hsnapshots : ∀ refs ∈ t.snapshots, ∀ r ∈ refs, r < t.nins) : t.Grounded where
  sound := h.sound
  snapshot_lt := hsnapshots
  operand_lt hu huse := by
    obtain ⟨x, hx, hop⟩ := huse
    exact h.tidy.older hu (record?_eq_ok_iff.mp hx) hop

namespace Survives

/-- **Operands** of what is left are kept. -/
theorem keeps_operand (h : t.Survives t') (ht : t.Sound) (hclosed : t.view.Closed) {r q : Ref}
    {y : Record} (hfirst : Ref.first ≤ r) (hy : t'.record? r = .ok y) (hop : y.RefersTo q) :
    t.Keeps t' q := by
  obtain ⟨x, hx, hxop, hneeded⟩ := h.exists_of_refersTo hfirst (record?_eq_ok_iff.mp hy) hop
  have hlive := (ht.wellFormed.live_iff r).mp ⟨x, hx⟩
  have hnk := ht.wellFormed.nk_le
  rcases hclosed.operand hfirst hx hxop with ⟨hle, hlt⟩ | ⟨hle, hlt⟩
  · -- a constant
    have hlow : q < Ref.first := UInt32.lt_trans hlt (by decide)
    obtain ⟨z, hz⟩ := ht.wellFormed.isLive_iff.mp
      ⟨hle, UInt32.lt_trans hlow (UInt32.lt_of_le_of_lt hfirst hlive.2)⟩
    exact h.keeps hz (.inl hlow)
  · -- an instruction, which is needed because its user is
    obtain ⟨z, hz⟩ := ht.wellFormed.isLive_iff.mp
      ⟨show t.view.nk ≤ q by grind, UInt32.lt_trans hlt hlive.2⟩
    refine h.keeps hz (.inr (.operand hneeded ⟨x, record?_eq_ok_iff.mpr hx, ?_⟩))
    exact ⟨isConst_eq_false_of_le hle, hxop⟩

/-- What **snapshots** name is kept. -/
private theorem keeps_snapshot (h : t.Survives t') (ht : t.Sound) (hclosed : t.view.Closed)
    {refs : List Ref} (hrefs : refs ∈ t'.snapshots) {q : Ref} (hq : q ∈ refs) :
    t.Keeps t' q := by
  have hsnapshots : t'.snapshots = t.snapshots := h.outline.snapshots
  rw [hsnapshots] at hrefs
  obtain ⟨z, hz⟩ := ht.wellFormed.isLive_iff.mp (hclosed.snapshot refs hrefs q hq)
  refine h.keeps hz ?_
  by_cases hfirst : q < Ref.first
  · exact .inl hfirst
  · have hbase := base_le_of_first_le (UInt32.not_lt.mp hfirst)
    exact .inr (.snapshot hrefs hq (isConst_eq_false_of_le hbase))

end Survives

end Trace

/-! ### Scripts -/

theorem optimize_of_run {t t' : Trace} {n : Nat} (h : Trace.eliminateDeadCode.run t = .ok n t') :
    optimize t = .ok t' := by
  change Trace.eliminateDeadCode t = .ok n t' at h
  rw [optimize, h]

/-- Scripts are compiled with dead code elimination by default. -/
theorem Script.Builder.Healthy.deadCode {b : Builder} (h : b.Healthy) :
    b.trace.config.deadCode = true := by
  rw [h.config]
  rfl

/-- Every reference that the trace holds names something that is there and older. -/
structure Trace.SingleAssignment (t : Trace) : Prop where
  /-- An operand is a constant or an older instruction. -/
  operand : ∀ {r x q}, Ref.first ≤ r → t.record? r = .ok x → x.RefersTo q →
    t.nk ≤ q ∧ q < Ref.bias ∨ Ref.base ≤ q ∧ q < r
  /-- The key of a slot is a constant, and was there before. -/
  key : ∀ {r x}, t.record? r = .ok x → x.op = .kslot →
    r < x.left ∧ ∃ y, t.record? x.left = .ok y ∧ y.op.isConst = true
  snapshot : ∀ refs ∈ t.snapshots, ∀ q ∈ refs, t.nk ≤ q ∧ q < t.nins

/-- Whatever `t'` refers to is as it was in `t`, its link apart. -/
structure Trace.KeepsReferences (t t' : Trace) : Prop where
  operand : ∀ {r y q}, Ref.first ≤ r → t'.record? r = .ok y → y.RefersTo q → t.Keeps t' q
  snapshot : ∀ refs ∈ t'.snapshots, ∀ q ∈ refs, t.Keeps t' q

/-- A sound closed trace is in single-assignment form. -/
private theorem Trace.Sound.singleAssignment {t : Trace} (h : t.Sound) (hclosed : t.view.Closed) :
    t.SingleAssignment where
  operand hfirst hx hop := hclosed.operand hfirst (record?_eq_ok_iff.mp hx) hop
  key {r x} hx hop := by
    obtain ⟨hlt, hconst⟩ := hclosed.key (record?_eq_ok_iff.mp hx) hop
    have hlive := (h.wellFormed.live_iff r).mp ⟨x, record?_eq_ok_iff.mp hx⟩
    obtain ⟨y, hy⟩ := h.wellFormed.isLive_iff.mp
      ⟨UInt32.le_of_lt (UInt32.lt_of_le_of_lt hlive.1 hlt), UInt32.lt_trans hconst h.laid.base_lt⟩
    refine ⟨hlt, y, record?_eq_ok_iff.mpr hy, ?_⟩
    rw [h.wellFormed.kind hy]
    exact decide_eq_true hconst
  snapshot := hclosed.snapshot

/-- **Single assignment.** An orderly script builds a trace in single-assignment form, and the
elimination of dead code keeps everything that is still referred to. -/
theorem build_single_assignment {name text : Bytes} {p : Program} {t : Trace}
    (hparse : parseFile name text = .tree p) (hordered : Orderly p.statements)
    (hbuild : build {} name text = .ok t) :
    t.SingleAssignment ∧ ∃ t', optimize t = .ok t' ∧ t.KeepsReferences t' := by
  obtain ⟨p', b, hparse', hb, rfl⟩ := Builder.build_eq_ok_iff.mp hbuild
  rw [hparse] at hparse'
  cases hparse'
  have hsound := hb.healthy.trace.sound
  have hclosed := hb.closed hordered
  have hgrounded := hb.healthy.trace.grounded fun refs hrefs q hq =>
    (hclosed.snapshot refs hrefs q hq).2
  obtain ⟨n, t', hrun, hsurvives⟩ := hgrounded.run_eliminateDeadCode hb.healthy.deadCode
  refine ⟨hsound.singleAssignment hclosed, t', optimize_of_run hrun, fun hfirst hy hop => ?_,
    fun refs hrefs q hq => ?_⟩
  · exact hsurvives.keeps_operand hsound hclosed hfirst hy hop
  · exact hsurvives.keeps_snapshot hsound hclosed hrefs hq

/-- A slot of a table, a return, and an instruction that nothing needs. -/
def slotAndReturn : Bytes :=
  Bytes.ascii ("k = kint 7\nc = kslot k #3\na = checkpoint\nx = SLOAD.int! #1 #0\nrollback a\n" ++
    "x = SLOAD.int! #2 #0\ny = ADD x k\nz = MUL x y\nsnap y c\n")

theorem build_single_assignment_of_slotAndReturn :
    ∃ p t, parseFile [] slotAndReturn = .tree p ∧ Orderly p.statements ∧
      build {} [] slotAndReturn = .ok t ∧ t.SingleAssignment ∧
      ∃ t', optimize t = .ok t' ∧ t.KeepsReferences t' := by
  have h : (parseFile [] slotAndReturn).tree?.any (fun p =>
      isOrderly p.statements && (Builder.reach? p.statements).isSome) = true := by
    decide +kernel
  obtain ⟨p, hparse, h⟩ := Parsed.exists_of_any h
  obtain ⟨hordered, hreach⟩ := Bool.and_eq_true_iff.mp h
  obtain ⟨b, hb⟩ := Option.isSome_iff_exists.mp hreach
  have hordered := (isOrderly_iff _).mp hordered
  have hbuild := Builder.build_eq_ok_iff.mpr ⟨p, b, hparse, Builder.reach?_eq_some_iff.mp hb, rfl⟩
  exact ⟨p, b.trace, hparse, hordered, hbuild, build_single_assignment hparse hordered hbuild⟩

end TraceIR
