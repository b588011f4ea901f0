import TraceIR.Proofs.Parsing
import TraceIR.Proofs.SingleAssignment

/-!
# Compilation comes to an answer

A script gets a printed trace, or it is told what is wrong with it. The one thing that can go wrong
otherwise is a snapshot that survives a return to a checkpoint which an older one has overtaken.

* `Answered` — compilation ends with one of the two.
* `Trace.Printable` — every live record can be printed. What dead code elimination leaves is
  printable (`Survives.printable`), and a printable trace is printed (`Dump.exists_trace`).
* `compile_answered_iff_snapshots_held` — which scripts are answered.
-/

namespace TraceIR

open Script

/-! ### Answers -/

/-- The error is a broken rule and nothing that is wrong with the script. -/
def CompileError.isBreach : CompileError → Bool
  | .fault (.broken _) => true
  | .endless => true
  | _ => false

/-- The compilation ends with a printed trace, or with what is wrong with the script. -/
def Answered : Except CompileError Bytes → Prop
  | .ok _ => True
  | .error e => e.isBreach = false

instance : (x : Except CompileError Bytes) → Decidable (Answered x)
  | .ok _ => inferInstanceAs (Decidable True)
  | .error e => inferInstanceAs (Decidable (e.isBreach = false))

/-- Building a script breaks no rule. -/
private theorem isBreach_of_build {name text : Bytes} {e : CompileError}
    (h : build {} name text = .error e) : e.isBreach = false := by
  rw [build] at h
  split at h
  · cases h
    rfl
  · next hparse => exact absurd hparse (parseFile_ne_endless name text)
  · next p hparse =>
    obtain ⟨t, ht⟩ := Builder.exists_startTrace
    rw [show startTrace ({} : Settings).recording = .ok t from ht, ok_bind] at h
    split at h
    · cases h
    · next hrun => exact absurd hrun (Builder.Healthy.of_startTrace ht).run_not_broken
    · cases h
      rfl

/-! ### Printing -/

/-- Every live record is there, and every floating-point constant has its number. -/
def Trace.Printable (t : Trace) : Prop :=
  ∀ {r}, t.nk ≤ r → r < t.nins →
    ∃ x, t.record? r = .ok x ∧ (x.op = .knum → ∃ n, x.number? t.pool = some n)

private theorem exists_mapM {ε α β : Type} {f : α → Except ε β} {l : List α}
    (h : ∀ a ∈ l, ∃ b, f a = .ok b) : ∃ bs, l.mapM f = .ok bs := by
  induction l with
  | nil => exact ⟨[], rfl⟩
  | cons a l ih =>
    obtain ⟨ha, hl⟩ := List.forall_mem_cons.mp h
    obtain ⟨b, hb⟩ := ha
    obtain ⟨bs, hbs⟩ := ih hl
    refine ⟨b :: bs, ?_⟩
    rw [List.mapM_cons, hb, hbs]
    rfl

namespace Dump

variable {f : Formatter} {t : Trace} {r : Ref}

private theorem exists_constant {p : Pool} {x : Record}
    (h : x.op = .knum → ∃ n, x.number? p = some n) :
    ∃ s, constant p x f = .ok s := by
  rw [constant]
  split
  · exact ⟨_, rfl⟩
  · next hop =>
    obtain ⟨n, hn⟩ := h hop
    rw [Record.number?] at hn
    rw [hn]
    exact ⟨_, rfl⟩
  · split
    · exact ⟨_, rfl⟩
    · exact ⟨_, rfl⟩
  all_goals exact ⟨_, rfl⟩

private theorem exists_line (h : t.Printable) (hnk : t.nk ≤ r) (hnins : r < t.nins) :
    ∃ s, line t r f = .ok s := by
  obtain ⟨x, hx, hnumber⟩ := h hnk hnins
  have hdetails : ∃ s, details t.pool x f = .ok s := by
    rw [details]
    split
    · obtain ⟨s, hs⟩ := exists_constant hnumber
      rw [hs]
      exact ⟨_, rfl⟩
    · exact ⟨_, rfl⟩
  obtain ⟨s, hs⟩ := hdetails
  rw [line, hx, ok_bind, recordLine, hs]
  exact ⟨_, rfl⟩

private theorem exists_lines (h : t.Printable) {refs : List Ref}
    (hrefs : ∀ r ∈ refs, t.nk ≤ r ∧ r < t.nins) : ∃ s, lines t refs f = .ok s := by
  obtain ⟨ss, hss⟩ := exists_mapM fun r hr => exists_line h (hrefs r hr).1 (hrefs r hr).2
  rw [lines, hss]
  exact ⟨_, rfl⟩

/-- The constants that are printed are the interned ones. -/
theorem mem_constantRefs_iff (h : t.Laid) : r ∈ constantRefs t ↔ t.nk ≤ r ∧ r < Ref.true := by
  have hnk := UInt32.le_iff_toNat_le.mp h.nk_le
  rw [Ref.toNat_true] at hnk
  have hlast : (Ref.true - 1).toNat = 0x7ffc := rfl
  rw [UInt32.le_iff_toNat_le, UInt32.lt_iff_toNat_lt, Ref.toNat_true, constantRefs, List.mem_map]
  constructor
  · rintro ⟨i, hi, rfl⟩
    rw [List.mem_range, Ref.toNat_true] at hi
    have hsize : i < UInt32.size := Nat.lt_trans (Nat.lt_of_lt_of_le hi (Nat.sub_le ..)) (by decide)
    have hi' : (UInt32.ofNat i).toNat = i := UInt32.toNat_ofNat_of_lt hsize
    have hle : UInt32.ofNat i ≤ Ref.true - 1 := by
      rw [UInt32.le_iff_toNat_le, hi', hlast]
      omega
    rw [UInt32.toNat_sub_of_le _ _ hle, hi', hlast]
    omega
  · rintro ⟨hlow, hhigh⟩
    have hle : r ≤ Ref.true - 1 := by
      rw [UInt32.le_iff_toNat_le, hlast]
      omega
    refine ⟨(Ref.true - 1 - r).toNat, ?_, ?_⟩
    · rw [List.mem_range, UInt32.toNat_sub_of_le _ _ hle, hlast, Ref.toNat_true]
      omega
    · rw [UInt32.ofNat_toNat]
      grind

/-- Counting up from one reference gives all references below another one. -/
theorem mem_map_range_iff {low high : Ref} (h : high ≤ Ref.limit) :
    r ∈ (List.range (high.toNat - low.toNat)).map (fun i => low + UInt32.ofNat i) ↔
      low ≤ r ∧ r < high := by
  have hlimit := UInt32.le_iff_toNat_le.mp h
  rw [Ref.toNat_limit] at hlimit
  rw [List.mem_map]
  constructor
  · rintro ⟨i, hi, rfl⟩
    rw [List.mem_range] at hi
    have hsize : i < UInt32.size := by
      have : UInt32.size = 0x100000000 := rfl
      omega
    have hi' : (UInt32.ofNat i).toNat = i := UInt32.toNat_ofNat_of_lt hsize
    rw [UInt32.le_iff_toNat_le, UInt32.lt_iff_toNat_lt, UInt32.toNat_add, hi']
    omega
  · rintro ⟨hlow, hhigh⟩
    refine ⟨(r - low).toNat, ?_, ?_⟩
    · rw [List.mem_range, UInt32.toNat_sub_of_le _ _ hlow]
      rw [UInt32.le_iff_toNat_le] at hlow
      rw [UInt32.lt_iff_toNat_lt] at hhigh
      omega
    · rw [UInt32.ofNat_toNat]
      grind

theorem mem_instructionRefs_iff (h : t.Laid) :
    r ∈ instructionRefs t ↔ Ref.base ≤ r ∧ r < t.nins :=
  mem_map_range_iff h.nins_le

private theorem isLive_constantRefs (h : t.Laid) (hr : r ∈ constantRefs t) :
    t.nk ≤ r ∧ r < t.nins := by
  obtain ⟨hnk, htrue⟩ := (mem_constantRefs_iff h).mp hr
  have hborder : Ref.true < Ref.base := by decide
  exact ⟨hnk, UInt32.lt_trans htrue (UInt32.lt_trans hborder h.base_lt)⟩

private theorem isLive_instructionRefs (h : t.Laid) (hr : r ∈ instructionRefs t) :
    t.nk ≤ r ∧ r < t.nins := by
  obtain ⟨hbase, hnins⟩ := (mem_instructionRefs_iff h).mp hr
  have hborder : Ref.true ≤ Ref.base := by decide
  exact ⟨UInt32.le_trans h.nk_le (UInt32.le_trans hborder hbase), hnins⟩

/-- **A printable trace** is printed. -/
theorem exists_trace (h : t.Printable) (hlaid : t.Laid) (f : Formatter) :
    ∃ s, trace t f = .ok s := by
  obtain ⟨s, hs⟩ := exists_lines h fun r hr => isLive_constantRefs hlaid hr
  obtain ⟨s', hs'⟩ := exists_lines h fun r hr => isLive_instructionRefs hlaid hr
  rw [trace, hs, hs']
  exact ⟨_, rfl⟩

end Dump

/-- What dead code elimination leaves of a healthy trace is printable. -/
theorem Trace.Survives.printable {t t' : Trace} (h : t.Survives t') (ht : t.Healthy) :
    t'.Printable := by
  intro r hnk hnins
  have hpool : t'.pool = t.pool := h.outline.pool
  obtain ⟨x, hx⟩ := h.laid.exists_record ⟨hnk, hnins⟩
  refine ⟨x, record?_eq_ok_iff.mpr hx, fun hop => ?_⟩
  by_cases hfirst : r < Ref.first
  · rw [hpool]
    rw [h.below hfirst] at hx
    exact ht.tidy.number hx hop
  · -- from the first instruction on there is no constant
    have hins := isConst_eq_false_of_le (base_le_of_first_le (UInt32.not_lt.mp hfirst))
    have hkind := h.isConst_op ht.sound hx
    rw [hop, hins] at hkind
    cases hkind

/-! ### Compilation -/

/-- The instructions that snapshots name are there. -/
def Trace.SnapshotsHeld (t : Trace) : Prop :=
  ∀ refs ∈ t.snapshots, ∀ r ∈ refs, r < t.nins

section Compile

variable {name text : Bytes} {t : Trace}

/-- What is wrong with a script is passed on. -/
private theorem compile_of_build_error {e : CompileError} (h : build {} name text = .error e) :
    compile {} name text = .error e := by
  rw [compile, h]
  rfl

/-- Dead code can be eliminated if snapshots name what is there. -/
theorem exists_optimize (h : build {} name text = .ok t) (hheld : t.SnapshotsHeld) :
    ∃ t', optimize t = .ok t' ∧ t.Healthy ∧ t.Survives t' := by
  obtain ⟨p, b, -, hb, rfl⟩ := Builder.build_eq_ok_iff.mp h
  have hgrounded := hb.healthy.trace.grounded hheld
  obtain ⟨n, t', hrun, hsurvives⟩ := hgrounded.run_eliminateDeadCode hb.healthy.deadCode
  exact ⟨t', optimize_of_run hrun, hb.healthy.trace, hsurvives⟩

/-- A trace whose snapshots name what is there is printed. -/
private theorem exists_compile (h : build {} name text = .ok t) (hheld : t.SnapshotsHeld) :
    ∃ dump, compile {} name text = .ok dump := by
  obtain ⟨t', hoptimize, ht, hsurvives⟩ := exists_optimize h hheld
  obtain ⟨dump, hdump⟩ := Dump.exists_trace (hsurvives.printable ht) hsurvives.laid .decimal
  refine ⟨dump ++ [], ?_⟩
  rw [compile, h, ok_bind, hoptimize, ok_bind, hdump]
  rfl

/-- A snapshot that names what is not there stops the compilation. -/
private theorem exists_compile_of_not_held (h : build {} name text = .ok t)
    (hheld : ¬ t.SnapshotsHeld) :
    ∃ i r, compile {} name text = .error (.fault (.broken (.snapshotBeyond i r t.nins))) := by
  obtain ⟨p, b, -, hb, rfl⟩ := Builder.build_eq_ok_iff.mp h
  obtain ⟨i, r, hrun⟩ :=
    hb.healthy.trace.sound.laid.run_eliminateDeadCode_of_beyond hb.healthy.deadCode hheld
  refine ⟨i, r, ?_⟩
  change Trace.eliminateDeadCode b.trace = _ at hrun
  rw [compile, h, ok_bind, optimize, hrun]
  rfl

theorem answered_iff_snapshotsHeld (name text : Bytes) :
    Answered (compile {} name text) ↔ ∀ t, build {} name text = .ok t → t.SnapshotsHeld := by
  constructor
  · intro hanswered t hbuild
    by_contra hheld
    obtain ⟨i, r, hcompile⟩ := exists_compile_of_not_held hbuild hheld
    rw [hcompile] at hanswered
    cases hanswered
  · intro hheld
    cases hbuild : build {} name text with
    | error e =>
      rw [compile_of_build_error hbuild]
      exact isBreach_of_build hbuild
    | ok t =>
      obtain ⟨dump, hcompile⟩ := exists_compile hbuild (hheld t hbuild)
      rw [hcompile]
      exact True.intro

/-- A script that is compiled has a trace, and dead code elimination left what is printed. -/
theorem exists_of_compile {dump : Bytes} (h : compile {} name text = .ok dump) :
    ∃ t t', build {} name text = .ok t ∧ optimize t = .ok t' ∧ t.Survives t' := by
  cases hbuild : build {} name text with
  | error e =>
    rw [compile_of_build_error hbuild] at h
    cases h
  | ok t =>
    by_cases hheld : t.SnapshotsHeld
    · obtain ⟨t', hoptimize, -, hsurvives⟩ := exists_optimize hbuild hheld
      exact ⟨t, t', rfl, hoptimize, hsurvives⟩
    · obtain ⟨i, r, hstopped⟩ := exists_compile_of_not_held hbuild hheld
      rw [hstopped] at h
      cases h

/-- **A script is answered** exactly if the snapshots of its trace name what is there, and orderly
scripts always are. A script that is not answered is stopped by such a snapshot and by nothing
else. -/
theorem compile_answered_iff_snapshots_held (name text : Bytes) :
    (Answered (compile {} name text) ↔ ∀ t, build {} name text = .ok t → t.SnapshotsHeld) ∧
      (∀ p, parseFile name text = .tree p → Orderly p.statements →
        Answered (compile {} name text)) ∧
      ∀ e, compile {} name text = .error e → e.isBreach = true →
        ∃ i r high, e = .fault (.broken (.snapshotBeyond i r high)) := by
  refine ⟨answered_iff_snapshotsHeld name text, fun p hparse hordered => ?_,
    fun e hcompile hbreach => ?_⟩
  · rw [answered_iff_snapshotsHeld]
    intro t hbuild refs hrefs r hr
    obtain ⟨p', b, hparse', hb, rfl⟩ := Builder.build_eq_ok_iff.mp hbuild
    rw [hparse] at hparse'
    cases hparse'
    exact ((hb.closed hordered).snapshot refs hrefs r hr).2
  · cases hbuild : build {} name text with
    | error e' =>
      rw [compile_of_build_error hbuild] at hcompile
      cases hcompile
      rw [isBreach_of_build hbuild] at hbreach
      cases hbreach
    | ok t =>
      by_cases hheld : t.SnapshotsHeld
      · obtain ⟨dump, hdump⟩ := exists_compile hbuild hheld
        rw [hdump] at hcompile
        cases hcompile
      · obtain ⟨i, r, hstopped⟩ := exists_compile_of_not_held hbuild hheld
        rw [hstopped] at hcompile
        cases hcompile
        exact ⟨i, r, t.nins, rfl⟩

end Compile

theorem compile_answered_of_nestedReturns :
    ∃ p, parseFile [] Builder.nestedReturns = .tree p ∧ Orderly p.statements ∧
      Answered (compile {} [] Builder.nestedReturns) := by
  have h : (parseFile [] Builder.nestedReturns).tree?.any (fun p => Orderly p.statements) =
      true := by decide +kernel
  obtain ⟨p, hparse, hordered⟩ := Parsed.exists_of_any h
  have hordered := of_decide_eq_true hordered
  exact ⟨p, hparse, hordered,
    (compile_answered_iff_snapshots_held [] _).2.1 p hparse hordered⟩

/-- A snapshot that is taken after a checkpoint was overtaken, and outlives the return to it. -/
def overtakenSnapshot : Bytes :=
  Bytes.ascii ("a = checkpoint\nsnap\nb = checkpoint\nrollback a\n" ++
    "y = SLOAD.num! #2 #0\nsnap y\nrollback b\n")

/-- Its return leads behind what the snapshot names. -/
theorem not_answered_of_overtakenSnapshot :
    ¬ Answered (compile {} (Bytes.ascii "r.tjs") overtakenSnapshot) := by
  decide +kernel

end TraceIR
