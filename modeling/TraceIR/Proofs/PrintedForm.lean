import TraceIR.Proofs.Answering
import TraceIR.Proofs.Legibility
import TraceIR.Proofs.Passes

/-!
# The printed form determines the trace

The lines of a dump are told apart by their newlines and the sections by their headings, since no
record is printed like a heading. So traces with the same printed form have as many constants and
as many instructions, and their lines are the same one by one.

* `Trace.Shown` — what the printed form relies on. It holds of legible traces, and dead code
  elimination keeps it (`Legible.shown_of_eliminateDeadCode`).
* `Dump.exists_sections` — the lines of a dump. `Shown.sections_inj` — they are determined by it.
* `IsBuilt.dump_determines_trace` — traces that scripts build, with or without their dead code, are
  the same in everything that can be seen if their printed forms are. Any formatter that writes
  numbers in base ten will do.
-/

namespace TraceIR

/-! ### Traces that can be printed -/

namespace Trace

variable {t t' u : Trace}

/-- Types have names, the fixed constants are those that every trace begins with, and there are no
others of their kind. -/
structure Shown (t : Trace) : Prop where
  laid : t.Laid
  view : t.view.Legible
  interned : ∀ {r x}, t.view.record r = some x → ¬ r.IsFixed → x.op ≠ .kpri

private theorem Legible.shown (h : t.Legible) : t.Shown := by
  refine ⟨h.sound.laid, h.view, ?_⟩
  intro r x hx hfixed hop
  have hconst : r.isConst = true := by
    rw [← h.sound.wellFormed.kind hx, hop]
    rfl
  -- an interned constant has a key, and no key has this opcode
  obtain ⟨k, hk, -⟩ := h.canonical.canonical.interned hconst hfixed hx
  have hkop := Record.op_of_key? hk.key
  rw [hop] at hkop
  cases k with
  | int | num | object | pointer | null | slot => cases hkop

/-- A pass that does something leaves at a reference what was there, up to the link, or a blank.
Below the first instruction it changes nothing. -/
theorem Sweeps.left_of_eliminate (hsweeps : t.Sweeps) (h : t.Laid) :
    (t.after eliminateDeadCode).Laid ∧
      (∀ {r}, r < Ref.first → (t.after eliminateDeadCode).view.record r = t.view.record r) ∧
      ∀ {r y}, (t.after eliminateDeadCode).view.record r = some y →
        (∃ x, t.view.record r = some x ∧ y.unlinked = x.unlinked) ∨ y.unlinked = .blank := by
  obtain ⟨s, t₁, hs, -, hlaid, hview⟩ := hsweeps.eliminate (I := fun _ _ _ => True) h
    (fun _ _ _ _ _ => True.intro) fun _ _ => True.intro
  have hbelow : ∀ {r}, r < Ref.first →
      (t.after eliminateDeadCode).view.record r = t.view.record r := by
    intro r hr
    rw [hview, (hs.oldest .nop).relink_record _ hr, hs.ahead hr]
  have houtline : t.view.SameOutline (t.after eliminateDeadCode).view := by
    rw [hview]
    exact hs.outline.trans t₁.view.sameOutline_relink
  refine ⟨hlaid, hbelow, ?_⟩
  intro r y hy
  by_cases hfirst : r < Ref.first
  · rw [hbelow hfirst] at hy
    exact .inl ⟨y, hy, rfl⟩
  · have hfirst := UInt32.not_lt.mp hfirst
    have hlive := (hlaid.record_isSome_iff r).mp (Option.isSome_iff_exists.mpr ⟨y, hy⟩)
    have hlt : r < t.nins := by
      rw [← show (t.after eliminateDeadCode).nins = t.nins from houtline.nins]
      exact hlive.2
    -- closing the chain of `NOP`s changes a link only
    have hbody : (t₁.view.record r).map Record.unlinked = some y.unlinked := by
      rw [← View.relink_record_unlinked, ← hview, hy, Option.map_some]
    by_cases hkept : t.Kept r
    · rw [hs.kept hfirst hkept] at hbody
      obtain ⟨x, hx, hxy⟩ := Option.map_eq_some_iff.mp hbody
      exact .inl ⟨x, hx, hxy.symm⟩
    · rw [hs.dropped hfirst hlt hkept] at hbody
      exact .inr (Option.some.inj hbody).symm

/-- **Dead code elimination** leaves a trace that can be printed. -/
theorem Legible.shown_of_eliminateDeadCode (h : t.Legible) :
    (t.after eliminateDeadCode).Shown := by
  have hshown := h.shown
  by_cases hsweeps : t.Sweeps
  · obtain ⟨hlaid, hbelow, hleft⟩ := hsweeps.left_of_eliminate h.sound.laid
    refine ⟨hlaid, ⟨?_, ?_⟩, ?_⟩
    · intro r x hx
      have hfirst : r < Ref.first := by
        rcases View.initialRecord_eq_some hx with ⟨rfl, -⟩ | ⟨hfixed, -⟩
        · decide
        · exact UInt32.lt_trans (Ref.isFixed_iff.mp hfixed).2 (by decide)
      rw [hbelow hfirst]
      exact h.view.fixed hx
    · intro r y hy
      rcases hleft hy with ⟨x, hx, hxy⟩ | hblank
      · have hty : y.unlinked.ty = x.unlinked.ty := congrArg Record.ty hxy
        change y.ty = x.ty at hty
        rw [hty]
        exact h.view.named hx
      · have hty : y.ty = Ty.nil := congrArg Record.ty hblank
        rw [hty]
        exact isNamed_of_isPrimitive (by decide)
    · intro r y hy hfixed
      rcases hleft hy with ⟨x, hx, hxy⟩ | hblank
      · have hop : y.unlinked.op = x.unlinked.op := congrArg Record.op hxy
        change y.op = x.op at hop
        rw [hop]
        exact hshown.interned hx hfixed
      · have hop : y.op = .nop := congrArg Record.op hblank
        rw [hop]
        decide
  · rw [h.sound.laid.eliminate_of_not_sweeps hsweeps]
    exact hshown

end Trace

/-! ### Lines and sections -/

private theorem forall₂_of_mapM {ε α β : Type} {f : α → Except ε β} {l : List α} :
    ∀ {bs : List β}, l.mapM f = .ok bs → List.Forall₂ (fun a b => f a = .ok b) l bs := by
  induction l with
  | nil =>
    intro bs h
    cases h
    exact .nil
  | cons a l ih =>
    intro bs h
    rw [List.mapM_cons] at h
    obtain ⟨b, hb, h⟩ := exists_of_bind h
    obtain ⟨bs', hbs', h⟩ := exists_of_bind h
    cases h
    exact .cons hb (ih hbs')

namespace Dump

variable {f : Formatter} {t u : Trace} {r : Ref} {l dump : Bytes}

/-- The line of a reference that is not a fixed one. -/
private theorem line_eq_ok (h : t.Shown) (hr : ¬ r.IsFixed) (hl : line t r f = .ok l) :
    ∃ x, t.record? r = .ok x ∧ x.op ≠ .kpri ∧ x.ty.IsNamed ∧ recordLine t.pool r x f = .ok l := by
  obtain ⟨x, hx, hl⟩ := exists_of_bind hl
  have hrecord := Trace.record?_eq_ok_iff.mp hx
  exact ⟨x, hx, h.interned hrecord hr, h.view.named hrecord, hl⟩

private theorem isLine_line (hf : f.WritesDecimals) (h : t.Shown) (hr : ¬ r.IsFixed)
    (hl : line t r f = .ok l) : l.IsLine := by
  obtain ⟨x, -, hpri, -, hl⟩ := line_eq_ok h hr hl
  exact isLine_recordLine hf hpri hl

/-- **No record** is printed like a heading. -/
theorem line_ne_heading (hf : f.WritesDecimals) (h : t.Shown) (hr : ¬ r.IsFixed)
    (hl : line t r f = .ok l) (b : Bytes) : l ≠ 0x2d :: b := by
  obtain ⟨x, -, hpri, -, hl⟩ := line_eq_ok h hr hl
  obtain ⟨rest, -, -, rfl⟩ := recordLine_eq_ok hf hpri hl
  intro hheading
  unfold columns at hheading
  cases hname : refName r f with
  | nil => exact refName_ne_nil hf r hname
  | cons c cs =>
    rw [hname] at hheading
    have hc : c = 0x2d := (List.cons.inj hheading).1
    refine minus_notMem_refName hf r ?_
    rw [hname, hc]
    exact List.mem_cons_self

private theorem not_isFixed_of_constant (h : t.Laid) (hr : r ∈ constantRefs t) : ¬ r.IsFixed := by
  intro hfixed
  have htrue := ((mem_constantRefs_iff h).mp hr).2
  exact absurd htrue (UInt32.not_lt.mpr (Ref.isFixed_iff.mp hfixed).1)

private theorem not_isFixed_of_instruction (h : t.Laid) (hr : r ∈ instructionRefs t) :
    ¬ r.IsFixed := by
  intro hfixed
  have hbase := ((mem_instructionRefs_iff h).mp hr).1
  exact absurd (Ref.isFixed_iff.mp hfixed).2 (UInt32.not_lt.mpr hbase)

/-- The lines of the snapshots. -/
def snapshotLines (f : Formatter) (snapshots : List (List Ref)) : List Bytes :=
  snapshots.zipIdx.map fun e => snapshotLine e.2 e.1 f

/-- The lines of a dump, with the headings of its sections. -/
def sections (constants instructions snapshots : List Bytes) : List Bytes :=
  Bytes.ascii "---- constants\n" :: (constants ++ Bytes.ascii "---- IR\n" ::
    (instructions ++ Bytes.ascii "---- snapshots\n" :: snapshots))

/-- The lines are those of the references, one by one. -/
def Lists (f : Formatter) (t : Trace) (refs : List Ref) (ls : List Bytes) : Prop :=
  List.Forall₂ (fun r l => line t r f = .ok l) refs ls

/-- What holds of all lines of the references holds of all lines that are listed. -/
private theorem Lists.forall_mem {refs : List Ref} {ls : List Bytes} {P : Bytes → Prop}
    (h : Lists f t refs ls) (hP : ∀ r ∈ refs, ∀ l, line t r f = .ok l → P l) :
    ∀ l ∈ ls, P l := by
  induction h with
  | nil =>
    intro l hl
    cases hl
  | cons hline hlines ih =>
    obtain ⟨hfirst, hrest⟩ := List.forall_mem_cons.mp hP
    exact List.forall_mem_cons.mpr ⟨hfirst _ hline, ih hrest⟩

/-- Lines that are listed on both sides are the same reference by reference. -/
private theorem Lists.exists_line {refs : List Ref} {ls : List Bytes} (ht : Lists f t refs ls)
    (hu : Lists f u refs ls) : ∀ r ∈ refs, ∃ l, line t r f = .ok l ∧ line u r f = .ok l := by
  induction ht with
  | nil =>
    intro r hr
    cases hr
  | cons hline hlines ih =>
    cases hu with
    | cons hline' hlines' => exact List.forall_mem_cons.mpr ⟨⟨_, hline, hline'⟩, ih hlines'⟩

/-- **A dump** consists of its lines. -/
theorem exists_sections (h : trace t f = .ok dump) :
    ∃ constants instructions, Lists f t (constantRefs t) constants ∧
      Lists f t (instructionRefs t) instructions ∧
      dump = (sections constants instructions (snapshotLines f t.snapshots.toList)).flatten := by
  obtain ⟨c, hc, h⟩ := exists_of_bind h
  obtain ⟨i, hi, h⟩ := exists_of_bind h
  obtain ⟨constants, hconstants, hc⟩ := exists_of_bind hc
  obtain ⟨instructions, hinstructions, hi⟩ := exists_of_bind hi
  cases hc
  cases hi
  refine ⟨constants, instructions, forall₂_of_mapM hconstants, forall₂_of_mapM hinstructions, ?_⟩
  rw [← Except.ok.inj h]
  unfold sections
  rw [List.flatten_cons, List.flatten_append, List.flatten_cons, List.flatten_append,
    List.flatten_cons]
  simp only [List.append_assoc]
  rfl

section

variable (hf : f.WritesDecimals)
include hf

private theorem snapshotLines_injective {l m : List (List Ref)}
    (h : snapshotLines f l = snapshotLines f m) : l = m := by
  -- over the index of the first snapshot
  have hfrom : ∀ (l m : List (List Ref)) (i : Nat),
      (l.zipIdx i).map (fun e => snapshotLine e.2 e.1 f) =
        (m.zipIdx i).map (fun e => snapshotLine e.2 e.1 f) → l = m := by
    intro l
    induction l with
    | nil =>
      intro m i h
      cases m with
      | nil => rfl
      | cons refs m => cases h
    | cons refs l ih =>
      intro m i h
      cases m with
      | nil => cases h
      | cons refs' m =>
        obtain ⟨hline, hrest⟩ := List.cons.inj h
        have hrefs : refs = refs' := snapshotLine_injective hf hline
        rw [hrefs, ih m (i + 1) hrest]
  exact hfrom l m 0 h

private theorem isLine_sections {constants instructions : List Bytes} (h : t.Shown)
    (hc : Lists f t (constantRefs t) constants) (hi : Lists f t (instructionRefs t) instructions)
    (snapshots : List (List Ref)) :
    ∀ l ∈ sections constants instructions (snapshotLines f snapshots), l.IsLine := by
  have hheading : ∀ {w : Bytes}, 0x0a ∉ w → (w ++ [0x0a]).IsLine := fun hw => ⟨_, rfl, hw⟩
  unfold sections
  simp only [List.forall_mem_cons, List.forall_mem_append]
  refine ⟨hheading (w := Bytes.ascii "---- constants") (by decide), ?_,
    hheading (w := Bytes.ascii "---- IR") (by decide), ?_,
    hheading (w := Bytes.ascii "---- snapshots") (by decide), ?_⟩
  · refine hc.forall_mem ?_
    intro r hr l hl
    exact isLine_line hf h (not_isFixed_of_constant h.laid hr) hl
  · refine hi.forall_mem ?_
    intro r hr l hl
    exact isLine_line hf h (not_isFixed_of_instruction h.laid hr) hl
  · intro l hl
    obtain ⟨e, -, rfl⟩ := List.mem_map.mp hl
    exact isLine_snapshotLine hf _ _

/-- **The sections** of a dump are told apart by their headings. -/
theorem sections_inj {constants instructions constants' instructions' : List Bytes}
    {snapshots snapshots' : List (List Ref)} (ht : t.Shown) (hu : u.Shown)
    (hc : Lists f t (constantRefs t) constants) (hi : Lists f t (instructionRefs t) instructions)
    (hc' : Lists f u (constantRefs u) constants')
    (hi' : Lists f u (instructionRefs u) instructions')
    (h : (sections constants instructions (snapshotLines f snapshots)).flatten =
      (sections constants' instructions' (snapshotLines f snapshots')).flatten) :
    constants = constants' ∧ instructions = instructions' ∧ snapshots = snapshots' := by
  have hlines := Bytes.flatten_injective (isLine_sections hf ht hc hi _)
    (isLine_sections hf hu hc' hi' _) h
  have hconstant : ∀ {t : Trace} {ls : List Bytes} (b : Bytes), t.Shown →
      Lists f t (constantRefs t) ls → 0x2d :: b ∉ ls := by
    intro t ls b ht hls hmem
    refine hls.forall_mem (P := fun l => l ≠ 0x2d :: b) ?_ _ hmem rfl
    intro r hr l hl
    exact line_ne_heading hf ht (not_isFixed_of_constant ht.laid hr) hl b
  have hinstruction : ∀ {t : Trace} {ls : List Bytes} (b : Bytes), t.Shown →
      Lists f t (instructionRefs t) ls → 0x2d :: b ∉ ls := by
    intro t ls b ht hls hmem
    refine hls.forall_mem (P := fun l => l ≠ 0x2d :: b) ?_ _ hmem rfl
    intro r hr l hl
    exact line_ne_heading hf ht (not_isFixed_of_instruction ht.laid hr) hl b
  obtain ⟨rfl, hrest⟩ := append_cons_inj (hconstant _ ht hc) (hconstant _ hu hc')
    (List.cons.inj hlines).2
  obtain ⟨rfl, hlast⟩ := append_cons_inj (hinstruction _ ht hi) (hinstruction _ hu hi') hrest
  exact ⟨rfl, rfl, snapshotLines_injective hf hlast⟩

end

end Dump

/-! ### What a dump determines -/

namespace Trace

variable {f : Formatter} {t u : Trace}

/-- Everything that can be seen of the traces is the same: the counters, the snapshots, and what can
be seen of the records. -/
structure LooksLike (t u : Trace) : Prop where
  nk : t.nk = u.nk
  nins : t.nins = u.nins
  snapshots : t.snapshots = u.snapshots
  record : ∀ r, t.isLive r = true →
    ∃ x y, t.record? r = .ok x ∧ u.record? r = .ok y ∧ x.LooksLike t.pool u.pool y

private theorem Shown.nk_eq (ht : t.Shown) (hu : u.Shown)
    (h : (Dump.constantRefs t).length = (Dump.constantRefs u).length) : t.nk = u.nk := by
  have hnk := UInt32.le_iff_toNat_le.mp ht.laid.nk_le
  have hnk' := UInt32.le_iff_toNat_le.mp hu.laid.nk_le
  unfold Dump.constantRefs at h
  rw [List.length_map, List.length_range, List.length_map, List.length_range] at h
  apply UInt32.toNat_inj.mp
  omega

private theorem Shown.nins_eq (ht : t.Shown) (hu : u.Shown)
    (h : (Dump.instructionRefs t).length = (Dump.instructionRefs u).length) : t.nins = u.nins := by
  have hnins := UInt32.lt_iff_toNat_lt.mp ht.laid.base_lt
  have hnins' := UInt32.lt_iff_toNat_lt.mp hu.laid.base_lt
  unfold Dump.instructionRefs at h
  rw [List.length_map, List.length_range, List.length_map, List.length_range] at h
  apply UInt32.toNat_inj.mp
  omega

/-- Records with the same line look alike. -/
private theorem Shown.looksLike_of_line (hf : f.WritesDecimals) (ht : t.Shown) (hu : u.Shown)
    {r : Ref} {l : Bytes} (hr : ¬ r.IsFixed) (hl : Dump.line t r f = .ok l)
    (hl' : Dump.line u r f = .ok l) :
    ∃ x y, t.record? r = .ok x ∧ u.record? r = .ok y ∧ x.LooksLike t.pool u.pool y := by
  obtain ⟨x, hx, hxpri, hxty, hl⟩ := Dump.line_eq_ok ht hr hl
  obtain ⟨y, hy, hypri, hyty, hl'⟩ := Dump.line_eq_ok hu hr hl'
  exact ⟨x, y, hx, hy, Dump.looksLike_of_recordLine hf hxpri hypri hxty hyty hl hl'⟩

/-- The fixed constants are not printed, but they are always the same. -/
private theorem Shown.looksLike_of_fixed (ht : t.Shown) (hu : u.Shown) {r : Ref} (hr : r.IsFixed) :
    ∃ x y, t.record? r = .ok x ∧ u.record? r = .ok y ∧ x.LooksLike t.pool u.pool y := by
  obtain ⟨x, hx, hop⟩ : ∃ x, View.initialRecord r = some x ∧ x.op = .kpri := by
    rcases hr with rfl | rfl | rfl
    · exact ⟨_, rfl, rfl⟩
    · exact ⟨_, rfl, rfl⟩
    · exact ⟨_, rfl, rfl⟩
  refine ⟨x, x, record?_eq_ok_iff.mpr (ht.view.fixed hx), record?_eq_ok_iff.mpr (hu.view.fixed hx),
    ?_⟩
  exact {
    op := rfl
    tag := rfl
    guard := rfl
    left := fun _ => rfl
    right := fun _ => rfl
    int := fun _ => rfl
    number := fun h => by
      rw [hop] at h
      cases h
    text := fun _ => rfl
    pointer := fun _ => rfl }

/-- **Traces with the same printed form** look alike. -/
theorem Shown.looksLike (hf : f.WritesDecimals) (ht : t.Shown) (hu : u.Shown) {dump : Bytes}
    (h : Dump.trace t f = .ok dump) (h' : Dump.trace u f = .ok dump) : t.LooksLike u := by
  obtain ⟨constants, instructions, hc, hi, hdump⟩ := Dump.exists_sections h
  obtain ⟨constants', instructions', hc', hi', hdump'⟩ := Dump.exists_sections h'
  obtain ⟨rfl, rfl, hsnapshots⟩ :=
    Dump.sections_inj hf ht hu hc hi hc' hi' (hdump.symm.trans hdump')
  have hnk := ht.nk_eq hu (hc.length_eq.trans hc'.length_eq.symm)
  have hnins := ht.nins_eq hu (hi.length_eq.trans hi'.length_eq.symm)
  refine ⟨hnk, hnins, Array.toList_inj.mp hsnapshots, ?_⟩
  -- with the same counters the same references are printed
  have hconstants : Dump.constantRefs u = Dump.constantRefs t := by
    unfold Dump.constantRefs
    rw [hnk]
  have hinstructions : Dump.instructionRefs u = Dump.instructionRefs t := by
    unfold Dump.instructionRefs
    rw [hnins]
  rw [hconstants] at hc'
  rw [hinstructions] at hi'
  intro r hlive
  obtain ⟨hlow, hhigh⟩ := (t.isLive_iff r).mp hlive
  by_cases hfixed : r.IsFixed
  · exact ht.looksLike_of_fixed hu hfixed
  by_cases hbase : Ref.base ≤ r
  · obtain ⟨l, hl, hl'⟩ :=
      hi.exists_line hi' r ((Dump.mem_instructionRefs_iff ht.laid).mpr ⟨hbase, hhigh⟩)
    exact ht.looksLike_of_line hf hu hfixed hl hl'
  · have htrue : r < Ref.true := by
      by_contra hle
      exact hfixed (Ref.isFixed_iff.mpr ⟨UInt32.not_lt.mp hle, UInt32.not_le.mp hbase⟩)
    obtain ⟨l, hl, hl'⟩ :=
      hc.exists_line hc' r ((Dump.mem_constantRefs_iff ht.laid).mpr ⟨hlow, htrue⟩)
    exact ht.looksLike_of_line hf hu hfixed hl hl'

/-- A script builds the trace, or dead code elimination makes it of one that a script builds. -/
def IsBuilt (t : Trace) : Prop :=
  ∃ settings name text t₀, build settings name text = .ok t₀ ∧ (t = t₀ ∨ optimize t₀ = .ok t)

private theorem IsBuilt.shown (h : t.IsBuilt) : t.Shown := by
  obtain ⟨settings, name, text, t₀, hbuild, rfl | hoptimize⟩ := h
  · exact (legible_of_build hbuild).shown
  · have hshown := (legible_of_build hbuild).shown_of_eliminateDeadCode
    unfold optimize at hoptimize
    split at hoptimize
    · next n t' hrun =>
      cases hoptimize
      have hafter : t₀.after eliminateDeadCode = t := after_of_ok hrun
      rwa [hafter] at hshown
    · cases hoptimize

/-- **The printed form determines the trace**, whatever formatter writes its numbers. Of two traces
that scripts build under any options, with or without their dead code, with the same printed form:
they have the same counters and the same snapshots, and at every live reference there are records
with the same opcode, the same type and guard mark, the same operands as far as the opcode has any,
and the same constant. -/
theorem IsBuilt.dump_determines_trace (hf : f.WritesDecimals) (ht : t.IsBuilt) (hu : u.IsBuilt)
    {dump : Bytes} (h : Dump.trace t f = .ok dump) (h' : Dump.trace u f = .ok dump) :
    t.LooksLike u :=
  ht.shown.looksLike hf hu.shown h h'

/-- A script that records a `NOP` between two instructions. -/
def plainScript : Bytes :=
  Bytes.ascii ("k = kint 7\nn = knum 0.1\ns = kgc \"a b\"\nx = SLOAD.int! #1 #0\nNOP.nil\n" ++
    "y = ADD.int x k\nsnap y n s\n")

/-- A script that records an instruction there which nobody needs. -/
def wastefulScript : Bytes :=
  Bytes.ascii ("k = kint 7\nn = knum 0.1\ns = kgc \"a b\"\nx = SLOAD.int! #1 #0\n" ++
    "z = SUB.int x k\nw = ADD.int x k\nsnap w n s\n")

theorem IsBuilt.dump_determines_trace_of_wasteful :
    ∃ t u₀ u dump, build { recording := { cse := false } } [] plainScript = .ok t ∧
      build {} [] wastefulScript = .ok u₀ ∧ optimize u₀ = .ok u ∧ Dump.trace t = .ok dump ∧
      Dump.trace u = .ok dump ∧ t.LooksLike u := by
  have h : (build { recording := { cse := false } } [] plainScript).toOption.any (fun t =>
      (build {} [] wastefulScript).toOption.any fun u₀ => (optimize u₀).toOption.any fun u =>
        (Dump.trace t).toOption.any fun dump => (Dump.trace u).toOption == some dump) = true := by
    decide +kernel
  obtain ⟨t, ht, h⟩ := (Option.any_eq_true _ _).mp h
  obtain ⟨u₀, hu₀, h⟩ := (Option.any_eq_true _ _).mp h
  obtain ⟨u, hu, h⟩ := (Option.any_eq_true _ _).mp h
  obtain ⟨dump, hdump, h⟩ := (Option.any_eq_true _ _).mp h
  have hdump' := beq_iff_eq.mp h
  rw [toOption_eq_some_iff] at ht hu₀ hu hdump hdump'
  have htBuilt : t.IsBuilt := ⟨_, _, _, t, ht, .inl rfl⟩
  have huBuilt : u.IsBuilt := ⟨_, _, _, u₀, hu₀, .inr hu⟩
  exact ⟨t, u₀, u, dump, ht, hu₀, hu, hdump, hdump',
    htBuilt.dump_determines_trace Formatter.writesDecimals_decimal huBuilt hdump hdump'⟩

end Trace

end TraceIR
