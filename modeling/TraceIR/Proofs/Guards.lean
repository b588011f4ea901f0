import TraceIR.Proofs.Answering
import TraceIR.Proofs.Emission

/-!
# What becomes of guards

A statement that asks for a guard need not add one: the folder may decide it, or an equal
instruction may be there already. Equal instructions agree in their tags, but not in their guards.

* `Builder.Order.EmitsGuard` — the emissions of guards that a statement asks for: an instruction
  with a guard, or the reading of a string as a number on the way of a conversion.
* `Trace.Guards` — what the answer to such an emission should be in the end.
* `guard_survives_iff_not_shared` — a guard that is not decided survives exactly if the emission was
  not answered with an instruction that has no guard.
-/

namespace TraceIR

open Script

/-! ### Guards and dead code -/

namespace Trace

/-- The record at `r` has the opcode, the tag of `ty`, and a guard. -/
def Guards (t : Trace) (r : Ref) (op : Opcode) (ty : Ty) : Prop :=
  ∃ x, t.record? r = .ok x ∧ x.op = op ∧ x.ty.tag = ty.tag ∧ x.ty.isGuard = true

private theorem guards_iff {t : Trace} {r : Ref} {x : Record} (hx : t.view.record r = some x) :
    t.Guards r x.op x.ty ↔ x.ty.isGuard = true := by
  constructor
  · rintro ⟨y, hy, -, -, hguard⟩
    rw [record?_eq_ok_iff, hx] at hy
    obtain rfl := Option.some.inj hy
    exact hguard
  · exact fun hguard => ⟨x, record?_eq_ok_iff.mpr hx, rfl, rfl, hguard⟩

/-- **Dead code elimination** keeps all guards and adds none. -/
theorem Survives.guards_iff {t t' : Trace} (h : t.Survives t') {r : Ref} {x : Record}
    (hx : t.view.record r = some x) : t'.Guards r x.op x.ty ↔ x.ty.isGuard = true := by
  have hnins : t'.nins = t.nins := h.outline.nins
  by_cases hkept : r < Ref.first ∨ t.Needed r
  · obtain ⟨y, p, hy, hy'⟩ := h.keeps hx hkept
    rw [record?_eq_ok_iff, hx] at hy
    obtain rfl := Option.some.inj hy
    exact Trace.guards_iff (x := { x with prev := p }) (record?_eq_ok_iff.mp hy')
  · obtain ⟨hfirst, hneeded⟩ := not_or.mp hkept
    have hfirst := UInt32.not_lt.mp hfirst
    have hunguarded : ¬ x.ty.isGuard = true := fun hguard =>
      hneeded (.root hfirst (record?_eq_ok_iff.mpr hx) (.inl hguard))
    refine iff_of_false ?_ hunguarded
    -- what is left in its place is blank
    rintro ⟨y, hy, -, -, hguard⟩
    have hlive := (h.laid.record_isSome_iff r).mp
      (Option.isSome_iff_exists.mpr ⟨y, record?_eq_ok_iff.mp hy⟩)
    obtain ⟨p, hp⟩ := exists_prev_of_unlinked (x := .blank)
      (h.dropped hfirst (hnins ▸ hlive.2) hneeded)
    rw [record?_eq_ok_iff, hp] at hy
    obtain rfl := Option.some.inj hy
    change Ty.nil.isGuard = true at hguard
    exact absurd hguard (by decide)

/-- **An emission** that is not decided is answered with a guard in the end, unless it was answered
with something that had been there without one. -/
theorem Placed.guards_iff {t t₁ t₂ t' : Trace} {op : Opcode} {ty : Ty} {a b : Ref} {y : TRef}
    (h : Placed t op ty a b y t₁) (ht : t.Sound) (hguard : ty.isGuard = true)
    (hext : t₁.view.Extends t₂.view) (hsurvives : t₂.Survives t') :
    (op.isComparison = true ∧ a.isConst = true ∧ b.isConst = true ∧ y = .of Ref.true Ty.true) ∨
      (t'.Guards y.ref op ty ↔ ¬ ∃ x, t.record? y.ref = .ok x ∧ x.ty.isGuard = false) := by
  cases h with
  | decided hfinds => exact .inl ⟨hfinds.comparison, hfinds.left, hfinds.right, rfl⟩
  | @shared r x hop hx hxop ha hb hleft hright hty =>
    refine .inr ?_
    have hlive := (ht.wellFormed.live_iff r).mp ⟨x, hx⟩
    have hr : (TRef.of r ty).ref = r :=
      TRef.ref_of (UInt32.le_of_lt (UInt32.lt_of_lt_of_le hlive.2 ht.laid.nins_le)) ty
    have htag : t'.Guards r op ty ↔ t'.Guards r x.op x.ty := by
      simp only [Guards, hxop, hty]
    rw [hr, htag, hsurvives.guards_iff (hext.record hx)]
    constructor
    · rintro hxguard ⟨x', hx', hunguarded⟩
      rw [record?_eq_ok_iff, hx] at hx'
      obtain rfl := Option.some.inj hx'
      rw [hxguard] at hunguarded
      cases hunguarded
    · intro hnone
      by_contra hunguarded
      exact hnone ⟨x, record?_eq_ok_iff.mpr hx, Bool.eq_false_iff.mpr hunguarded⟩
  | appended hlimit hlaid hview =>
    refine .inr ?_
    have hr : (TRef.of t.nins ty).ref = t.nins := TRef.ref_of (UInt32.le_of_lt hlimit) ty
    have hx := View.push_record_self t.view { op, ty, left := a, right := b }
    rw [← hview] at hx
    rw [hr]
    refine iff_of_true ((hsurvives.guards_iff (hext.record hx)).mpr hguard) ?_
    -- the place of the new instruction was free
    rintro ⟨x, hx', -⟩
    have hlive := (ht.wellFormed.live_iff t.nins).mp ⟨x, record?_eq_ok_iff.mp hx'⟩
    exact absurd hlive.2 (UInt32.lt_irrefl _)

private theorem Sound.guards_iff_of_emit {t t₁ t₂ t' : Trace} {op : Opcode} {ty : Ty} {a b : Ref}
    {y : TRef} (ht : t.Sound) (hrun : (emit op ty a b).run t = .ok y t₁)
    (hguard : ty.isGuard = true) (hext : t₁.view.Extends t₂.view) (hsurvives : t₂.Survives t') :
    (op.isComparison = true ∧ a.isConst = true ∧ b.isConst = true ∧ y = .of Ref.true Ty.true) ∨
      (t'.Guards y.ref op ty ↔ ¬ ∃ x, t.record? y.ref = .ok x ∧ x.ty.isGuard = false) := by
  rcases ht.placed_emit hrun with hplaced | ⟨-, hplaced⟩
  · exact hplaced.guards_iff ht hguard hext hsurvives
  · -- the operands were swapped
    refine (hplaced.guards_iff ht hguard hext hsurvives).imp_left ?_
    rintro ⟨hop, hb, ha, hy⟩
    exact ⟨hop, ha, hb, hy⟩

/-- Is the emission answered with something that is there without a guard? -/
def sharesUnguarded (t : Trace) (op : Opcode) (ty : Ty) (a b : Ref) : Bool :=
  match (emit op ty a b).run t with
  | .ok y _ => (t.view.record y.ref).any fun x => !x.ty.isGuard
  | .error .. => false

private theorem sharesUnguarded_iff {t t₁ : Trace} {op : Opcode} {ty : Ty} {a b : Ref} {y : TRef}
    (hrun : (emit op ty a b).run t = .ok y t₁) :
    t.sharesUnguarded op ty a b = true ↔
      ∃ x, t.record? y.ref = .ok x ∧ x.ty.isGuard = false := by
  rw [sharesUnguarded, hrun]
  simp only [Option.any_eq_true, Bool.not_eq_true', record?_eq_ok_iff]

end Trace

/-! ### Statements that ask for guards -/

private theorem isNum_of_isStr {t : Ty} (h : t.isStr = true) : t.isNum = false := by
  have htag : t.tag = Ty.str := eq_of_beq h
  rw [Ty.isNum, Ty.is, htag]
  rfl

private theorem isInteger_of_isStr {t : Ty} (h : t.isStr = true) : t.isInteger = false := by
  have htag : t.tag = Ty.str := eq_of_beq h
  rw [Ty.isInteger, Ty.between, htag]
  rfl

namespace Script

/-- The statement goes neither back nor begins again. -/
def Statement.GoesOn (s : Statement) : Prop :=
  s.turn? ≠ some .restarts ∧ ∀ n, s.turn? ≠ some (.returnsTo n)

/-- Statements that go on stay within everything. -/
private theorem staysWithin_of_goesOn {ss : List Statement} (h : ∀ s ∈ ss, s.GoesOn) :
    ∀ names, staysWithin names ss = true := by
  induction ss with
  | nil => exact fun _ => rfl
  | cons s ss ih =>
    intro names
    obtain ⟨hs, hss⟩ := List.forall_mem_cons.mp h
    rw [staysWithin]
    cases hturn : s.turn? with
    | none => exact ih hss names
    | some turn =>
      cases turn with
      | takes n => exact ih hss (n :: names)
      | returnsTo n => exact absurd hturn (hs.2 n)
      | restarts => exact ih hss names

namespace Builder

variable {b b' : Builder} {ss : List Statement} {op : Opcode} {ty : Ty} {left right : Ref}
  {o : Order} {x y : TRef}

/-- Statements that go on keep all that the trace held at any time before. -/
private theorem Healthy.extends_of_goesOn (h : b.Healthy) {t : Trace} (ht : t.Sound)
    (hext : t.view.Extends b.trace.view) (hss : ∀ s ∈ ss, s.GoesOn)
    (hrun : Builder.run ss b = .ok b') : t.view.Extends b'.trace.view := by
  have hanchored : Anchored t [] b := ⟨hext, fun hn _ => absurd hn List.not_mem_nil⟩
  exact hanchored.run ht h (fun s hs => (hss s hs).1) (staysWithin_of_goesOn hss []) hrun

/-- Carrying out the order emits a guard. A string becomes a number first, whatever it becomes
then. -/
def Order.EmitsGuard (op : Opcode) (ty : Ty) (left right : Ref) : Order → Prop
  | .emit op' ty' left' right' =>
    op' = op ∧ ty' = ty ∧ left' = left ∧ right' = right ∧ ty.isGuard = true
  | .coerce c x =>
    c ≠ .toStr ∧ x.ty.isStr = true ∧
      op = .strto ∧ ty = Ty.num.guarded ∧ left = x.ref ∧ right = Ref.none
  | _ => False

instance (op : Opcode) (ty : Ty) (left right : Ref) :
    (o : Order) → Decidable (o.EmitsGuard op ty left right)
  | .emit .. => inferInstanceAs (Decidable (_ ∧ _ ∧ _ ∧ _ ∧ _))
  | .coerce .. => inferInstanceAs (Decidable (_ ∧ _ ∧ _ ∧ _ ∧ _ ∧ _))
  | .constant _ => inferInstanceAs (Decidable False)
  | .fixed _ => inferInstanceAs (Decidable False)
  | .checkpoint _ => inferInstanceAs (Decidable False)
  | .rollback _ => inferInstanceAs (Decidable False)
  | .snapshot _ => inferInstanceAs (Decidable False)
  | .reset => inferInstanceAs (Decidable False)

private theorem Order.EmitsGuard.isGuard (h : o.EmitsGuard op ty left right) :
    ty.isGuard = true := by
  cases o with
  | emit op' ty' left' right' => exact h.2.2.2.2
  | coerce c x =>
    obtain ⟨-, -, -, rfl, -⟩ := h
    rfl
  | _ => exact h.elim

/-- A conversion of a string reads it as a number first and goes on from there. -/
private theorem exists_stringToNumber {t t' : Trace} {c : Coercion} (ht : t.Healthy)
    (hx : t.view.IsLive x.ref) (hstr : x.ty.isStr = true) (hc : c ≠ .toStr)
    (hrun : (Trace.coerce c x).run t = .ok y t') :
    ∃ z t₁, (Trace.stringToNumber x).run t = .ok z t₁ ∧ t₁.Healthy ∧
      View.CleanGrowths t₁.view t'.view := by
  have hnum := isNum_of_isStr hstr
  have hint := isInteger_of_isStr hstr
  have hread : t.Meets (Trace.stringToNumber x) t.Yields := ht.emit rfl _ (.of_left hx (by decide))
  cases c with
  | toNum =>
    rw [Trace.coerce, Trace.toNum, hnum, hint, hstr] at hrun
    exact ⟨y, t', hrun, (hread.post hrun).healthy, .refl⟩
  | toStr => exact absurd rfl hc
  | toBit =>
    rw [Trace.coerce, Trace.toBit, hint, Trace.numberOrString, hstr] at hrun
    obtain ⟨z, t₁, hz, hrun⟩ := Trace.exists_of_run_bind hrun
    have hyields := hread.post hz
    have hmeets : t₁.Meets (Trace.knumToBit >>= fun k => Trace.emit .tobit Ty.int z.ref k.ref)
        t₁.Yields := (hyields.healthy.knum _).andThen fun k t₂ hk =>
      hk.healthy.emit rfl _ ⟨fun _ => hk.keeps hyields.healthy hyields.live, fun _ => hk.live⟩
    exact ⟨z, t₁, hz, hyields.healthy, (hmeets.post hrun).growths⟩
  | toInt =>
    rw [Trace.coerce, Trace.toInt, hint, Trace.numberOrString, hstr] at hrun
    obtain ⟨z, t₁, hz, hrun⟩ := Trace.exists_of_run_bind hrun
    have hyields := hread.post hz
    have hmeets : t₁.Meets (Trace.emit .toint Ty.int z.ref Trace.anyInteger) t₁.Yields :=
      hyields.healthy.emit rfl _ (.of_left hyields.live (by decide))
    exact ⟨z, t₁, hz, hyields.healthy, (hmeets.post hrun).growths⟩

/-- **The emission of a guard** comes first, and recording goes on from there. -/
theorem Healthy.exists_emit (h : b.Healthy) (hfit : o.IsFit b)
    (hguard : o.EmitsGuard op ty left right) (hrun : (Builder.carryOut o).run b = .ok y b') :
    ∃ z t₁, (Trace.emit op ty left right).run b.trace = .ok z t₁ ∧ t₁.Healthy ∧
      View.CleanGrowths t₁.view b'.trace.view := by
  cases o with
  | emit op' ty' left' right' =>
    obtain ⟨rfl, rfl, rfl, rfl, -⟩ := hguard
    have hemit := (run_record_eq_ok hrun).1
    exact ⟨y, b'.trace, hemit, ((h.trace.emit hfit.1 _ hfit.2).post hemit).healthy, .refl⟩
  | coerce c x =>
    obtain ⟨hc, hstr, rfl, rfl, rfl, rfl⟩ := hguard
    exact exists_stringToNumber h.trace hfit hstr hc (run_record_eq_ok hrun).1
  | _ => exact hguard.elim

/-- At `b` a statement of the script asks for the guard, and what follows it goes neither back nor
begins again. -/
def AsksForGuard (b : Builder) (script : List Statement) (op : Opcode) (ty : Ty)
    (left right : Ref) : Prop :=
  ∃ pre s post o, script = pre ++ s :: post ∧ (∀ s' ∈ post, s'.GoesOn) ∧ b.ReachedBy pre ∧
    b.order s = .ok o ∧ o.EmitsGuard op ty left right

/-- What a statement that asks for a guard gets from the trace that the script ends with. -/
private theorem AsksForGuard.guards_iff {script : List Statement} {t' : Trace}
    (h : b.AsksForGuard script op ty left right) (hb' : b'.ReachedBy script)
    (hsurvives : b'.trace.Survives t') :
    ∃ y t₁, (Trace.emit op ty left right).run b.trace = .ok y t₁ ∧
      (op.isComparison = true ∧ left.isConst = true ∧ right.isConst = true ∧
          y = .of Ref.true Ty.true ∨
        (t'.Guards y.ref op ty ↔
          ¬ ∃ x, b.trace.record? y.ref = .ok x ∧ x.ty.isGuard = false)) := by
  obtain ⟨pre, s, post, o, rfl, hpost, hb, ho, hguard⟩ := h
  -- the script passes through `b`, the statement and what follows it
  obtain ⟨b₀, hb₀, hrun⟩ := reachedBy_append.mp hb'
  obtain rfl := hb₀.unique hb
  obtain ⟨b₁, hstep, hrest⟩ := run_cons_eq_ok.mp hrun
  obtain ⟨hb₁, -, o', y', b₂, ho', hcarry, htrace⟩ := (hb.healthy.step s).post hstep
  rw [ho] at ho'
  cases ho'
  obtain ⟨y, t₁, hemit, ht₁, hgrowths⟩ :=
    hb.healthy.exists_emit (hb.healthy.isFit_order ho).1 hguard hcarry
  rw [← htrace] at hgrowths
  have hext := hb₁.extends_of_goesOn ht₁.sound (hgrowths.extends ht₁.sound.wellFormed) hpost hrest
  exact ⟨y, t₁, hemit,
    hb.healthy.trace.sound.guards_iff_of_emit hemit hguard.isGuard hext hsurvives⟩

/-- Whether the guard that the last statement of a compiled source asks for is answered with
something that is there without one. -/
def lastShares (text : Bytes) (op : Opcode) (ty : Ty) (left right : Ref) : Option Bool := do
  let _ ← (compile {} [] text).toOption
  let p ← (parseFile [] text).tree?
  let s ← p.statements.getLast?
  let b ← reach? p.statements.dropLast
  let o ← (b.order s).toOption
  if o.EmitsGuard op ty left right then some (b.trace.sharesUnguarded op ty left right) else none

private theorem exists_of_lastShares {text : Bytes} {shared : Bool}
    (h : lastShares text op ty left right = some shared) :
    ∃ p dump, compile {} [] text = .ok dump ∧ parseFile [] text = .tree p ∧
      ∃ b : Builder, b.AsksForGuard p.statements op ty left right ∧
        b.trace.sharesUnguarded op ty left right = shared := by
  obtain ⟨dump, hdump, h⟩ := Option.bind_eq_some_iff.mp h
  obtain ⟨p, hp, h⟩ := Option.bind_eq_some_iff.mp h
  obtain ⟨s, hs, h⟩ := Option.bind_eq_some_iff.mp h
  obtain ⟨b, hb, h⟩ := Option.bind_eq_some_iff.mp h
  obtain ⟨o, ho, h⟩ := Option.bind_eq_some_iff.mp h
  split at h
  · next hguard =>
    have hsplit : p.statements = p.statements.dropLast ++ [s] :=
      (List.dropLast_append_getLast? s hs).symm
    have hasks : b.AsksForGuard p.statements op ty left right :=
      ⟨_, s, [], o, hsplit, fun _ hs => absurd hs List.not_mem_nil, reach?_eq_some_iff.mp hb,
        toOption_eq_some_iff.mp ho, hguard⟩
    exact ⟨p, dump, toOption_eq_some_iff.mp hdump, Parsed.of_tree? hp, b, hasks,
      Option.some.inj h⟩
  · cases h

end Builder

end Script

/-! ### Scripts -/

/-- **Guards.** Take a script that is compiled, and a statement of it that asks for a guard and is
followed by no return and no new beginning. The emission was decided, or its answer is the guard
that was asked for exactly if it was not an instruction that had been there without a guard. -/
theorem guard_survives_iff_not_shared {name text dump : Bytes} {p : Program} {b : Builder}
    {op : Opcode} {ty : Ty} {left right : Ref} (hcompile : compile {} name text = .ok dump)
    (hparse : parseFile name text = .tree p)
    (hasks : b.AsksForGuard p.statements op ty left right) :
    ∃ t t' y t₁, build {} name text = .ok t ∧ optimize t = .ok t' ∧
      (Trace.emit op ty left right).run b.trace = .ok y t₁ ∧
      (op.isComparison = true ∧ left.isConst = true ∧ right.isConst = true ∧
          y = .of Ref.true Ty.true ∨
        (t'.Guards y.ref op ty ↔
          ¬ ∃ x, b.trace.record? y.ref = .ok x ∧ x.ty.isGuard = false)) := by
  obtain ⟨t, t', hbuild, hoptimize, hsurvives⟩ := exists_of_compile hcompile
  obtain ⟨p', b', hparse', hb', rfl⟩ := Builder.build_eq_ok_iff.mp hbuild
  rw [hparse] at hparse'
  cases hparse'
  obtain ⟨y, t₁, hemit, hguards⟩ := hasks.guards_iff hb' hsurvives
  exact ⟨b'.trace, t', y, t₁, hbuild, hoptimize, hemit, hguards⟩

/-- A string that is read as a number. -/
def guardedReading : Bytes :=
  Bytes.ascii "s = SLOAD.str! #1 #0\nn = tonum s\n"

theorem guard_survives_in_guardedReading :
    ∃ p dump, compile {} [] guardedReading = .ok dump ∧ parseFile [] guardedReading = .tree p ∧
      ∃ b : Builder, b.AsksForGuard p.statements .strto Ty.num.guarded Ref.first Ref.none ∧
        ∃ t t' y t₁, build {} [] guardedReading = .ok t ∧ optimize t = .ok t' ∧
          (Trace.emit .strto Ty.num.guarded Ref.first Ref.none).run b.trace = .ok y t₁ ∧
          t'.Guards y.ref .strto Ty.num.guarded := by
  have hlast : Builder.lastShares guardedReading .strto Ty.num.guarded Ref.first Ref.none =
      some false := by decide +kernel
  obtain ⟨p, dump, hcompile, hparse, b, hasks, hshared⟩ := Builder.exists_of_lastShares hlast
  obtain ⟨t, t', y, t₁, hbuild, hoptimize, hemit, hguards⟩ :=
    guard_survives_iff_not_shared hcompile hparse hasks
  refine ⟨p, dump, hcompile, hparse, b, hasks, t, t', y, t₁, hbuild, hoptimize, hemit, ?_⟩
  rcases hguards with ⟨hop, -⟩ | hguards
  · exact absurd hop (by decide)
  · rw [hguards, ← Trace.sharesUnguarded_iff hemit, hshared]
    exact Bool.false_ne_true

/-- A string that is read as a number twice, the first time without a guard. -/
def unguardedTwin : Bytes :=
  Bytes.ascii "s = SLOAD.str! #1 #0\na = STRTO.num s\nb = tonum s\n"

theorem guard_lost_in_unguardedTwin :
    ∃ p dump, compile {} [] unguardedTwin = .ok dump ∧ parseFile [] unguardedTwin = .tree p ∧
      ∃ b : Builder, b.AsksForGuard p.statements .strto Ty.num.guarded Ref.first Ref.none ∧
        ∃ t t' y t₁, build {} [] unguardedTwin = .ok t ∧ optimize t = .ok t' ∧
          (Trace.emit .strto Ty.num.guarded Ref.first Ref.none).run b.trace = .ok y t₁ ∧
          ¬ t'.Guards y.ref .strto Ty.num.guarded := by
  have hlast : Builder.lastShares unguardedTwin .strto Ty.num.guarded Ref.first Ref.none =
      some true := by decide +kernel
  obtain ⟨p, dump, hcompile, hparse, b, hasks, hshared⟩ := Builder.exists_of_lastShares hlast
  obtain ⟨t, t', hbuild, hoptimize, hsurvives⟩ := exists_of_compile hcompile
  obtain ⟨p', b', hparse', hreached, rfl⟩ := Builder.build_eq_ok_iff.mp hbuild
  obtain rfl : p = p' := by
    rw [hparse] at hparse'
    exact Parsed.tree.inj hparse'
  obtain ⟨y, t₁, hemit, hguards⟩ := hasks.guards_iff hreached hsurvives
  refine ⟨p, dump, hcompile, hparse, b, hasks, b'.trace, t', y, t₁, hbuild, hoptimize, hemit, ?_⟩
  rcases hguards with ⟨hop, -⟩ | hguards
  · exact absurd hop (by decide)
  · rw [hguards, ← Trace.sharesUnguarded_iff hemit, hshared]
    exact not_not_intro rfl

end TraceIR
