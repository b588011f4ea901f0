import TraceIR.Proofs.Denotation
import TraceIR.Proofs.DumpLines

/-!
# Types with names

A dump does not print the fixed constants, and it prints a type by its name. So it can be read only
if the fixed constants are what they always are, and if every type has a name. Scripts spell types
by their names, and a type that is not spelled is one that was.

* `Trace.Legible` — the invariant. Recording keeps it if it is asked for types with names, and then
  it answers with such types: `Legible.emit`, `Legible.constant`, `Legible.coerce`.
* `Builder.Legible` — the same of the names of a script. `Legible.isNamed_order` — statements ask for
  types with names. `Legible.step` — one statement, and `Legible.run` — a whole script.
* `legible_of_build` — what scripts build is legible, whatever the options are.
-/

namespace TraceIR

/-! ### Types with names -/

namespace Ty

variable {t : Ty}

/-- Marks do not matter. -/
private theorem IsNamed.of_tag {u : Ty} (h : t.IsNamed) (htag : u.tag = t.tag) : u.IsNamed := by
  unfold IsNamed
  rw [htag]
  exact h

private theorem isNamed_tag (h : t.IsNamed) : t.tag.IsNamed :=
  h.of_tag t.tag_tag

private theorem tag_guarded (t : Ty) : t.guarded.tag = t.tag := by
  have hmark : (0x80 : UInt8).toNat &&& (0x1f : UInt8).toNat = 0 := by decide
  have hbits : (t.bits ||| 0x80) &&& 0x1f = t.bits &&& 0x1f := by
    rw [← UInt8.toNat_inj, UInt8.toNat_and, UInt8.toNat_or, UInt8.toNat_and,
      Nat.and_or_distrib_right, hmark, Nat.or_zero]
  exact congrArg Ty.mk hbits

/-- **A type that is spelled** has a name. -/
theorem isNamed_of_ofName? {name : Bytes} (h : ofName? name = some t) : t.IsNamed := by
  unfold ofName? at h
  dsimp only at h
  split at h
  · next i hi =>
    -- a short name, and its place is the tag
    have hplaces : ∀ i < names.length, (Ty.mk (UInt8.ofNat i)).IsNamed := by
      unfold IsNamed
      decide
    cases h
    exact hplaces i (List.findIdx?_eq_some_iff_findIdx_eq.mp hi).1
  · -- one of the long ones
    have hlong : ∀ e ∈ longNames, e.2.IsNamed := by
      unfold IsNamed
      decide
    obtain ⟨e, he, hsome⟩ := List.exists_of_findSome?_eq_some h
    split at hsome
    · cases hsome
      exact hlong e he
    · cases hsome

end Ty

/-! ### What recording keeps -/

namespace View

variable {v v' : View}

/-- The records that every trace begins with are there, and all types have names. -/
structure Legible (v : View) : Prop where
  fixed : ∀ {r x}, initialRecord r = some x → v.record r = some x
  named : ∀ {r x}, v.record r = some x → x.ty.IsNamed

namespace Legible

private theorem initial (config : Config) (pool : Pool) (folder : Option Folder) :
    (View.initial config pool folder).Legible := by
  refine ⟨fun hx => hx, ?_⟩
  intro r x hx
  change initialRecord r = some x at hx
  unfold initialRecord at hx
  unfold Ty.IsNamed
  split at hx
  · cases hx
    decide
  split at hx
  · cases hx
    decide
  split at hx
  · cases hx
    decide
  split at hx
  · cases hx
    decide
  · cases hx

/-- Only the records matter. -/
private theorem of_eq (h : v.Legible) (hrecord : v'.record = v.record) : v'.Legible where
  fixed hx := hrecord ▸ h.fixed hx
  named hx := h.named (hrecord ▸ hx)

/-- Whatever enters has a type with a name. -/
private theorem grow (h : v.Legible) (hext : v.Extends v')
    (hnew : ∀ {r x}, v'.record r = some x → v.record r = some x ∨ x.ty.IsNamed) : v'.Legible where
  fixed hx := hext.record (h.fixed hx)
  named hx := by
    rcases hnew hx with hold | hty
    · exact h.named hold
    · exact hty

private theorem cut {low high : Ref} (h : v.Legible) (hcut : v.Cut v' low high) : v'.Legible where
  fixed hx := by
    rw [hcut.record_of_isLive (hcut.isLive_of_initial hx)]
    exact h.fixed hx
  named hx := by
    rw [hcut.record_of_isLive ((hcut.wellFormed.live_iff _).mp ⟨_, hx⟩)] at hx
    exact h.named hx

end Legible

end View

namespace Trace

variable {t t' : Trace} {y : TRef} {op : Opcode} {ty : Ty} {a b : Ref}

theorem isNamed_of_isPrimitive (h : ty.isPrimitive = true) : ty.IsNamed := by
  unfold Ty.IsNamed
  rcases tag_of_isPrimitive h with htag | htag | htag
  all_goals
    rw [htag]
    decide

/-- The constants of the trace are canonical, and everything in it can be told from its line. -/
structure Legible (t : Trace) : Prop where
  canonical : t.Canonical
  view : t.view.Legible

/-- The trace is legible, and the type of `y` has a name. -/
structure Spells (t : Trace) (y : TRef) : Prop where
  legible : t.Legible
  named : y.ty.IsNamed

namespace Legible

theorem sound (h : t.Legible) : t.Sound :=
  h.canonical.sound

/-- An answer with a live reference and a type that has a name. -/
private theorem spells (h : t.Legible) {r : Ref} (hr : r < t.nins) (hty : ty.IsNamed) :
    t.Spells (.of r ty) := by
  have hle : r ≤ Ref.limit := UInt32.le_of_lt (UInt32.lt_of_lt_of_le hr h.sound.laid.nins_le)
  refine ⟨h, ?_⟩
  rw [TRef.ty_of hle]
  exact Ty.isNamed_tag hty

private theorem lt_of_record (h : t.Legible) {r : Ref} {x : Record}
    (hx : t.view.record r = some x) :
    r < t.nins :=
  ((h.sound.wellFormed.live_iff r).mp ⟨x, hx⟩).2

private theorem placed (h : t.Legible) (hext : t.view.Extends t'.view) (ht' : t'.Canonical)
    (hty : ty.IsNamed) (hplaced : Placed t op ty a b y t') : t'.Spells y := by
  cases hplaced with
  | decided hfinds =>
    have htrue : View.initialRecord Ref.true = some { op := .kpri, ty := Ty.true } := by decide
    have hlive := h.lt_of_record (h.view.fixed htrue)
    exact h.spells hlive (isNamed_of_isPrimitive (by decide))
  | shared hnormal hx hxop ha hb hleft hright hxty => exact h.spells (h.lt_of_record hx) hty
  | appended hlimit hlaid hview =>
    have hlegible : t'.Legible := by
      refine ⟨ht', h.view.grow hext ?_⟩
      intro r x hx
      rw [hview] at hx
      rcases View.record_push_cases hx with ⟨-, rfl⟩ | hx
      · exact .inr hty
      · exact .inl hx
    have hself := t.view.push_record_self { op, ty, left := a, right := b }
    rw [← hview] at hself
    exact hlegible.spells (hlegible.lt_of_record hself) hty

/-- **Emission** of a type with a name. -/
theorem emit (h : t.Legible) (hop : op.isConst = false) (hty : ty.IsNamed)
    (hrun : (emit op ty a b).run t = .ok y t') : t'.Spells y := by
  obtain ⟨ht', hext, a', b', hplaced⟩ := h.canonical.of_emit hop hrun
  exact h.placed hext ht' hty hplaced

/-- **Interning** a constant of a type with a name. -/
theorem constant (h : t.Legible) {c : Constant} (hc : c.ty.IsNamed)
    (hrun : c.intern.run t = .ok y t') : t'.Spells y := by
  obtain ⟨ht', hext, k, -, hinterned⟩ := h.canonical.of_intern hrun
  cases hinterned with
  | found hx hxk => exact h.spells (h.lt_of_record hx) hc
  | @added buffer x t' hnew hroom hbuffer hx hadd hlaid hview =>
    have hlegible : t'.Legible := by
      refine ⟨ht', h.view.grow hext ?_⟩
      intro r z hz
      rw [hview] at hz
      rcases View.record_pushConstant_cases hz with ⟨-, rfl⟩ | hz
      · exact .inr (hc.of_tag (h.canonical.tag_of_added hadd))
      · exact .inl hz
    have hself := View.pushConstant_record_self { t.view with pool := c.poolAfter t.pool } x
    rw [← hview] at hself
    exact hlegible.spells (hlegible.lt_of_record hself) hc

private theorem kpri (h : t.Legible) (hty : ty.isPrimitive = true)
    (hrun : (ask fun _ => kpri ty).run t = .ok y t') : t'.Spells y := by
  rw [run_ask, Trace.kpri, if_pos hty] at hrun
  cases hrun
  exact h.spells (h.lt_of_record (h.view.fixed (initialRecord_fixedRef hty)))
    (isNamed_of_isPrimitive hty)

private theorem isNamed_of_isConverted (h : IsConverted ty) : ty.IsNamed := by
  have hall : Ty.num.IsNamed ∧ Ty.num.guarded.IsNamed ∧ Ty.str.IsNamed ∧ Ty.int.IsNamed := by
    unfold Ty.IsNamed
    decide
  rcases h with rfl | rfl | rfl | rfl
  · exact hall.1
  · exact hall.2.1
  · exact hall.2.2.1
  · exact hall.2.2.2

/-- **Converting** a value whose type has a name. -/
theorem coerce (h : t.Legible) {c : Coercion} {x : TRef} (hx : x.ty.IsNamed)
    (hrun : (coerce c x).run t = .ok y t') : t'.Spells y :=
  coerce_induct Spells.legible (fun h hop hty => h.emit hop (isNamed_of_isConverted hty))
    (fun h => h.constant (c := .numToBit) (isNamed_of_isConverted (.inl rfl))) ⟨h, hx⟩ hrun

/-! Going back and beginning again. -/

private theorem rollback (h : t.Legible) {cp : Checkpoint}
    (hrun : (rollback cp).run t = .ok () t') :
    t'.Legible := by
  obtain ⟨ht', low, high, hcut⟩ := h.canonical.of_rollback hrun
  have hlegible : View.Legible
      { t.view with snapshots := t.view.snapshots.take cp.snapshots.toNat } := h.view.of_eq rfl
  exact ⟨ht', hlegible.cut hcut⟩

private theorem setup (h : t.Legible) (hrun : setup.run t = .ok () t') : t'.Legible := by
  obtain ⟨ht', hview⟩ := h.canonical.of_setup hrun
  refine ⟨ht', ?_⟩
  rw [hview]
  exact .initial ..

private theorem addSnapshot (h : t.Legible) {refs : List Ref} {u : Unit}
    (hrun : (addSnapshot refs).run t = .ok u t') : t'.Legible := by
  obtain ⟨ht', hrecord⟩ := h.canonical.of_addSnapshot hrun
  exact ⟨ht', h.view.of_eq hrecord⟩

end Legible

end Trace

/-! ### Statements -/

namespace Script.Builder

variable {b b' : Builder} {s : Statement} {o : Order} {ss : List Statement} {ty : Ty} {y : TRef}

/-- What the order asks for can be recorded, and has a type with a name. -/
def Order.IsNamed : Order → Prop
  | .constant k => k.ty.IsNamed
  | .fixed ty => ty.isPrimitive = true
  | .emit op ty _ _ => op.isConst = false ∧ ty.IsNamed
  | .coerce _ x => x.ty.IsNamed
  | _ => True

/-- The trace is legible, and all names stand for values whose types have names. -/
structure Legible (b : Builder) : Prop where
  trace : b.trace.Legible
  names : b.names.All fun x => x.ty.IsNamed

private theorem isNamed_typeNamed {name : Bytes} (h : typeNamed name = .ok ty) : ty.IsNamed := by
  unfold typeNamed at h
  split at h
  · next hname =>
    cases h
    exact Ty.isNamed_of_ofName? hname
  · cases h

private theorem isNamed_typeArg {a : Arg} (h : typeArg a = .ok ty) : ty.IsNamed := by
  cases a with
  | ident l => exact isNamed_typeNamed h
  | int l | float l | lit p l | string l => cases h

private theorem isNamed_objectOf {x : Object} (h : objectOf s = .ok x) : x.ty.IsNamed := by
  unfold objectOf at h
  split at h
  · obtain ⟨text, -, h⟩ := exists_of_bind h
    cases h
    exact Trace.Legible.isNamed_of_isConverted (.inr (.inr (.inl rfl)))
  · obtain ⟨text, -, h⟩ := exists_of_bind h
    obtain ⟨ty, hty, h⟩ := exists_of_bind h
    split at h
    · cases h
      exact isNamed_typeArg hty
    · cases h
  · cases h

namespace Legible

private theorem isNamed_valueArg (h : b.Legible) {a : Arg} {x : TRef} (ha : b.valueArg a = .ok x) :
    x.ty.IsNamed := by
  cases a with
  | ident l =>
    rw [valueArg] at ha
    split at ha
    · next hget =>
      cases ha
      exact h.names.get? hget
    · cases ha
  | int l | float l | lit p l | string l => cases ha

/-- A statement that is no instruction spells its type, or it needs none. -/
private theorem isNamed_verbOrder (h : b.Legible) {w : Verb} (ho : b.verbOrder w s = .ok o) :
    o.IsNamed := by
  have hnum : Ty.num.IsNamed := Trace.Legible.isNamed_of_isConverted (.inl rfl)
  have hint : Ty.int.IsNamed := Trace.Legible.isNamed_of_isConverted (.inr (.inr (.inr rfl)))
  have hptr : Ty.ptr.IsNamed := by
    unfold Ty.IsNamed
    decide
  cases w with
  | kint =>
    obtain ⟨a, -, ho⟩ := exists_of_bind ho
    obtain ⟨x, -, ho⟩ := exists_of_bind ho
    cases ho
    exact hint
  | knum | knumBits =>
    obtain ⟨a, -, ho⟩ := exists_of_bind ho
    obtain ⟨x, -, ho⟩ := exists_of_bind ho
    cases ho
    exact hnum
  | knumInt =>
    obtain ⟨a, -, ho⟩ := exists_of_bind ho
    obtain ⟨x, -, ho⟩ := exists_of_bind ho
    cases ho
    change Ty.IsNamed (if x.int32?.isSome then Ty.int else Ty.num)
    split
    · exact hint
    · exact hnum
  | kptr =>
    obtain ⟨a, -, ho⟩ := exists_of_bind ho
    obtain ⟨x, -, ho⟩ := exists_of_bind ho
    cases ho
    exact hptr
  | knull =>
    obtain ⟨a, -, ho⟩ := exists_of_bind ho
    obtain ⟨ty, hty, ho⟩ := exists_of_bind ho
    cases ho
    exact isNamed_typeArg hty
  | knumToBit | knumAbs | knumNeg =>
    obtain ⟨u, -, ho⟩ := exists_of_bind ho
    cases ho
    exact hnum
  | kgc =>
    obtain ⟨x, hx, ho⟩ := exists_of_bind ho
    cases ho
    exact isNamed_objectOf hx
  | kslot =>
    obtain ⟨⟨key, slot⟩, -, ho⟩ := exists_of_bind ho
    cases ho
    exact hptr
  | kpri =>
    obtain ⟨ty, hty, ho⟩ := exists_of_bind ho
    cases ho
    exact isPrimitive_fixedOf hty
  | coerce c =>
    obtain ⟨a, -, ho⟩ := exists_of_bind ho
    obtain ⟨x, hx, ho⟩ := exists_of_bind ho
    cases ho
    exact h.isNamed_valueArg hx
  | checkpoint =>
    obtain ⟨u, -, ho⟩ := exists_of_bind ho
    split at ho
    · cases ho
      exact True.intro
    · cases ho
  | rollback | snap | reset =>
    obtain ⟨u, -, ho⟩ := exists_of_bind ho
    cases ho
    exact True.intro

/-- The type that operands suggest comes from a name. -/
private theorem isNamed_operand (h : b.Legible) {op : Opcode} {i : Nat} {kind : OperandKind}
    {args args' : Operands} {r : Ref} (hty : ∀ ty ∈ args.ty, ty.IsNamed)
    (hr : b.operand op i kind args = .ok (r, args')) : ∀ ty ∈ args'.ty, ty.IsNamed := by
  obtain ⟨args, ty⟩ := args
  cases kind with
  | ref =>
    cases args with
    | nil => cases hr
    | cons a args =>
      obtain ⟨x, hx, hr⟩ := exists_of_bind hr
      cases hr
      intro ty' hty'
      cases hty'
      cases ty with
      | none => exact h.isNamed_valueArg (of_inPart hx)
      | some ty => exact hty ty rfl
  | lit =>
    cases args with
    | nil => cases hr
    | cons a args =>
      obtain ⟨v, -, hr⟩ := exists_of_bind hr
      split at hr
      · cases hr
        exact hty
      · cases hr
  | const | absent =>
    cases hr
    exact hty

private theorem isNamed_resultType {op : Opcode} {operandTy : Option Ty}
    (hty : ∀ ty ∈ operandTy, ty.IsNamed) (h : resultType op s operandTy = .ok ty) :
    ty.IsNamed := by
  have hresult : ∀ {u : Ty}, u.IsNamed →
      ((if s.guard then u.tag.guarded else u.tag) : Ty).IsNamed := by
    intro u hu
    split
    · exact (Ty.isNamed_tag hu).of_tag (Ty.tag_guarded _)
    · exact Ty.isNamed_tag hu
  unfold resultType at h
  dsimp only at h
  split at h
  · -- the type is written
    next l hl =>
    obtain ⟨written, hwritten, h⟩ := exists_of_bind h
    cases hspelled : typeNamed l.text with
    | error e =>
      rw [hspelled] at hwritten
      cases hwritten
    | ok u =>
      rw [hspelled] at hwritten
      cases hwritten
      cases h
      exact hresult (isNamed_typeNamed hspelled)
  · -- it is that of an operand
    cases operandTy with
    | none => cases h
    | some u =>
      cases h
      exact hresult (hty u rfl)

/-- **Orders** ask for types with names. -/
theorem isNamed_order (h : b.Legible) (ho : b.order s = .ok o) : o.IsNamed := by
  unfold order at ho
  split at ho
  · split at ho
    · cases ho
    · exact h.isNamed_verbOrder ho
  · split at ho
    · next op hop =>
      obtain ⟨⟨ty, left, right⟩, hi, ho⟩ := exists_of_bind ho
      cases ho
      unfold instruction at hi
      split at hi
      · cases hi
      · next hconst =>
        obtain ⟨⟨left, args⟩, hleft, hi⟩ := exists_of_bind hi
        obtain ⟨⟨right, args'⟩, hright, hi⟩ := exists_of_bind hi
        dsimp only at hi
        split at hi
        · cases hi
        · obtain ⟨ty, hty, hi⟩ := exists_of_bind hi
          cases hi
          have hnone : ∀ ty ∈ ({ args := s.args } : Operands).ty, ty.IsNamed := by rintro _ ⟨⟩
          exact ⟨Bool.eq_false_iff.mpr hconst,
            isNamed_resultType (h.isNamed_operand (h.isNamed_operand hnone hleft) hright) hty⟩
    · cases ho

/-- **Carrying out** an order. -/
theorem carryOut (h : b.Legible) (ho : o.IsNamed) (hrun : (carryOut o).run b = .ok y b') :
    b'.trace.Spells y := by
  replace hrun := (run_carryOut_eq_ok hrun).1
  -- what has no result answers with a word whose type is `nil`
  have hsilent : TRef.none.ty.IsNamed := by
    unfold Ty.IsNamed
    decide
  cases o with
  | constant k => exact h.trace.constant ho hrun
  | fixed ty => exact h.trace.kpri ho hrun
  | emit op ty left right => exact h.trace.emit ho.1 ho.2 hrun
  | coerce c z => exact h.trace.coerce ho hrun
  | checkpoint n =>
    injection hrun with hy htrace
    exact ⟨htrace ▸ h.trace, hy ▸ hsilent⟩
  | rollback cp =>
    obtain ⟨u, t, hback, hrun⟩ := Trace.exists_of_run_bind hrun
    injection hrun with hy htrace
    exact ⟨htrace ▸ h.trace.rollback hback, hy ▸ hsilent⟩
  | snapshot refs =>
    obtain ⟨u, t, hsnapshot, hrun⟩ := Trace.exists_of_run_bind hrun
    injection hrun with hy htrace
    exact ⟨htrace ▸ h.trace.addSnapshot hsnapshot, hy ▸ hsilent⟩
  | reset =>
    obtain ⟨u, t, hreset, hrun⟩ := Trace.exists_of_run_bind hrun
    injection hrun with hy htrace
    exact ⟨htrace ▸ h.trace.setup hreset, hy ▸ hsilent⟩

/-- **One statement** keeps the trace legible. -/
theorem step (h : b.Legible) (hs : (step s).run b = .ok () b') : b'.Legible := by
  obtain ⟨o, y, b₁, ho, hrun, rfl⟩ := run_step_eq_ok.mp hs
  have hspells := h.carryOut (h.isNamed_order ho) hrun
  have hleaves : b₁.names.All fun x => x.ty.IsNamed := by
    rw [(run_carryOut_eq_ok hrun).2]
    cases o with
    | rollback cp => exact h.names.retain fun x hx _ => hx
    | reset => exact Names.all_empty
    | _ => exact h.names
  unfold named
  split
  · split
    · exact ⟨hspells.legible, hleaves.insert hspells.named⟩
    · exact ⟨hspells.legible, hleaves⟩
  · exact ⟨hspells.legible, hleaves⟩

/-- **A script** keeps it legible, statement by statement. -/
theorem run (ss : List Statement) : ∀ {b}, b.Legible → run ss b = .ok b' → b'.Legible := by
  induction ss with
  | nil =>
    intro b h hrun
    cases hrun
    exact h
  | cons s ss ih =>
    intro b h hrun
    obtain ⟨b₁, hstep, hrun⟩ := run_cons_eq_ok.mp hrun
    exact ih (h.step hstep) hrun

private theorem of_startTrace {config : Config} {t : Trace} (h : startTrace config = .ok t) :
    Legible { trace := t } := by
  refine ⟨?_, Names.all_empty⟩
  unfold startTrace at h
  split at h
  · next t₀ hstart =>
    cases h
    obtain ⟨-, hview⟩ := Trace.start_eq_ok hstart
    have hlegible : t₀.view.Legible := by
      rw [hview]
      exact .initial ..
    exact ⟨((Trace.Reachable.start hstart).step (.useFolder _)).canonical, hlegible.of_eq rfl⟩
  · cases h

end Legible

end Script.Builder

/-- **What a script builds** is legible, under all options. -/
theorem legible_of_build {settings : Settings} {name text : Bytes} {t : Trace}
    (h : build settings name text = .ok t) : t.Legible := by
  unfold build at h
  split at h
  · cases h
  · cases h
  · next p hparse =>
    obtain ⟨t₀, hstart, h⟩ := exists_of_bind h
    split at h
    · next b hrun =>
      cases h
      exact (Script.Builder.Legible.run p.statements (.of_startTrace hstart) hrun).trace
    · cases h
    · cases h

end TraceIR
