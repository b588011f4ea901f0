import TraceIR.Proofs.Binding
import TraceIR.Proofs.Limits

/-!
# What names stand for

A name stands for a reference together with a type, and conversions trust that type. The reference
can be an old one: equal instructions are shared, constants are interned, a comparison of constants
is answered with a fixed one, and a conversion may answer with its argument. This file says that the
type is that of the record in all these cases, and that the record stays what it was for as long as
the name is bound.

* `View.Typed` — the type of an interned constant is the one that its key says, and the fixed
  constants are as in the beginning. Recording keeps that if objects are asked for with their own
  types (`Trace.Constant.IsHonest`).
* `Canonical.of_emit`, `Canonical.of_intern` and so on — what one operation leaves of a trace.
  `Trace.coerce_induct` — conversions keep and answer what emission keeps and answers.
* `Trace.TruthfulAnswer` — what recording answers: a reference with the type of its record. One law
  for each operation: `Truthful.emit`, `Truthful.constant`, `Truthful.coerce`.
* `Builder.Faithful` — the invariant of scripts. `Faithful.step` — one statement.
* `Healthy.kept_of_step` — a statement leaves a name that it does not bind with the same record
  behind it, or not at all.
* `ReachedBy.names_denote` — a bound name stands for a live record of its type, and that is the one
  it was given by the last statement that bound it.
-/

namespace TraceIR

/-! ### Types of constants -/

/-- The tag of the constants that have the key. -/
def Key.tag : Key → Ty
  | int _ => Ty.int.tag
  | num _ => Ty.num.tag
  | object o => o.ty.tag
  | pointer _ => Ty.ptr.tag
  | null tag => tag
  | slot .. => Ty.ptr.tag

/-- An object is asked for with its own type. -/
def Trace.Constant.IsHonest : Trace.Constant → Prop
  | .object (some o) ty => ty.tag = o.ty.tag
  | _ => True

private theorem Trace.Constant.IsSpelled.isHonest {c : Trace.Constant} (h : c.IsSpelled) :
    c.IsHonest := by
  cases c with
  | object o ty | slot key n => exact h.elim
  | _ => exact True.intro

/-- **The type of the answer** to an honest request is the one that the key says. -/
theorem Trace.Constant.IsHonest.tag_ty {c : Trace.Constant} (h : c.IsHonest) {p : Pool} {k : Key}
    (hk : c.key? p = some k) : c.ty.tag = k.tag := by
  cases c with
  | int n | num n | numToBit | numAbs | numNeg | pointer n | null ty =>
    cases hk
    rfl
  | numInt x =>
    -- the key is that of an integer or of a number, as the value says
    rw [key?, demand] at hk
    rw [Constant.ty]
    cases hx : x.int32? with
    | some n =>
      rw [hx] at hk
      cases hk
      rfl
    | none =>
      rw [hx] at hk
      cases hk
      rfl
  | object o ty =>
    cases o with
    | none => cases hk
    | some o =>
      cases hk
      exact h
  | slot key n =>
    rw [key?, demand] at hk
    split at hk
    · next hdemand =>
      split at hdemand
      · cases hdemand
      · cases hdemand
        cases hk
        rfl
    · next hdemand =>
      split at hdemand
      · cases hdemand
      · cases hdemand
    · cases hk

namespace View

variable {v v' : View}

namespace Cut

variable {low high r : Ref}

theorem record_of_isLive (h : v.Cut v' low high) (hr : v'.IsLive r) :
    v'.record r = v.record r := by
  refine h.record r ?_ ?_
  · rw [← h.nk]
    exact hr.1
  · rw [← h.nins]
    exact hr.2

/-- What every trace begins with is never cut off. -/
theorem isLive_of_initial (h : v.Cut v' low high) {x : Record} (hx : initialRecord r = some x) :
    v'.IsLive r := by
  rcases initialRecord_eq_some hx with ⟨rfl, -⟩ | ⟨hfixed, -⟩
  · have hnk := h.wellFormed.nk_le
    exact ⟨UInt32.le_trans hnk (by decide), h.wellFormed.base_lt⟩
  · exact h.wellFormed.isLive_of_isFixed hfixed

end Cut

/-- The fixed constants are as in the beginning, and the others have the types that their keys
say. -/
structure Typed (v : View) : Prop where
  fixed : ∀ {r x}, initialRecord r = some x → v.record r = some x
  interned : ∀ {r x k}, v.record r = some x → x.key? = some k → x.ty.tag = k.tag

/-- There is a record at the reference, and it has the type. -/
def Types (v : View) (y : TRef) : Prop :=
  ∃ x, v.record y.ref = some x ∧ y.ty = x.ty.tag

namespace Typed

private theorem initial (config : Config) (pool : Pool) (folder : Option Folder) :
    (View.initial config pool folder).Typed where
  fixed hx := hx
  interned hx hk := by
    rw [key?_initialRecord hx] at hk
    cases hk

/-- Only the records matter. -/
private theorem of_eq (h : v.Typed) (hrecord : v'.record = v.record) : v'.Typed where
  fixed hx := hrecord ▸ h.fixed hx
  interned hx := h.interned (hrecord ▸ hx)

/-- Whatever enters has no key or the type that it says. -/
private theorem grow (h : v.Typed) (hext : v.Extends v')
    (hnew : ∀ {r x k}, v'.record r = some x → x.key? = some k →
      v.record r = some x ∨ x.ty.tag = k.tag) : v'.Typed where
  fixed hx := hext.record (h.fixed hx)
  interned hx hk := by
    rcases hnew hx hk with hold | hty
    · exact h.interned hold hk
    · exact hty

/-- What is left has the types that it had. -/
private theorem cut {low high : Ref} (h : v.Typed) (hcut : v.Cut v' low high) : v'.Typed := by
  constructor
  · intro r x hx
    rw [hcut.record_of_isLive (hcut.isLive_of_initial hx)]
    exact h.fixed hx
  · intro r x k hx hk
    rw [hcut.record_of_isLive ((hcut.wellFormed.live_iff r).mp ⟨x, hx⟩)] at hx
    exact h.interned hx hk

end Typed

end View

/-! ### What operations leave -/

namespace Trace

variable {t t' : Trace} {y : TRef} {op : Opcode} {ty : Ty} {a b : Ref}

namespace Canonical

/-- Emission makes the trace grow and answers with what it places, one way round or the other. -/
theorem of_emit (h : t.Canonical) (hop : op.isConst = false)
    (hrun : (emit op ty a b).run t = .ok y t') :
    t'.Canonical ∧ t.view.Extends t'.view ∧ ∃ a' b', Placed t op ty a' b' y t' := by
  have ht' := stepInvariant_canonical.step h (.emit ⟨op, hop⟩ ty a b)
  have hgrows := grows_emit t hop ty a b
  rw [Trace.step, after_of_ok hrun] at ht'
  rw [after_of_ok hrun] at hgrows
  refine ⟨ht', (View.Extends.refl t.view).growths h.sound.wellFormed (hgrows h.sound.laid).2, ?_⟩
  rcases h.sound.placed_emit hrun with hplaced | ⟨-, hplaced⟩
  · exact ⟨a, b, hplaced⟩
  · exact ⟨b, a, hplaced⟩

/-- Interning makes the trace grow and answers a request that has a key. -/
theorem of_intern (h : t.Canonical) {c : Constant} (hrun : c.intern.run t = .ok y t') :
    t'.Canonical ∧ t.view.Extends t'.view ∧
      ∃ k, c.key? t.pool = some k ∧ Interned t c k (.ok y t') := by
  have ht' := h.constant c
  have hgrows := grows_constant t c
  rw [after_of_ok hrun] at ht' hgrows
  refine ⟨ht', (View.Extends.refl t.view).growths h.sound.wellFormed (hgrows h.sound.laid).2, ?_⟩
  cases hk : c.key? t.pool with
  | none =>
    obtain ⟨e, hbroken⟩ := Constant.run_intern_of_no_key hk
    rw [hrun] at hbroken
    cases hbroken
  | some k =>
    have hinterned := h.interned hk
    rw [hrun] at hinterned
    exact ⟨k, rfl, hinterned⟩

/-- A constant that is added has the type of the answer. -/
theorem tag_of_added (h : t.Canonical) {c : Constant} {x : Record}
    (hadd : (addConstant x).run { t with pool := c.poolAfter t.pool } =
      .ok (.of (t.nk - 1) c.ty) t') : x.ty.tag = c.ty.tag := by
  obtain ⟨hone, hy, -, -⟩ := (h.poolAfter c).sound.laid.run_addConstant_of_ok hadd
  change 1 < t.nk at hone
  have hnk : t.nk ≤ Ref.true := h.sound.laid.nk_le
  have hle : t.nk - 1 ≤ Ref.limit := by grind
  rw [← TRef.ty_of hle, ← TRef.ty_of hle c.ty, hy]

/-- Going back cuts off records. -/
theorem of_rollback (h : t.Canonical) {cp : Checkpoint}
    (hrun : (rollback cp).run t = .ok () t') :
    t'.Canonical ∧ ∃ low high,
      View.Cut { t.view with snapshots := t.view.snapshots.take cp.snapshots.toNat } t'.view low
        high := by
  have ht' := stepInvariant_canonical.step h (.rollback cp)
  rw [Trace.step, after_of_ok hrun] at ht'
  obtain ⟨hcp, -, hview⟩ := h.sound.laid.of_run_rollback hrun
  have hcut := h.sound.wellFormed.cut_rollback (accepts_iff.mp hcp.1).1
  rw [← hview] at hcut
  exact ⟨ht', _, _, hcut⟩

theorem of_setup (h : t.Canonical) (hrun : setup.run t = .ok () t') :
    t'.Canonical ∧ t'.view = t.view.restart := by
  have ht' := stepInvariant_canonical.step h .setup
  rw [Trace.step, after_of_ok hrun] at ht'
  obtain ⟨t₁, hrun₁, -, hview⟩ := h.sound.laid.run_setup
  rw [hrun] at hrun₁
  cases hrun₁
  exact ⟨ht', hview⟩

theorem of_addSnapshot (h : t.Canonical) {refs : List Ref} {u : Unit}
    (hrun : (addSnapshot refs).run t = .ok u t') :
    t'.Canonical ∧ t'.view.record = t.view.record := by
  have ht' := stepInvariant_canonical.step h (.addSnapshot refs)
  rw [Trace.step, after_of_ok hrun] at ht'
  injection hrun with _ htrace
  subst htrace
  exact ⟨ht', rfl⟩

end Canonical

/-- The types that conversions ask for. -/
def IsConverted (ty : Ty) : Prop :=
  ty = Ty.num ∨ ty = Ty.num.guarded ∨ ty = Ty.str ∨ ty = Ty.int

section Coerce

variable {S : Trace → Prop} {T : Trace → TRef → Prop} (hstate : ∀ {t y}, T t y → S t)
  (hemit : ∀ {t t' op ty a b y}, S t → op.isConst = false → IsConverted ty →
    (emit op ty a b).run t = .ok y t' → T t' y)
  (hbias : ∀ {t t' y}, S t → Constant.numToBit.intern.run t = .ok y t' → T t' y)
  {c : Coercion} {x : TRef}
include hstate hemit

private theorem numberOrString_induct (hx : T t x) (hrun : (numberOrString c x).run t = .ok y t') :
    T t' y := by
  rw [Trace.numberOrString] at hrun
  split at hrun
  · exact hemit (hstate hx) rfl (.inr (.inl rfl)) hrun
  split at hrun
  · cases hrun
    exact hx
  · cases hrun

include hbias

/-- **What conversions keep.** A conversion answers with what it was given, or it emits instructions
of a few types. So whatever emission keeps and answers, conversions keep and answer too. -/
theorem coerce_induct (hx : T t x) (hrun : (coerce c x).run t = .ok y t') : T t' y := by
  have h := hstate hx
  cases c with
  | toNum =>
    rw [Trace.coerce, toNum] at hrun
    split at hrun
    · cases hrun
      exact hx
    split at hrun
    · exact hemit h rfl (.inl rfl) hrun
    split at hrun
    · exact hemit h rfl (.inr (.inl rfl)) hrun
    · cases hrun
  | toStr =>
    rw [Trace.coerce, toStr] at hrun
    split at hrun
    · cases hrun
      exact hx
    split at hrun
    · exact hemit h rfl (.inr (.inr (.inl rfl))) hrun
    · cases hrun
  | toBit =>
    rw [Trace.coerce, toBit] at hrun
    split at hrun
    · cases hrun
      exact hx
    · -- the number and the bias come first, and nothing is trusted of them but the trace they leave
      obtain ⟨n, t₁, hn, hrun⟩ := exists_of_run_bind hrun
      obtain ⟨k, t₂, hk, hrun⟩ := exists_of_run_bind hrun
      have h₁ := hstate (numberOrString_induct hstate hemit hx hn)
      exact hemit (hstate (hbias h₁ hk)) rfl (.inr (.inr (.inr rfl))) hrun
  | toInt =>
    rw [Trace.coerce, toInt] at hrun
    split at hrun
    · cases hrun
      exact hx
    · obtain ⟨n, t₁, hn, hrun⟩ := exists_of_run_bind hrun
      have h₁ := hstate (numberOrString_induct hstate hemit hx hn)
      exact hemit h₁ rfl (.inr (.inr (.inr rfl))) hrun

end Coerce

/-! ### What recording answers -/

/-- The constants of the trace are canonical and have the types that their keys say. -/
structure Truthful (t : Trace) : Prop where
  canonical : t.Canonical
  typed : t.view.Typed

/-- The trace is truthful, and `y` comes with the type of its record. -/
structure TruthfulAnswer (t : Trace) (y : TRef) : Prop where
  truthful : t.Truthful
  types : t.view.Types y

private theorem Truthful.sound (h : t.Truthful) : t.Sound :=
  h.canonical.sound

/-- A reference with the type of its record. -/
private theorem Truthful.answer (h : t.Truthful) {r : Ref} {x : Record}
    (hx : t.view.record r = some x) (hty : x.ty.tag = ty.tag) : t.TruthfulAnswer (.of r ty) := by
  have hlt : r < t.nins := ((h.sound.wellFormed.live_iff r).mp ⟨x, hx⟩).2
  have hle : r ≤ Ref.limit := UInt32.le_of_lt (UInt32.lt_of_lt_of_le hlt h.sound.laid.nins_le)
  refine ⟨h, x, ?_, ?_⟩
  · rwa [TRef.ref_of hle]
  · rw [TRef.ty_of hle, hty]

private theorem Truthful.placed (h : t.Truthful) (hext : t.view.Extends t'.view)
    (ht' : t'.Canonical) (hop : op.isConst = false) (hplaced : Placed t op ty a b y t') :
    t'.TruthfulAnswer y := by
  cases hplaced with
  | decided hfinds =>
    -- the answer is a fixed constant, of the type that it has from the beginning
    have htrue : View.initialRecord Ref.true = some { op := .kpri, ty := Ty.true } := by decide
    exact h.answer (h.typed.fixed htrue) rfl
  | shared hnormal hx hxop ha hb hleft hright hty =>
    -- the search compares the tags of the types
    exact h.answer hx hty
  | appended hlimit hlaid hview =>
    have htruthful : t'.Truthful := by
      refine ⟨ht', h.typed.grow hext ?_⟩
      intro r x k hx hk
      rw [hview] at hx
      rcases View.record_push_cases hx with ⟨-, rfl⟩ | hx
      · -- an instruction has no key
        rw [Record.key?_eq_none hop] at hk
        cases hk
      · exact .inl hx
    have hself := t.view.push_record_self { op, ty, left := a, right := b }
    rw [← hview] at hself
    exact htruthful.answer hself rfl

/-- **Emission** answers with the type of the record. -/
theorem Truthful.emit (h : t.Truthful) (hop : op.isConst = false)
    (hrun : (emit op ty a b).run t = .ok y t') : t'.TruthfulAnswer y := by
  obtain ⟨ht', hext, a', b', hplaced⟩ := h.canonical.of_emit hop hrun
  exact h.placed hext ht' hop hplaced

/-- **Interning** answers an honest request with the type of the record. -/
theorem Truthful.constant (h : t.Truthful) {c : Constant} (hc : c.IsHonest)
    (hrun : c.intern.run t = .ok y t') : t'.TruthfulAnswer y := by
  obtain ⟨ht', hext, k, hk, hinterned⟩ := h.canonical.of_intern hrun
  have hty := hc.tag_ty hk
  cases hinterned with
  | found hx hxk =>
    -- the constant has the type of the key, whoever asked for it first
    exact h.answer hx ((h.typed.interned hx hxk).trans hty.symm)
  | @added buffer x t' hnew hroom hbuffer hx hadd hlaid hview =>
    -- the record enters with the type of the answer
    have htag : x.ty.tag = c.ty.tag := h.canonical.tag_of_added hadd
    have htruthful : t'.Truthful := by
      refine ⟨ht', h.typed.grow hext ?_⟩
      intro r z k' hz hk'
      rw [hview] at hz
      rcases View.record_pushConstant_cases hz with ⟨-, rfl⟩ | hz
      · obtain rfl := Option.some.inj (hx.key.symm.trans hk')
        exact .inr (htag.trans hty)
      · exact .inl hz
    have hself := View.pushConstant_record_self { t.view with pool := c.poolAfter t.pool } x
    rw [← hview] at hself
    exact htruthful.answer hself htag

theorem initialRecord_fixedRef (h : ty.isPrimitive = true) :
    View.initialRecord (fixedRef ty) = some { op := .kpri, ty := ty.tag } := by
  rcases tag_of_isPrimitive h with htag | htag | htag
  · rw [fixedRef, htag]
    decide
  · rw [fixedRef, htag]
    decide
  · rw [fixedRef, htag]
    decide

/-- The fixed constants have their types. -/
private theorem Truthful.kpri (h : t.Truthful) (hty : ty.isPrimitive = true)
    (hrun : (ask fun _ => kpri ty).run t = .ok y t') : t'.TruthfulAnswer y := by
  rw [run_ask, Trace.kpri, if_pos hty] at hrun
  cases hrun
  exact h.answer (h.typed.fixed (initialRecord_fixedRef hty)) ty.tag_tag

/-- **Converting** answers with the type of the record, also where it answers with what it was
given. -/
theorem Truthful.coerce (h : t.Truthful) {c : Coercion} {x : TRef} (hx : t.view.Types x)
    (hrun : (coerce c x).run t = .ok y t') : t'.TruthfulAnswer y :=
  coerce_induct TruthfulAnswer.truthful (fun h hop _ => h.emit hop)
    (fun h => h.constant (c := .numToBit) True.intro) ⟨h, hx⟩ hrun

/-! Going back and beginning again. -/

private theorem Truthful.rollback (h : t.Truthful) {cp : Checkpoint}
    (hrun : (rollback cp).run t = .ok () t') : t'.Truthful := by
  obtain ⟨ht', low, high, hcut⟩ := h.canonical.of_rollback hrun
  have htyped : View.Typed { t.view with snapshots := t.view.snapshots.take cp.snapshots.toNat } :=
    h.typed.of_eq rfl
  exact ⟨ht', htyped.cut hcut⟩

private theorem Truthful.setup (h : t.Truthful) (hrun : setup.run t = .ok () t') : t'.Truthful := by
  obtain ⟨ht', hview⟩ := h.canonical.of_setup hrun
  refine ⟨ht', ?_⟩
  rw [hview]
  exact .initial ..

private theorem Truthful.addSnapshot (h : t.Truthful) {refs : List Ref} {u : Unit}
    (hrun : (addSnapshot refs).run t = .ok u t') : t'.Truthful := by
  obtain ⟨ht', hrecord⟩ := h.canonical.of_addSnapshot hrun
  exact ⟨ht', h.typed.of_eq hrecord⟩

/-! ### Values of records -/

/-- The value of a constant is that of its record, and a number that can be read stays the same as
long as none leaves the pool. -/
private theorem value_eq_of_record {r : Ref} {x : Record} (hx : t.view.record r = some x)
    (hx' : t'.view.record r = some x)
    (hpool : ∀ i n, t.pool.get? i = some n → t'.pool.get? i = some n)
    (hnumber : x.op = .knum → ∃ n, x.number? t.pool = some n) : t'.value r = t.value r := by
  unfold value
  rw [record?_eq_ok_iff.mpr hx, record?_eq_ok_iff.mpr hx']
  dsimp only
  unfold recordValue
  cases hop : x.op with
  | knum =>
    -- the only constants whose values lie outside their records
    obtain ⟨n, hn⟩ := hnumber hop
    have hn' := Record.number?_mono hpool hn
    unfold Record.number? at hn hn'
    rw [hn, hn']
  | _ => rfl

end Trace

/-! ### Statements -/

namespace Script.Builder

variable {b b' : Builder} {s : Statement} {o : Order} {ss : List Statement} {v : Bytes}
  {x y : TRef}

/-- What the order asks for comes with the right type. -/
def Order.IsTyped (b : Builder) : Order → Prop
  | .constant k => k.IsHonest
  | .coerce _ x => b.trace.view.Types x
  | _ => True

/-- The constants have the types that they should have, and so do the values of the names. -/
structure Faithful (b : Builder) : Prop where
  truthful : b.trace.Truthful
  types : ∀ {v x}, b.names.get? v = some x → b.trace.view.Types x

private theorem Faithful.types_valueArg (h : b.Faithful) {a : Arg} (ha : b.valueArg a = .ok x) :
    b.trace.view.Types x := by
  cases a with
  | ident l =>
    rw [valueArg] at ha
    split at ha
    · next hget =>
      cases ha
      exact h.types hget
    · cases ha
  | int l | float l | lit p l | string l => cases ha

/-- **Orders** ask for things with the right types. -/
theorem Faithful.isTyped_order (h : b.Faithful) (ho : b.order s = .ok o) : o.IsTyped b := by
  rcases order_cases ho with ⟨w, -, hreads⟩ | ⟨-, op, ty, left, right, -, -, rfl⟩
  · cases hreads with
    | spelled hw hk => exact hk.isHonest
    | object z =>
      -- the type is read off the object
      exact rfl
    | coerce ha hx => exact h.types_valueArg hx
    | slot _ | fixed _ | checkpoint _ | rollback _ | snapshot _ | reset => exact True.intro
  · exact True.intro

/-- **Carrying out** an order leaves a truthful trace, and the result has the type of its record. -/
theorem Faithful.carryOut (h : b.Faithful) (htyped : o.IsTyped b) (hfit : o.IsFit b)
    (hrun : (carryOut o).run b = .ok y b') :
    b'.trace.Truthful ∧ (o.isSilent = false → b'.trace.view.Types y) := by
  replace hrun := (run_carryOut_eq_ok hrun).1
  have hresult : b'.trace.TruthfulAnswer y →
      b'.trace.Truthful ∧ (o.isSilent = false → b'.trace.view.Types y) :=
    fun hanswer => ⟨hanswer.truthful, fun _ => hanswer.types⟩
  cases o with
  | constant k => exact hresult (h.truthful.constant htyped hrun)
  | fixed ty => exact hresult (h.truthful.kpri hfit hrun)
  | emit op ty left right => exact hresult (h.truthful.emit hfit.1 hrun)
  | coerce c z => exact hresult (h.truthful.coerce htyped hrun)
  | checkpoint n =>
    injection hrun with _ htrace
    refine ⟨htrace ▸ h.truthful, ?_⟩
    rintro ⟨⟩
  | rollback cp =>
    obtain ⟨u, t, hback, hrun⟩ := Trace.exists_of_run_bind hrun
    injection hrun with _ htrace
    refine ⟨htrace ▸ h.truthful.rollback hback, ?_⟩
    rintro ⟨⟩
  | snapshot refs =>
    obtain ⟨u, t, hsnapshot, hrun⟩ := Trace.exists_of_run_bind hrun
    injection hrun with _ htrace
    refine ⟨htrace ▸ h.truthful.addSnapshot hsnapshot, ?_⟩
    rintro ⟨⟩
  | reset =>
    obtain ⟨u, t, hreset, hrun⟩ := Trace.exists_of_run_bind hrun
    injection hrun with _ htrace
    refine ⟨htrace ▸ h.truthful.setup hreset, ?_⟩
    rintro ⟨⟩

/-! ### Names that stay -/

namespace Healthy

/-- A statement that does not begin the trace again leaves a record as it is or removes it, and it
takes no number from the pool. -/
private theorem record_of_step (h : b.Healthy) (hs : (Builder.step s).run b = .ok () b')
    (hturn : s.turn? ≠ some .restarts) {r : Ref} {z : Record}
    (hz : b.trace.view.record r = some z) (hlive : b'.trace.view.IsLive r) :
    b'.trace.view.record r = some z ∧
      ∀ i n, b.trace.pool.get? i = some n → b'.trace.pool.get? i = some n := by
  obtain ⟨-, hadvances, -⟩ := (h.step s).post hs
  cases hs' : s.turn? with
  | none =>
    -- recording only adds
    rw [hs'] at hadvances
    obtain ⟨hg, -⟩ := hadvances
    exact ⟨(hg.extends h.trace.sound.wellFormed).record hz,
      fun i n hn => Trace.get?_of_growths hg.growths hn⟩
  | some turn =>
    rw [hs'] at hadvances hturn
    cases turn with
    | takes m =>
      rw [hadvances.1]
      exact ⟨hz, fun i n hn => hn⟩
    | returnsTo m =>
      obtain ⟨cp, -, hback, -⟩ := hadvances
      obtain ⟨hcp, -, hview⟩ := h.trace.sound.laid.of_run_rollback hback
      have hcut := h.trace.sound.wellFormed.cut_rollback (Trace.accepts_iff.mp hcp.1).1
      rw [← hview] at hcut
      constructor
      · -- it lies in what is left
        rw [hcut.record r (hcut.nk ▸ hlive.1) (hcut.nins ▸ hlive.2)]
        exact hz
      · intro i n hn
        have hpool : b'.trace.pool = b.trace.pool := hcut.pool
        rw [hpool]
        exact hn
    | restarts => exact absurd rfl hturn

/-- After a new beginning no name is bound, unless the statement binds it. -/
private theorem not_restarts_of_bound (h : b.Healthy) (hs : (Builder.step s).run b = .ok () b')
    (hv : s.boundName? ≠ some v) (hget : b'.names.get? v = some x) :
    s.turn? ≠ some .restarts := by
  intro hturn
  obtain ⟨o, ho, hleaves⟩ := h.get?_of_step hs hv
  obtain ⟨-, hturn'⟩ := h.isFit_order ho
  rw [hturn] at hturn'
  rw [hget] at hleaves
  cases o with
  | reset => cases hleaves
  | rollback cp =>
    obtain ⟨n, hn, -⟩ := hturn'
    cases hn
  | _ => cases hturn'

/-- **A statement** leaves a name that it does not bind with the same value, the same record behind
it and the same constant in that, or it leaves it unbound. -/
theorem kept_of_step (h : b.Healthy) (hdistinct : b.names.Distinct)
    (hs : (Builder.step s).run b = .ok () b') (hv : s.boundName? ≠ some v)
    (hget : b'.names.get? v = some x) :
    b.names.get? v = some x ∧ b'.trace.view.record x.ref = b.trace.view.record x.ref ∧
      b'.trace.value x.ref = b.trace.value x.ref := by
  have hbefore := h.bound_of_step hdistinct hs hv hget
  have hturn := h.not_restarts_of_bound hs hv hget
  -- the name is bound on both sides, so its reference is live on both sides
  have hlive' := ((h.step s).post hs).1.names.get? hget
  obtain ⟨z, hz⟩ := h.trace.sound.wellFormed.isLive_iff.mp (h.names.get? hbefore)
  obtain ⟨hz', hpool⟩ := h.record_of_step hs hturn hz hlive'
  refine ⟨hbefore, ?_, Trace.value_eq_of_record hz hz' hpool (h.trace.tidy.number hz)⟩
  rw [hz, hz']

end Healthy

/-- **One statement** keeps the types right. -/
theorem Faithful.step (h : b.Faithful) (hb : b.Healthy) (hdistinct : b.names.Distinct)
    (hs : (step s).run b = .ok () b') : b'.Faithful := by
  obtain ⟨o, y, b₁, ho, hrun, htrace, hnames⟩ := hb.names_of_step hs
  obtain ⟨htruthful, hy⟩ := h.carryOut (h.isTyped_order ho) (hb.isFit_order ho).1 hrun
  rw [← htrace] at htruthful hy
  refine ⟨htruthful, ?_⟩
  intro v x hget
  by_cases hv : s.boundName? = some v
  · -- the name was bound just now, to the result
    rw [hnames, hv, Option.elim_some, Names.get?_insert_self] at hget
    cases hget
    rw [boundName?_of_order ho] at hv
    split at hv
    · cases hv
    · next hsilent => exact hy (Bool.eq_false_iff.mpr hsilent)
  · -- it was bound before, and the record behind it is the same
    obtain ⟨hbefore, hrecord, -⟩ := hb.kept_of_step hdistinct hs hv hget
    obtain ⟨z, hz, hty⟩ := h.types hbefore
    exact ⟨z, hrecord.trans hz, hty⟩

private theorem Faithful.of_startTrace {t : Trace} (h : startTrace {} = .ok t) :
    Faithful { trace := t } := by
  refine ⟨?_, ?_⟩
  · rw [startTrace] at h
    split at h
    · next t₀ hstart =>
      cases h
      obtain ⟨-, hview⟩ := Trace.start_eq_ok hstart
      have htyped : t₀.view.Typed := by
        rw [hview]
        exact .initial ..
      exact ⟨((Trace.Reachable.start hstart).step (.useFolder _)).canonical, htyped.of_eq rfl⟩
    · cases h
  · rintro v x ⟨⟩

/-- **In every state that a script reaches** the types are right. -/
theorem ReachedBy.faithful (h : b.ReachedBy ss) : b.Faithful := by
  induction ss using List.reverseRecOn generalizing b with
  | nil =>
    obtain ⟨t, ht, hrun⟩ := h
    cases hrun
    exact .of_startTrace ht
  | append_singleton ss s ih =>
    obtain ⟨b₁, hb₁, hstep⟩ := reachedBy_concat.mp h
    exact (ih hb₁).step hb₁.healthy hb₁.distinct hstep

/-- A bound name was bound by a statement of the script, and since then neither its value nor the
record behind it has changed. -/
private theorem ReachedBy.exists_boundBy (h : b.ReachedBy ss) (hget : b.names.get? v = some x) :
    ∃ pre s post, BoundBy ss v pre s post ∧
      ∃ b₁ : Builder, b₁.ReachedBy (pre ++ [s]) ∧ b₁.names.get? v = some x ∧
        b₁.trace.view.record x.ref = b.trace.view.record x.ref ∧
        b₁.trace.value x.ref = b.trace.value x.ref := by
  induction ss using List.reverseRecOn generalizing b with
  | nil =>
    obtain ⟨t, -, hrun⟩ := h
    cases hrun
    cases hget
  | append_singleton ss s ih =>
    -- the last statement binds the name, or the one that does is among those before it
    by_cases hv : s.boundName? = some v
    · have hlast : BoundBy (ss ++ [s]) v ss s [] :=
        ⟨rfl, hv, fun _ hs => absurd hs List.not_mem_nil⟩
      exact ⟨ss, s, [], hlast, b, h, hget, rfl, rfl⟩
    · obtain ⟨b₀, hb₀, hstep⟩ := reachedBy_concat.mp h
      obtain ⟨hbefore, hrecord, hvalue⟩ := hb₀.healthy.kept_of_step hb₀.distinct hstep hv hget
      obtain ⟨pre, s', post, hbound, b₁, hb₁, hget₁, hrecord₁, hvalue₁⟩ := ih hb₀ hbefore
      refine ⟨pre, s', post ++ [s], ⟨?_, hbound.binds, ?_⟩, b₁, hb₁, hget₁,
        hrecord₁.trans hrecord.symm, hvalue₁.trans hvalue.symm⟩
      · rw [hbound.split, List.append_assoc, List.cons_append]
      · intro s'' hs''
        rcases List.mem_append.mp hs'' with hs'' | hs''
        · exact hbound.last s'' hs''
        · rw [List.mem_singleton.mp hs'']
          exact hv

/-- **What a name stands for.** After any statements of a script, a bound name stands for a live
reference, with the type of the record there. The record and its constant are those which the name
had right after the last statement that bound it. -/
theorem ReachedBy.names_denote (h : b.ReachedBy ss) (hget : b.names.get? v = some x) :
    b.trace.isLive x.ref = true ∧
      ∃ z, b.trace.record? x.ref = .ok z ∧ x.ty = z.ty.tag ∧
        ∃ pre s post, BoundBy ss v pre s post ∧
          ∃ b₁ : Builder, b₁.ReachedBy (pre ++ [s]) ∧ b₁.names.get? v = some x ∧
            b₁.trace.record? x.ref = .ok z ∧ b₁.trace.value x.ref = b.trace.value x.ref := by
  obtain ⟨z, hz, hty⟩ := h.faithful.types hget
  obtain ⟨pre, s, post, hbound, b₁, hb₁, hget₁, hrecord, hvalue⟩ := h.exists_boundBy hget
  refine ⟨(Trace.isLive_iff _ _).mpr (h.healthy.names.get? hget), z,
    Trace.record?_eq_ok_iff.mpr hz, hty, pre, s, post, hbound, b₁, hb₁, hget₁, ?_, hvalue⟩
  exact Trace.record?_eq_ok_iff.mpr (hrecord.trans hz)

/-- A name for a value that is shared with an older one, between a checkpoint and the return to
it. -/
def sharedSince : Bytes :=
  Bytes.ascii ("x = SLOAD.int! #1 #0\ny = tonum x\ncp = checkpoint\nk = kint 7\nz = tonum x\n" ++
    "rollback cp\n")

theorem ReachedBy.names_denote_of_sharedSince :
    ∃ p b x, parseFile [] sharedSince = .tree p ∧ ReachedBy b p.statements ∧
      b.names.get? (Bytes.ascii "z") = some x ∧ b.trace.isLive x.ref = true ∧
      ∃ z, b.trace.record? x.ref = .ok z ∧ x.ty = z.ty.tag := by
  have h : (parseFile [] sharedSince).tree?.any (fun p => (reach? p.statements).any (fun b =>
      (b.names.get? (Bytes.ascii "z")).isSome)) = true := by decide +kernel
  obtain ⟨p, hp, hreach⟩ := Parsed.exists_of_any h
  obtain ⟨b, hb, hname⟩ := (Option.any_eq_true _ _).mp hreach
  obtain ⟨x, hx⟩ := Option.isSome_iff_exists.mp hname
  have hb := reach?_eq_some_iff.mp hb
  obtain ⟨hlive, z, hz, hty, -⟩ := hb.names_denote hx
  exact ⟨p, b, x, hp, hb, hx, hlive, z, hz, hty⟩

end Script.Builder

end TraceIR
