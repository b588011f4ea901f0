import TraceIR.Compile
import TraceIR.Proofs.Safety

/-!
# What a statement does

A statement is read as an order, and the order is carried out. This file says what can come of it.

* `Builder.Healthy` — the invariant of a script's execution: the trace is healthy, every name
  stands for something live, and every checkpoint is within the bounds of all traces.
* `Builder.Reads` — what a statement is read as, kind by kind. `order_cases` says that there is
  nothing else.
* `Builder.Order.IsFit` — what the order asks for can be done. Orders that statements give are fit
  (`Healthy.isFit_order`).
* `Builder.Order.action` and `Builder.Order.leaves` — what an order does to the trace and to the
  names (`run_carryOut_eq_ok`).
* `Builder.Advances` — what a statement that succeeds does to the trace and to the checkpoints.
  `Healthy.step` says that there is nothing else and that the invariant is kept.
* `Builder.ReachedBy` — the states that scripts reach under the default options. They are healthy,
  and no statement breaks a rule there (`ReachedBy.healthy`, `Healthy.run_not_broken`).
-/

namespace TraceIR

/-! ### Results -/

theorem exists_of_bind {ε α β : Type} {x : Except ε α} {f : α → Except ε β} {b : β}
    (h : (x >>= f) = .ok b) : ∃ a, x = .ok a ∧ f a = .ok b := by
  cases x with
  | error e => cases h
  | ok a => exact ⟨a, rfl, h⟩

theorem ok_bind {ε α β : Type} (a : α) (f : α → Except ε β) : ((.ok a : Except ε α) >>= f) = f a :=
  rfl

theorem toOption_eq_some_iff {ε α : Type} {x : Except ε α} {a : α} :
    x.toOption = some a ↔ x = .ok a := by
  cases x with
  | error e =>
    constructor
    · rintro ⟨⟩
    · rintro ⟨⟩
  | ok b =>
    constructor
    · rintro ⟨⟩
      rfl
    · rintro ⟨⟩
      rfl

/-- The request is neither for an object nor for a slot. -/
def Trace.Constant.IsSpelled : Trace.Constant → Prop
  | .object .. | .slot .. => False
  | _ => True

private theorem Trace.Constant.IsSpelled.isFit {k : Trace.Constant} (h : k.IsSpelled) (v : View) :
    k.IsFit v := by
  cases k with
  | object o ty | slot key n => exact h.elim
  | _ => exact True.intro

namespace Script

/-! ### Tables -/

namespace Names

variable {α : Type} {p q : α → Prop} {t : Names α} {name : Bytes} {a : α}

/-- Everything that a name stands for satisfies the condition. -/
def All (t : Names α) (p : α → Prop) : Prop :=
  ∀ e ∈ t.entries, p e.2

theorem all_empty : (empty : Names α).All p :=
  fun _ he => absurd he List.not_mem_nil

private theorem All.mono (h : t.All p) (hpq : ∀ a, p a → q a) : t.All q :=
  fun e he => hpq e.2 (h e he)

theorem All.get? (h : t.All p) (hget : t.get? name = some a) : p a := by
  obtain ⟨l₁, l₂, hentries, -⟩ := List.lookup_eq_some_iff.mp hget
  refine h (name, a) ?_
  rw [hentries]
  exact List.mem_append_right _ List.mem_cons_self

theorem All.insert (h : t.All p) (ha : p a) : (t.insert name a).All p := by
  intro e he
  rcases List.mem_cons.mp he with rfl | he
  · exact ha
  · exact h e (List.mem_filter.mp he).1

theorem All.retain (h : t.All p) {keep : α → Bool} (hq : ∀ a, p a → keep a = true → q a) :
    (t.retain keep).All q := by
  intro e he
  obtain ⟨hmem, hkeep⟩ := List.mem_filter.mp he
  exact hq e.2 (h e hmem) hkeep

end Names

/-! ### Points of the history -/

/-- What a statement does to the history of a trace, if it does more than add to it. -/
inductive Turn where
  | takes (name : Bytes)
  | returnsTo (name : Bytes)
  | restarts
  deriving DecidableEq

/-- The statement spells out the constant that it asks for. -/
def Verb.isSpelled : Verb → Bool
  | .kint | .knum | .knumInt | .knumBits | .kptr | .knull | .knumToBit | .knumAbs | .knumNeg => true
  | _ => false

/-- The turn that a statement takes which is no instruction. -/
def Verb.turn? (v : Verb) (s : Statement) : Option Turn :=
  match v with
  | .checkpoint => s.name.map fun l => .takes l.text
  | .rollback =>
    match s.args with
    | [.ident l] => some (.returnsTo l.text)
    | _ => none
  | .reset => some .restarts
  | _ => none

private theorem Verb.turn?_of_isSpelled {w : Verb} (h : w.isSpelled = true) (s : Statement) :
    w.turn? s = none := by
  cases w <;> first | rfl | cases h

/-- The turn that a statement takes. -/
def Statement.turn? (s : Statement) : Option Turn :=
  (Verb.ofName? s.op.text).bind (·.turn? s)

/-- The tree of a source that can be read. -/
def Parsed.tree? {α : Type} : Parsed α → Option α
  | .tree a => some a
  | _ => none

theorem Parsed.of_tree? {α : Type} {x : Parsed α} {a : α} (h : x.tree? = some a) :
    x = .tree a := by
  cases x with
  | tree b => exact congrArg _ (Option.some.inj h)
  | wrong place e => cases h
  | endless => cases h

theorem Parsed.exists_of_any {α : Type} {x : Parsed α} {p : α → Bool} (h : x.tree?.any p = true) :
    ∃ a, x = .tree a ∧ p a = true := by
  obtain ⟨a, ha, hp⟩ := (Option.any_eq_true _ _).mp h
  exact ⟨a, of_tree? ha, hp⟩

namespace Builder

theorem of_inPart {α : Type} {p : Part} {x : Except BuildError α} {a : α}
    (h : inPart p x = .ok a) : x = .ok a := by
  cases x with
  | error e => cases h
  | ok b => exact h

/-! ### The invariant -/

/-- The checkpoint keeps to the bounds that every trace has. -/
def IsPlausible (cp : Checkpoint) : Prop :=
  Ref.first ≤ cp.ins ∧ cp.const ≤ Ref.true ∧ 0 ≤ cp.snapshots

/-- The state of a script's execution under the default options. -/
structure Healthy (b : Builder) : Prop where
  trace : b.trace.Healthy
  config : b.trace.config = ({} : Config).normalize
  names : b.names.All fun x => b.trace.view.IsLive x.ref
  checkpoints : b.checkpoints.All IsPlausible

/-- What the order asks for can be done. -/
def Order.IsFit (b : Builder) : Order → Prop
  | .constant k => k.IsFit b.trace.view
  | .fixed ty => ty.isPrimitive = true
  | .emit op _ left right => op.isConst = false ∧ b.trace.view.Feeds op left right
  | .coerce _ x => b.trace.view.IsLive x.ref
  | .checkpoint _ => True
  | .rollback cp => b.trace.accepts cp = true ∧ 0 ≤ cp.snapshots
  | .snapshot refs => ∀ r ∈ refs, b.trace.view.IsLive r
  | .reset => True

variable {b b' : Builder} {s : Statement} {o : Order}

/-! ### Arguments -/

namespace Healthy

private theorem isLive_valueArg (h : b.Healthy) {a : Arg} {x : TRef} (ha : b.valueArg a = .ok x) :
    b.trace.view.IsLive x.ref := by
  cases a with
  | ident l =>
    rw [valueArg] at ha
    split at ha
    · next hget =>
      cases ha
      exact h.names.get? hget
    · cases ha
  | int l => cases ha
  | float l => cases ha
  | lit p l => cases ha
  | string l => cases ha

private theorem isLive_operand (h : b.Healthy) {op : Opcode} {i : Nat} {kind : OperandKind}
    {args args' : Operands} {r : Ref} (hr : b.operand op i kind args = .ok (r, args'))
    (hkind : kind = .ref) : b.trace.view.IsLive r := by
  subst hkind
  obtain ⟨_ | ⟨a, rest⟩, ty⟩ := args
  · cases hr
  · obtain ⟨x, hx, hr⟩ := exists_of_bind hr
    cases hr
    exact h.isLive_valueArg (of_inPart hx)

private theorem feeds_instruction (h : b.Healthy) {op : Opcode} {ty : Ty} {left right : Ref}
    (hi : b.instruction op s = .ok (ty, left, right)) :
    op.isConst = false ∧ b.trace.view.Feeds op left right := by
  rw [instruction] at hi
  split at hi
  · cases hi
  · next hop =>
    obtain ⟨⟨left, args⟩, hleft, hi⟩ := exists_of_bind hi
    obtain ⟨⟨right, args'⟩, hright, hi⟩ := exists_of_bind hi
    dsimp only at hi
    split at hi
    · cases hi
    · obtain ⟨ty, -, hi⟩ := exists_of_bind hi
      cases hi
      exact ⟨Bool.eq_false_iff.mpr hop, h.isLive_operand hleft, h.isLive_operand hright⟩

private theorem isLive_snapshotRefs (h : b.Healthy) (args : List Arg) :
    ∀ {i : Nat} {refs : List Ref}, b.snapshotRefs i args = .ok refs →
      ∀ r ∈ refs, b.trace.view.IsLive r := by
  induction args with
  | nil =>
    intro i refs hrefs
    cases hrefs
    exact fun _ hr => absurd hr List.not_mem_nil
  | cons a args ih =>
    intro i refs hrefs
    obtain ⟨x, hx, hrefs⟩ := exists_of_bind hrefs
    obtain ⟨rest, hrest, hrefs⟩ := exists_of_bind hrefs
    cases hrefs
    exact List.forall_mem_cons.mpr ⟨h.isLive_valueArg (of_inPart hx), ih hrest⟩

private theorem isFit_slotOf (h : b.Healthy) {key : TRef} {slot : Ref}
    (hs : b.slotOf s = .ok (key, slot)) : (Trace.Constant.slot key slot).IsFit b.trace.view := by
  rw [slotOf] at hs
  split at hs
  · obtain ⟨x, hx, hs⟩ := exists_of_bind hs
    split at hs
    · cases hs
    · next hconst =>
      obtain ⟨n, -, hs⟩ := exists_of_bind hs
      split at hs
      · next hsmall =>
        cases hs
        rw [isSmall, Bool.and_eq_true, decide_eq_true_eq, decide_eq_true_eq] at hsmall
        refine ⟨by simpa using hconst, h.isLive_valueArg (of_inPart hx), ?_⟩
        rw [UInt32.le_iff_toNat_le, UInt32.ofInt, UInt32.toNat_ofNat']
        have hlimit : Ref.limit.toNat = 0xffff := rfl
        omega
      · cases hs
  · cases hs

end Healthy

theorem isPrimitive_fixedOf {ty : Ty} (h : fixedOf s = .ok ty) : ty.isPrimitive = true := by
  obtain ⟨a, -, h⟩ := exists_of_bind h
  obtain ⟨ty', -, h⟩ := exists_of_bind h
  split at h
  · next hty =>
    cases h
    exact hty
  · cases h

/-- A rollback names a checkpoint that the trace has not fallen behind. -/
private theorem target_eq_ok {cp : Checkpoint} (h : b.target s = .ok cp) :
    ∃ l, s.args = [.ident l] ∧ b.checkpoints.get? l.text = some cp ∧ cp.ins ≤ b.trace.nins ∧
      b.trace.nk ≤ cp.const ∧ cp.snapshots ≤ b.trace.snapshots.size := by
  obtain ⟨a, ha, h⟩ := exists_of_bind h
  rw [onlyArg] at ha
  split at ha
  · next hargs =>
    cases ha
    split at h
    · next l =>
      split at h
      · cases h
      · next hget =>
        split at h
        · cases h
        · next hgone =>
          cases h
          obtain ⟨hins, hrest⟩ := not_or.mp hgone
          obtain ⟨hconst, hsnapshots⟩ := not_or.mp hrest
          exact ⟨l, hargs, hget, UInt32.not_lt.mp hins, UInt32.not_lt.mp hconst,
            Int.not_lt.mp hsnapshots⟩
    · cases h
  · cases ha

/-! ### How a statement is read -/

/-- What a statement which is no instruction is read as. A number, a pointer or a null is spelled
out by the statement; the rest depends on names, on checkpoints or on what is a type. -/
inductive Reads (b : Builder) (s : Statement) : Verb → Order → Prop
  | spelled {w : Verb} {k : Trace.Constant} (hw : w.isSpelled = true) (hk : k.IsSpelled) :
      Reads b s w (.constant k)
  | object (o : Object) : Reads b s .kgc (.constant (.object (some o) o.ty))
  | slot {key : TRef} {slot : Ref} (hslot : b.slotOf s = .ok (key, slot)) :
      Reads b s .kslot (.constant (.slot key slot))
  | fixed {ty : Ty} (hty : fixedOf s = .ok ty) : Reads b s .kpri (.fixed ty)
  | coerce {c : Coercion} {a : Arg} {x : TRef} (ha : onlyArg s = .ok a)
      (hx : b.valueArg a = .ok x) : Reads b s (.coerce c) (.coerce c x)
  | checkpoint {l : Lexeme} (hname : s.name = some l) : Reads b s .checkpoint (.checkpoint l.text)
  | rollback {cp : Checkpoint} (hcp : b.target s = .ok cp) : Reads b s .rollback (.rollback cp)
  | snapshot {refs : List Ref} (hrefs : b.snapshotRefs 0 s.args = .ok refs) :
      Reads b s .snap (.snapshot refs)
  | reset : Reads b s .reset .reset

/-- **Reading a statement** gives nothing else. -/
theorem reads_of_verbOrder {w : Verb} (ho : b.verbOrder w s = .ok o) : b.Reads s w o := by
  cases w with
  | kint | knum | knumInt | knumBits | kptr | knull =>
    -- an argument is read, and what it says is interned
    obtain ⟨a, -, ho⟩ := exists_of_bind ho
    obtain ⟨x, -, ho⟩ := exists_of_bind ho
    cases ho
    exact .spelled rfl True.intro
  | knumToBit | knumAbs | knumNeg =>
    obtain ⟨u, -, ho⟩ := exists_of_bind ho
    cases ho
    exact .spelled rfl True.intro
  | kgc =>
    obtain ⟨x, -, ho⟩ := exists_of_bind ho
    cases ho
    exact .object x
  | kslot =>
    obtain ⟨⟨key, slot⟩, hslot, ho⟩ := exists_of_bind ho
    cases ho
    exact .slot hslot
  | kpri =>
    obtain ⟨ty, hty, ho⟩ := exists_of_bind ho
    cases ho
    exact .fixed hty
  | coerce c =>
    obtain ⟨a, ha, ho⟩ := exists_of_bind ho
    obtain ⟨x, hx, ho⟩ := exists_of_bind ho
    cases ho
    exact .coerce ha hx
  | checkpoint =>
    obtain ⟨u, -, ho⟩ := exists_of_bind ho
    split at ho
    · next l hname =>
      cases ho
      exact .checkpoint hname
    · cases ho
  | rollback =>
    obtain ⟨cp, hcp, ho⟩ := exists_of_bind ho
    cases ho
    exact .rollback hcp
  | snap =>
    obtain ⟨refs, hrefs, ho⟩ := exists_of_bind ho
    cases ho
    exact .snapshot hrefs
  | reset =>
    obtain ⟨u, -, ho⟩ := exists_of_bind ho
    cases ho
    exact .reset

/-- **A statement that can be read** is of one of the kinds above or an instruction. -/
theorem order_cases (ho : b.order s = .ok o) :
    (∃ w, Verb.ofName? s.op.text = some w ∧ b.Reads s w o) ∨
      Verb.ofName? s.op.text = none ∧ ∃ op ty left right, Opcode.ofName? s.op.text = some op ∧
        b.instruction op s = .ok (ty, left, right) ∧ o = .emit op ty left right := by
  rw [order] at ho
  split at ho
  · next w hverb =>
    split at ho
    · cases ho
    · exact .inl ⟨w, hverb, reads_of_verbOrder ho⟩
  · next hverb =>
    split at ho
    · next op hop =>
      obtain ⟨⟨ty, left, right⟩, hi, ho⟩ := exists_of_bind ho
      cases ho
      exact .inr ⟨hverb, op, ty, left, right, hop, hi, rfl⟩
    · cases ho

/-! ### Orders are fit -/

/-- The turn of the statement that gives an order. -/
def Order.HasTurn (b : Builder) (turn : Option Turn) : Order → Prop
  | .checkpoint n => turn = some (.takes n)
  | .rollback cp => ∃ n, turn = some (.returnsTo n) ∧ b.checkpoints.get? n = some cp
  | .reset => turn = some .restarts
  | _ => turn = none

private theorem Healthy.isFit_of_reads (h : b.Healthy) {w : Verb} (hreads : b.Reads s w o) :
    o.IsFit b ∧ o.HasTurn b (w.turn? s) := by
  cases hreads with
  | spelled hw hk => exact ⟨hk.isFit _, Verb.turn?_of_isSpelled hw s⟩
  | object x => exact ⟨rfl, rfl⟩
  | slot hslot => exact ⟨h.isFit_slotOf hslot, rfl⟩
  | fixed hty => exact ⟨isPrimitive_fixedOf hty, rfl⟩
  | coerce ha hx => exact ⟨h.isLive_valueArg hx, rfl⟩
  | checkpoint hname =>
    refine ⟨True.intro, ?_⟩
    rw [Verb.turn?, hname]
    rfl
  | rollback hcp =>
    obtain ⟨l, hargs, hget, hins, hconst, hsnapshots⟩ := target_eq_ok hcp
    -- the statement compares three counters; the bounds come from the checkpoint
    obtain ⟨hfirst, htrue, hpos⟩ := h.checkpoints.get? hget
    refine ⟨⟨?_, hpos⟩, l.text, ?_, hget⟩
    · exact Trace.accepts_iff.mpr ⟨⟨hins, hfirst, hconst, htrue⟩, hsnapshots⟩
    · rw [Verb.turn?, hargs]
  | snapshot hrefs => exact ⟨h.isLive_snapshotRefs s.args hrefs, rfl⟩
  | reset => exact ⟨True.intro, rfl⟩

/-- **Orders are fit**, and they say what turn the statement takes. -/
theorem Healthy.isFit_order (h : b.Healthy) (ho : b.order s = .ok o) :
    o.IsFit b ∧ o.HasTurn b s.turn? := by
  unfold Statement.turn?
  rcases order_cases ho with ⟨w, hverb, hreads⟩ | ⟨hverb, op, ty, left, right, -, hi, rfl⟩
  · rw [hverb]
    exact h.isFit_of_reads hreads
  · rw [hverb]
    exact ⟨h.feeds_instruction hi, rfl⟩

/-! ### Carrying out -/

/-- The statement is wrong. -/
def IsMistake (e : Stop) : Prop :=
  ∃ w, e = .wrong w

/-- The step of execution says that the statement is wrong, or it ends as `Q` says. -/
abbrev Meets {α : Type} (b : Builder) (a : Building α) (Q : α → Builder → Prop) : Prop :=
  EndsIn IsMistake b a Q

section Meets

variable {α : Type} {x : α}

theorem Meets.not_broken {a : Building α} {Q : α → Builder → Prop} (h : b.Meets a Q) {e : Breach} :
    a.run b ≠ .error (.broken e) b' := by
  intro hrun
  obtain ⟨w, hw⟩ := h.allowed_of_error hrun
  cases hw

variable {a : Action α} {t : Trace}

theorem run_record_of_ok (h : a.run b.trace = .ok x t) :
    (record a).run b = .ok x { b with trace := t } := by
  change a b.trace = .ok x t at h
  simp only [EStateM.run, record, h]

theorem run_record_of_refused {r : Refusal} (h : a.run b.trace = .error (.refused r) t) :
    (record a).run b = .error (.wrong (.refused r)) { b with trace := t } := by
  change a b.trace = .error (.refused r) t at h
  simp only [EStateM.run, record, h]

theorem run_record_eq_ok (h : (record a).run b = .ok x b') :
    a.run b.trace = .ok x b'.trace ∧ b'.names = b.names := by
  cases hrun : a.run b.trace with
  | ok y t =>
    rw [run_record_of_ok hrun] at h
    cases h
    exact ⟨rfl, rfl⟩
  | error e t =>
    change a b.trace = .error e t at hrun
    simp only [EStateM.run, record, hrun] at h
    cases e with
    | refused r => cases h
    | broken e => cases h

/-- Recording that breaks no rule. -/
private theorem meets_record {P : α → Trace → Prop} {Q : α → Builder → Prop} (h : b.trace.Meets a P)
    (hq : ∀ x t, P x t → Q x { b with trace := t }) : b.Meets (record a) Q := by
  cases hrun : a.run b.trace with
  | ok x t => exact .of_ok (run_record_of_ok hrun) (hq x t (h.post hrun))
  | error e t =>
    obtain ⟨r, rfl⟩ := h.allowed_of_error hrun
    exact .of_error (run_record_of_refused hrun) ⟨_, rfl⟩

end Meets

/-! ### What an order does -/

/-- What the order does to the trace, and what comes of it. -/
def Order.action : Order → Action TRef
  | .constant k => k.intern
  | .fixed ty => Trace.ask fun _ => Trace.kpri ty
  | .emit op ty left right => Trace.emit op ty left right
  | .coerce c x => Trace.coerce c x
  | .checkpoint _ => pure .none
  | .rollback cp => do
    Trace.rollback cp
    return .none
  | .snapshot refs => do
    Trace.addSnapshot refs
    return .none
  | .reset => do
    Trace.setup
    return .none

/-- The names that the order leaves. -/
def Order.leaves (o : Order) (t : Names TRef) : Names TRef :=
  match o with
  | .rollback cp => t.retain (survives cp)
  | .reset => .empty
  | _ => t

/-- **Carrying out** an order acts on the trace and may take away names, and it binds none. -/
theorem run_carryOut_eq_ok {y : TRef} (h : (carryOut o).run b = .ok y b') :
    o.action.run b.trace = .ok y b'.trace ∧ b'.names = o.leaves b.names := by
  cases o with
  | constant k | fixed ty | emit op ty left right | coerce c x => exact run_record_eq_ok h
  | checkpoint n =>
    cases h
    exact ⟨rfl, rfl⟩
  | snapshot refs =>
    obtain ⟨u, b₁, hrecord, h⟩ := Trace.exists_of_run_bind h
    cases h
    obtain ⟨hrun, hnames⟩ := run_record_eq_ok hrecord
    refine ⟨?_, hnames⟩
    rw [Order.action, EStateM.run_bind, hrun]
    rfl
  | rollback cp =>
    obtain ⟨u, b₁, hforget, h⟩ := Trace.exists_of_run_bind h
    cases h
    -- first the trace goes back, then the names go
    obtain ⟨u, b₂, hrecord, hforget⟩ := Trace.exists_of_run_bind hforget
    cases hforget
    obtain ⟨hrun, hnames⟩ := run_record_eq_ok hrecord
    refine ⟨?_, congrArg (Names.retain · (survives cp)) hnames⟩
    rw [Order.action, EStateM.run_bind, hrun]
    rfl
  | reset =>
    obtain ⟨u, b₁, hforget, h⟩ := Trace.exists_of_run_bind h
    cases h
    obtain ⟨u, b₂, hrecord, hforget⟩ := Trace.exists_of_run_bind hforget
    cases hforget
    refine ⟨?_, rfl⟩
    rw [Order.action, EStateM.run_bind, (run_record_eq_ok hrecord).1]
    rfl

/-! ### What a statement does -/

/-- The statement with the given turn leads from `b` to `b'`. -/
def Advances (b : Builder) (turn : Option Turn) (b' : Builder) : Prop :=
  match turn with
  | none => View.CleanGrowths b.trace.view b'.trace.view ∧ b'.checkpoints = b.checkpoints
  | some (.takes n) =>
    b'.trace = b.trace ∧ b'.checkpoints = b.checkpoints.insert n b.trace.checkpoint
  | some (.returnsTo n) =>
    ∃ cp, b.checkpoints.get? n = some cp ∧ (Trace.rollback cp).run b.trace = .ok () b'.trace ∧
      b'.checkpoints = b.checkpoints
  | some .restarts => Trace.setup.run b.trace = .ok () b'.trace ∧ b'.checkpoints = .empty

/-- `b'` is healthy, comes from `b` by a statement with the given turn, and `y` is its result. -/
structure Outcome (b : Builder) (turn : Option Turn) (y : TRef) (b' : Builder) : Prop where
  healthy : b'.Healthy
  advances : b.Advances turn b'
  live : y ≠ .none → b'.trace.view.IsLive y.ref

namespace Healthy

/-- Recording leaves names and checkpoints as they are. -/
private theorem grown (h : b.Healthy) {t : Trace} (ht : t.Healthy)
    (hg : View.CleanGrowths b.trace.view t.view) : Healthy { b with trace := t } where
  trace := ht
  config := (hg.extends h.trace.sound.wellFormed).config.trans h.config
  names := h.names.mono fun _ hx => hx.growths h.trace.sound.wellFormed hg
  checkpoints := h.checkpoints

private theorem outcome_record (h : b.Healthy) {a : Action TRef}
    (ha : b.trace.Meets a b.trace.Yields) :
    b.Meets (record a) (b.Outcome none) :=
  meets_record ha fun _ _ hy =>
    ⟨h.grown hy.healthy hy.growths, ⟨hy.growths, rfl⟩, fun _ => hy.live⟩

private theorem isPlausible_checkpoint (h : b.Healthy) : IsPlausible b.trace.checkpoint := by
  have hbase := h.trace.sound.laid.base_lt
  exact ⟨show Ref.first ≤ b.trace.nins by grind, h.trace.sound.laid.nk_le, Int.natCast_nonneg _⟩

/-- A value that survives is live in what is left. -/
theorem isLive_of_survives {t : Trace} (ht : t.Healthy) {cp : Checkpoint} (hnins : t.nins = cp.ins)
    (hnk : t.nk = cp.const) {x : TRef} (hkeep : survives cp x = true) : t.view.IsLive x.ref := by
  have hbase := ht.sound.laid.base_lt
  have htrue := ht.sound.laid.nk_le
  rw [survives] at hkeep
  split at hkeep
  · next hconst =>
    have hlt : x.ref < Ref.bias := of_decide_eq_true hconst
    refine ⟨?_, UInt32.lt_trans hlt hbase⟩
    show t.nk ≤ x.ref
    rw [hnk]
    exact of_decide_eq_true hkeep
  · next hconst =>
    have hge : Ref.bias ≤ x.ref := UInt32.not_lt.mp fun hlt => hconst (decide_eq_true hlt)
    refine ⟨?_, ?_⟩
    · show t.nk ≤ x.ref
      grind
    · show x.ref < t.nins
      rw [hnins]
      exact of_decide_eq_true hkeep

private theorem rollback (h : b.Healthy) {cp : Checkpoint} {n : Bytes}
    (hget : b.checkpoints.get? n = some cp) (haccepts : b.trace.accepts cp = true)
    (hsnapshots : 0 ≤ cp.snapshots) :
    b.Meets (rollback cp) fun _ b' => b.Outcome (some (.returnsTo n)) .none b' := by
  obtain ⟨t, hrun, -, hview⟩ := h.trace.sound.laid.run_rollback haccepts hsnapshots
  have ht := h.trace.rollback hrun
  have hcut := h.trace.sound.wellFormed.cut_rollback (Trace.accepts_iff.mp haccepts).1
  rw [← hview] at hcut
  refine .of_bind (run_record_of_ok hrun) ?_
  refine ⟨⟨ht, hcut.config.trans h.config, ?_, h.checkpoints⟩, ⟨cp, hget, hrun, rfl⟩,
    fun hne => absurd rfl hne⟩
  exact h.names.retain fun _ _ hkeep => isLive_of_survives ht hcut.nins hcut.nk hkeep

private theorem reset (h : b.Healthy) :
    b.Meets reset fun _ b' => b.Outcome (some .restarts) .none b' := by
  obtain ⟨t, hrun, ht, hview⟩ := h.trace.setup
  have hconfig : t.config = b.trace.config := congrArg View.config hview
  refine .of_bind (run_record_of_ok hrun) ?_
  exact ⟨⟨ht, hconfig.trans h.config, Names.all_empty, Names.all_empty⟩, ⟨hrun, rfl⟩,
    fun hne => absurd rfl hne⟩

private theorem silently {a : Building Unit} {turn : Option Turn}
    (ha : b.Meets a fun _ b' => b.Outcome turn .none b') :
    b.Meets (silently a) (b.Outcome turn) :=
  ha.bind fun _ _ hb' => hb'

/-- **Carrying out** an order that is fit breaks no rule. -/
theorem carryOut (h : b.Healthy) {turn : Option Turn} (hfit : o.IsFit b)
    (hturn : o.HasTurn b turn) : b.Meets (carryOut o) (b.Outcome turn) := by
  cases o with
  | constant k =>
    obtain rfl : turn = none := hturn
    exact h.outcome_record (h.trace.constant hfit)
  | fixed ty =>
    obtain rfl : turn = none := hturn
    exact h.outcome_record (h.trace.kpri hfit)
  | emit op ty left right =>
    obtain rfl : turn = none := hturn
    exact h.outcome_record (h.trace.emit hfit.1 ty hfit.2)
  | coerce c x =>
    obtain rfl : turn = none := hturn
    exact h.outcome_record (h.trace.coerce c hfit)
  | checkpoint n =>
    obtain rfl : turn = some (.takes n) := hturn
    have hb' : Builder.Healthy
        { b with checkpoints := b.checkpoints.insert n b.trace.checkpoint } :=
      ⟨h.trace, h.config, h.names, h.checkpoints.insert h.isPlausible_checkpoint⟩
    exact silently ⟨hb', ⟨rfl, rfl⟩, fun hne => absurd rfl hne⟩
  | rollback cp =>
    obtain ⟨n, rfl, hget⟩ := hturn
    exact silently (h.rollback hget hfit.1 hfit.2)
  | snapshot refs =>
    obtain rfl : turn = none := hturn
    refine silently (meets_record (h.trace.addSnapshot hfit) fun _ t ht => ?_)
    exact ⟨h.grown ht.1 ht.2, ⟨ht.2, rfl⟩, fun hne => absurd rfl hne⟩
  | reset =>
    obtain rfl : turn = some .restarts := hturn
    exact silently h.reset

/-- A statement that is executed has an order that is carried out. -/
private theorem execute (h : b.Healthy) (s : Statement) :
    b.Meets (execute s) fun y b' =>
      b.Outcome s.turn? y b' ∧ ∃ o, b.order s = .ok o ∧ (Builder.carryOut o).run b = .ok y b' := by
  refine .of_bind (EStateM.run_get b) ?_
  cases ho : b.order s with
  | error e => exact .of_error rfl ⟨e, rfl⟩
  | ok o =>
    refine .of_bind (show (check (.ok o)).run b = .ok o b from rfl) ?_
    obtain ⟨hfit, hturn⟩ := h.isFit_order ho
    exact (h.carryOut hfit hturn).mono fun y b' hrun hout => ⟨hout, o, rfl, hrun⟩

/-- **A statement** breaks no rule. It does what its turn says and keeps the invariant. -/
theorem step (h : b.Healthy) (s : Statement) :
    b.Meets (step s) fun _ b' => b'.Healthy ∧ b.Advances s.turn? b' ∧
      ∃ o y b₁, b.order s = .ok o ∧ (Builder.carryOut o).run b = .ok y b₁ ∧
        b'.trace = b₁.trace := by
  refine (h.execute s).bind fun y b₁ ⟨hout, o, ho, hrun⟩ => ?_
  have hkeep : b₁.Healthy ∧ b.Advances s.turn? b₁ ∧ ∃ o y b₂, b.order s = .ok o ∧
      (Builder.carryOut o).run b = .ok y b₂ ∧ b₁.trace = b₂.trace :=
    ⟨hout.healthy, hout.advances, o, y, b₁, ho, hrun, rfl⟩
  cases s.name with
  | none => exact hkeep
  | some l =>
    by_cases hne : y ≠ .none
    · -- the name is bound to a live value
      have hnames : (b₁.names.insert l.text y).All fun x => b₁.trace.view.IsLive x.ref :=
        hout.healthy.names.insert (hout.live hne)
      dsimp only
      rw [if_pos hne]
      exact ⟨⟨hout.healthy.trace, hout.healthy.config, hnames, hout.healthy.checkpoints⟩,
        hout.advances, o, y, b₁, ho, hrun, rfl⟩
    · dsimp only
      rw [if_neg hne]
      exact hkeep

end Healthy

/-! ### The name of a result -/

/-- Bind a name to a result, if there are both. -/
def named (b : Builder) (name : Option Lexeme) (y : TRef) : Builder :=
  match name with
  | some l => if y ≠ .none then { b with names := b.names.insert l.text y } else b
  | none => b

/-- A statement succeeds if its order can be read and carried out. -/
theorem run_step_eq_ok :
    (step s).run b = .ok () b' ↔ ∃ o y b₁, b.order s = .ok o ∧ (carryOut o).run b = .ok y b₁ ∧
      b' = b₁.named s.name y := by
  rw [step, EStateM.run_bind, execute, EStateM.run_bind, EStateM.run_get]
  dsimp only
  rw [EStateM.run_bind]
  cases ho : b.order s with
  | error e =>
    constructor
    · rintro ⟨⟩
    · rintro ⟨o, y, b₁, ⟨⟩, -⟩
  | ok o =>
    rw [show (check (.ok o)).run b = .ok o b from rfl]
    dsimp only
    cases hout : (carryOut o).run b with
    | error e b₁ =>
      constructor
      · rintro ⟨⟩
      · rintro ⟨o', y, b₁, ⟨⟩, hout', -⟩
        rw [hout] at hout'
        cases hout'
    | ok y b₁ =>
      have hnamed : (∃ o' y' b₂, (.ok o : Except BuildError Order) = .ok o' ∧
          (carryOut o').run b = .ok y' b₂ ∧ b' = b₂.named s.name y') ↔ b₁.named s.name y = b' := by
        constructor
        · rintro ⟨o', y', b₂, ⟨⟩, hout', rfl⟩
          rw [hout] at hout'
          cases hout'
          rfl
        · rintro rfl
          exact ⟨o, y, b₁, rfl, hout, rfl⟩
      rw [hnamed]
      -- what is left of the statement is the name for its result
      unfold named
      cases s.name with
      | none =>
        constructor
        · rintro ⟨⟩
          rfl
        · rintro ⟨⟩
          rfl
      | some l =>
        by_cases hy : y ≠ .none
        · simp only [if_pos hy]
          constructor
          · rintro ⟨⟩
            rfl
          · rintro ⟨⟩
            rfl
        · simp only [if_neg hy]
          constructor
          · rintro ⟨⟩
            rfl
          · rintro ⟨⟩
            rfl

/-! ### Scripts -/

variable {script ss : List Statement}

theorem run_cons_eq_ok : run (s :: ss) b = .ok b' ↔
    ∃ b₁, (step s).run b = .ok () b₁ ∧ run ss b₁ = .ok b' := by
  rw [run]
  change _ ↔ ∃ b₁, step s b = .ok () b₁ ∧ run ss b₁ = .ok b'
  cases step s b with
  | ok u b₁ =>
    refine ⟨fun h => ⟨b₁, rfl, h⟩, ?_⟩
    rintro ⟨b₂, ⟨⟩, h⟩
    exact h
  | error e b₁ =>
    constructor
    · rintro ⟨⟩
    · rintro ⟨b₂, ⟨⟩, -⟩

theorem run_append_eq_ok {ss' : List Statement} : run (ss ++ ss') b = .ok b' ↔
    ∃ b₁, run ss b = .ok b₁ ∧ run ss' b₁ = .ok b' := by
  induction ss generalizing b with
  | nil =>
    refine ⟨fun h => ⟨b, rfl, h⟩, ?_⟩
    rintro ⟨b₁, ⟨⟩, h⟩
    exact h
  | cons s ss ih =>
    simp only [List.cons_append, run_cons_eq_ok, ih]
    constructor
    · rintro ⟨b₂, hs, b₁, hss, h⟩
      exact ⟨b₁, ⟨b₂, hs, hss⟩, h⟩
    · rintro ⟨b₁, ⟨b₂, hs, hss⟩, h⟩
      exact ⟨b₂, hs, b₁, hss, h⟩

/-- The script leads to the state under the default options. -/
def ReachedBy (b : Builder) (script : List Statement) : Prop :=
  ∃ t, startTrace {} = .ok t ∧ run script { trace := t } = .ok b

theorem exists_startTrace : ∃ t, startTrace {} = .ok t :=
  ⟨_, rfl⟩

/-- The state that the script leads to, if it does. -/
def reach? (script : List Statement) : Option Builder :=
  match startTrace {} with
  | .ok t => (run script { trace := t }).toOption
  | .error _ => none

theorem reach?_eq_some_iff : reach? script = some b ↔ b.ReachedBy script := by
  rw [reach?, ReachedBy]
  cases startTrace {} with
  | error e =>
    constructor
    · rintro ⟨⟩
    · rintro ⟨t, ⟨⟩, -⟩
  | ok t =>
    rw [toOption_eq_some_iff]
    constructor
    · exact fun hrun => ⟨t, rfl, hrun⟩
    · rintro ⟨t', ⟨⟩, hrun⟩
      exact hrun

theorem reachedBy_append {ss' : List Statement} :
    b'.ReachedBy (ss ++ ss') ↔ ∃ b, b.ReachedBy ss ∧ run ss' b = .ok b' := by
  simp only [ReachedBy, run_append_eq_ok]
  constructor
  · rintro ⟨t, ht, b, hb, h⟩
    exact ⟨b, ⟨t, ht, hb⟩, h⟩
  · rintro ⟨b, ⟨t, ht, hb⟩, h⟩
    exact ⟨t, ht, b, hb, h⟩

theorem reachedBy_concat :
    b'.ReachedBy (ss ++ [s]) ↔ ∃ b, b.ReachedBy ss ∧ (step s).run b = .ok () b' := by
  simp only [reachedBy_append, run_cons_eq_ok]
  constructor
  · rintro ⟨b, hb, b₁, hs, ⟨⟩⟩
    exact ⟨b, hb, hs⟩
  · rintro ⟨b, hb, hs⟩
    exact ⟨b, hb, b', hs, rfl⟩

/-- A script leads to one state only. -/
theorem ReachedBy.unique (h : b.ReachedBy ss) (h' : b'.ReachedBy ss) : b = b' := by
  obtain ⟨t, ht, hrun⟩ := h
  obtain ⟨t', ht', hrun'⟩ := h'
  rw [ht] at ht'
  cases ht'
  rw [hrun] at hrun'
  exact Except.ok.inj hrun'

theorem Healthy.of_startTrace {t : Trace} (h : startTrace {} = .ok t) :
    Healthy { trace := t } := by
  rw [startTrace] at h
  split at h
  · next t₀ hstart =>
    cases h
    have ht₀ := Trace.Healthy.of_start Config.moderate_default hstart
    obtain ⟨-, hview⟩ := Trace.start_eq_ok hstart
    -- the folder is put in after the trace was begun, and nothing of this speaks of it
    refine ⟨⟨⟨ht₀.sound.laid.of_view rfl rfl rfl rfl, ht₀.sound.wellFormed.of_eq rfl rfl rfl rfl⟩,
      ht₀.roomy.of_eq rfl rfl rfl rfl, ⟨ht₀.tidy.older, ht₀.tidy.number⟩⟩, ?_, Names.all_empty,
      Names.all_empty⟩
    exact congrArg View.config hview
  · cases h

/-- **Every state that a script reaches** is healthy. -/
theorem ReachedBy.healthy (h : b.ReachedBy script) : b.Healthy := by
  -- from the end, since the state is that after the last statement
  induction script using List.reverseRecOn generalizing b with
  | nil =>
    obtain ⟨t, ht, hrun⟩ := h
    cases hrun
    exact .of_startTrace ht
  | append_singleton ss s ih =>
    obtain ⟨b₁, hb₁, hstep⟩ := reachedBy_concat.mp h
    exact (((ih hb₁).step s).post hstep).1

/-- **No statement** of a script breaks a rule. -/
theorem Healthy.run_not_broken (h : b.Healthy) {e : Breach} :
    Builder.run ss b ≠ .error (s, .broken e) := by
  induction ss generalizing b with
  | nil => rintro ⟨⟩
  | cons s' ss ih =>
    have hmeets := h.step s'
    rw [Builder.run]
    cases hstep : Builder.step s' b with
    | ok u b' => exact ih (hmeets.post hstep).1
    | error e' b' =>
      rintro ⟨⟩
      exact hmeets.not_broken hstep

/-- What building a script means under the default options. -/
theorem build_eq_ok_iff {name text : Bytes} {t : Trace} :
    build {} name text = .ok t ↔
      ∃ p b, parseFile name text = .tree p ∧ ReachedBy b p.statements ∧ b.trace = t := by
  rw [build]
  cases parseFile name text with
  | wrong place e =>
    constructor
    · rintro ⟨⟩
    · rintro ⟨p, b, ⟨⟩, -⟩
  | endless =>
    constructor
    · rintro ⟨⟩
    · rintro ⟨p, b, ⟨⟩, -⟩
  | tree p =>
    dsimp only
    constructor
    · intro h
      obtain ⟨t₀, ht₀, h⟩ := exists_of_bind h
      split at h
      · next b hrun =>
        cases h
        exact ⟨p, b, rfl, ⟨t₀, ht₀, hrun⟩, rfl⟩
      · cases h
      · cases h
    · rintro ⟨p', b, ⟨⟩, ⟨t₀, ht₀, hrun⟩, rfl⟩
      rw [show startTrace ({} : Settings).recording = .ok t₀ from ht₀, ok_bind, hrun]
      rfl

end Builder

end Script

end TraceIR
