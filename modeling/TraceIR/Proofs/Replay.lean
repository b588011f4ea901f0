import TraceIR.Proofs.BufferSize
import TraceIR.Proofs.Building
import TraceIR.Proofs.Splicing

/-!
# The same statements on a twin

What a statement asks for depends on its words, on what its names stand for and on the counters of
the trace. Where it stands in the script comes up in nothing but error messages. So the same
statements further down in another script do the same, if that script has come to a like state.

* `Builder.Alike` — the names and checkpoints are the same and the traces are twins.
* `Alike.order_moved` — the same order is read off a statement that stands elsewhere.
* `Repeats.carryOut` — one order, for each kind of order. `Alike.step` — one statement.
* `Alike.run` — a whole script, by induction.
-/

namespace TraceIR

section Results

variable {ε α β : Type}

private theorem toOption_bind (x : Except ε α) (f : α → Except ε β) :
    (x >>= f).toOption = x.toOption.bind fun a => (f a).toOption := by
  cases x with
  | error e => rfl
  | ok a => rfl

end Results

namespace Script.Builder

/-- The names and checkpoints are the same and the traces are twins. -/
structure Alike (b c : Builder) : Prop where
  trace : Trace.Twins b.trace c.trace
  names : c.names = b.names
  checkpoints : c.checkpoints = b.checkpoints

variable {b c : Builder}

/-! ### Arguments -/

private theorem toOption_inPart {α : Type} (p : Part) (x : Except BuildError α) :
    (inPart p x).toOption = x.toOption := by
  cases x with
  | error e => rfl
  | ok a => rfl

/-- Names stand for the same values. -/
private theorem Alike.valueArg_moved (h : b.Alike c) (k : Nat) (a : Arg) :
    (c.valueArg (a.moved k)).toOption = (b.valueArg a).toOption := by
  cases a with
  | ident l =>
    rw [valueArg, Arg.moved, valueArg, h.names]
    rfl
  | int l => rfl
  | float l => rfl
  | lit p l => rfl
  | string l => rfl

section Arguments

variable (k : Nat)

private theorem intArg_moved (bits : Nat) (a : Arg) :
    (intArg bits (a.moved k)).toOption = (intArg bits a).toOption := by
  cases a <;> rfl

private theorem numberArg_moved (a : Arg) :
    (numberArg (a.moved k)).toOption = (numberArg a).toOption := by
  cases a <;> rfl

private theorem patternArg_moved (a : Arg) :
    (patternArg (a.moved k)).toOption = (patternArg a).toOption := by
  cases a <;> rfl

private theorem stringArg_moved (a : Arg) :
    (stringArg (a.moved k)).toOption = (stringArg a).toOption := by
  cases a <;> rfl

private theorem typeArg_moved (a : Arg) :
    (typeArg (a.moved k)).toOption = (typeArg a).toOption := by
  cases a <;> rfl

private theorem onlyArg_moved (s : Statement) :
    (onlyArg (s.moved k)).toOption = (onlyArg s).toOption.map (Arg.moved k) := by
  rw [onlyArg, onlyArg, Statement.moved]
  rcases s.args with _ | ⟨a, _ | ⟨a', args⟩⟩ <;> rfl

private theorem noArgs_moved (s : Statement) :
    (noArgs (s.moved k)).toOption = (noArgs s).toOption := by
  rw [noArgs, noArgs, Statement.moved]
  rcases s.args with _ | ⟨a, args⟩ <;> rfl

/-- A statement with one argument that is read in a way of its own. -/
private theorem onlyArg_bind_moved {α : Type} {f : Arg → Except BuildError α}
    (hf : ∀ a, (f (a.moved k)).toOption = (f a).toOption) (s : Statement) :
    (onlyArg (s.moved k) >>= f).toOption = (onlyArg s >>= f).toOption := by
  rw [toOption_bind, toOption_bind, onlyArg_moved, Option.bind_map]
  exact congrArg _ (funext hf)

private theorem objectOf_moved (s : Statement) :
    (objectOf (s.moved k)).toOption = (objectOf s).toOption := by
  rw [objectOf, objectOf, Statement.moved]
  rcases s.args with _ | ⟨a, _ | ⟨a', _ | ⟨a'', args⟩⟩⟩
  · rfl
  · simp only [List.map_cons, List.map_nil, toOption_bind, stringArg_moved]
  · simp only [List.map_cons, List.map_nil, toOption_bind, stringArg_moved, typeArg_moved]
  · rfl

private theorem fixedOf_moved (s : Statement) :
    (fixedOf (s.moved k)).toOption = (fixedOf s).toOption := by
  refine onlyArg_bind_moved k (fun a => ?_) s
  rw [toOption_bind, toOption_bind, typeArg_moved]

private theorem resultType_moved (op : Opcode) (s : Statement) (ty : Option Ty) :
    resultType op (s.moved k) ty = resultType op s ty := by
  rw [resultType, resultType, Statement.moved]
  cases s.ty <;> rfl

end Arguments

/-- Operands that stand elsewhere. -/
def Operands.moved (k : Nat) (o : Operands) : Operands :=
  { o with args := o.args.map (Arg.moved k) }

namespace Alike

private theorem slotOf_moved (h : b.Alike c) (k : Nat) (s : Statement) :
    (c.slotOf (s.moved k)).toOption = (b.slotOf s).toOption := by
  rw [slotOf, slotOf, Statement.moved]
  rcases s.args with _ | ⟨a, _ | ⟨a', _ | ⟨a'', args⟩⟩⟩
  · rfl
  · rfl
  · simp only [List.map_cons, List.map_nil, toOption_bind, toOption_inPart, h.valueArg_moved]
    refine congrArg _ (funext fun key => ?_)
    split
    · rfl
    · simp only [toOption_bind, toOption_inPart, intArg_moved]
  · rfl

private theorem snapshotRefs_moved (h : b.Alike c) (k : Nat) (args : List Arg) :
    ∀ index, (c.snapshotRefs index (args.map (Arg.moved k))).toOption =
      (b.snapshotRefs index args).toOption := by
  induction args with
  | nil => exact fun _ => rfl
  | cons a args ih =>
    intro index
    rw [List.map_cons, snapshotRefs, snapshotRefs]
    simp only [toOption_bind, toOption_inPart, h.valueArg_moved, ih]

private theorem target_moved (h : b.Alike c) (k : Nat) (s : Statement) :
    (c.target (s.moved k)).toOption = (b.target s).toOption := by
  rw [target, target, toOption_bind, toOption_bind, onlyArg_moved, Option.bind_map]
  congr 1
  funext a
  cases a with
  | ident l =>
    -- a checkpoint is compared with counters that twins share
    have hsize : c.trace.snapshots.size = b.trace.snapshots.size :=
      congrArg Array.size h.trace.snapshots_eq
    simp only [h.checkpoints, h.trace.nins_eq, h.trace.nk_eq, hsize]
    rfl
  | int l => rfl
  | float l => rfl
  | lit p l => rfl
  | string l => rfl

private theorem operand_moved (h : b.Alike c) (k : Nat) (op : Opcode) (index : Nat)
    (kind : OperandKind) (o : Operands) :
    (c.operand op index kind (o.moved k)).toOption =
      (b.operand op index kind o).toOption.map fun p => (p.1, p.2.moved k) := by
  obtain ⟨args, ty⟩ := o
  cases args with
  | nil => cases kind <;> rfl
  | cons a args =>
    cases kind with
    | const => rfl
    | absent => rfl
    | ref =>
      simp only [operand, Operands.moved, List.map_cons, toOption_bind, toOption_inPart,
        h.valueArg_moved, Option.map_bind]
      rfl
    | lit =>
      simp only [operand, Operands.moved, List.map_cons, toOption_bind, toOption_inPart, intArg_moved,
        Option.map_bind]
      refine congrArg _ (funext fun v => ?_)
      rw [Function.comp]
      split
      · rfl
      · rfl

private theorem instruction_moved (h : b.Alike c) (k : Nat) (op : Opcode) (s : Statement) :
    (c.instruction op (s.moved k)).toOption = (b.instruction op s).toOption := by
  rw [instruction, instruction]
  split
  · rfl
  · have hleft := h.operand_moved k op 1 op.shape.left { args := s.args }
    change (c.operand op 1 op.shape.left { args := (s.moved k).args }).toOption = _ at hleft
    rw [toOption_bind, toOption_bind, hleft, Option.bind_map]
    -- the left operand passes on what it leaves of the arguments
    refine congrArg _ (funext fun p => ?_)
    obtain ⟨left, o⟩ := p
    dsimp only [Function.comp]
    rw [toOption_bind, toOption_bind, h.operand_moved, Option.bind_map]
    refine congrArg _ (funext fun p => ?_)
    obtain ⟨right, o'⟩ := p
    dsimp only [Function.comp, Operands.moved]
    rw [List.isEmpty_map, resultType_moved]

/-- What a statement asks for that is no instruction. -/
private theorem verbOrder_moved (h : b.Alike c) (k : Nat) (v : Verb) (s : Statement) :
    (c.verbOrder v (s.moved k)).toOption = (b.verbOrder v s).toOption := by
  cases v with
  | kint | knum | knumInt | knumBits | kptr | knull =>
    refine onlyArg_bind_moved k (fun a => ?_) s
    simp only [toOption_bind, intArg_moved, numberArg_moved, patternArg_moved, typeArg_moved]
  | kgc => simp only [verbOrder, toOption_bind, objectOf_moved]
  | kslot => simp only [verbOrder, toOption_bind, h.slotOf_moved]
  | kpri => simp only [verbOrder, toOption_bind, fixedOf_moved]
  | knumToBit | knumAbs | knumNeg | reset => simp only [verbOrder, toOption_bind, noArgs_moved]
  | coerce x =>
    simp only [verbOrder, toOption_bind, onlyArg_moved, Option.bind_map, Function.comp_def,
      h.valueArg_moved]
  | checkpoint =>
    simp only [verbOrder, toOption_bind, noArgs_moved]
    refine congrArg _ (funext fun _ => ?_)
    rw [Statement.moved]
    cases s.name <;> rfl
  | rollback => simp only [verbOrder, toOption_bind, h.target_moved]
  | snap =>
    have hrefs := h.snapshotRefs_moved k s.args 0
    simp only [verbOrder, toOption_bind, Statement.moved, hrefs]

/-- **The same order** is read off a statement that stands elsewhere. -/
theorem order_moved (h : b.Alike c) (k : Nat) (s : Statement) :
    (c.order (s.moved k)).toOption = (b.order s).toOption := by
  have hop : (s.moved k).op.text = s.op.text := rfl
  have hplain : ((s.moved k).ty.isSome || (s.moved k).guard) = (s.ty.isSome || s.guard) := by
    rw [Statement.moved, Option.isSome_map]
  rw [order, order, hop, hplain]
  split
  · split
    · rfl
    · exact h.verbOrder_moved k _ s
  · split
    · rw [toOption_bind, toOption_bind, h.instruction_moved]
    · rfl

end Alike

/-! ### Carrying out -/

/-- Where the step of execution succeeds, it does so alike on a builder that is alike, unless it
breaks a rule there. -/
def Repeats {α : Type} (a : Building α) : Prop :=
  ∀ ⦃b c b' : Builder⦄ ⦃x : α⦄, b.Alike c → a.run b = .ok x b' →
    (∃ e c', a.run c = .error (.broken e) c') ∨ ∃ c', a.run c = .ok x c' ∧ b'.Alike c'

section Record

variable {α : Type} {a : Action α} {t : Trace}

private theorem run_record_of_broken {e : Breach} (h : a.run b.trace = .error (.broken e) t) :
    (record a).run b = .error (.broken e) { b with trace := t } := by
  change a b.trace = .error (.broken e) t at h
  simp only [EStateM.run, record, h]

private theorem run_record_ne_ok {e : Fault} {b' : Builder} {x : α}
    (h : a.run b.trace = .error e t) :
    (record a).run b ≠ .ok x b' := by
  cases e with
  | refused r =>
    rw [run_record_of_refused h]
    rintro ⟨⟩
  | broken e =>
    rw [run_record_of_broken h]
    rintro ⟨⟩

end Record

namespace Repeats

variable {α β : Type}

private theorem bind {a : Building α} {f : α → Building β} (ha : Repeats a)
    (hf : ∀ x, Repeats (f x)) :
    Repeats (a >>= f) := by
  intro b c b' y h hrun
  rw [EStateM.run_bind] at hrun ⊢
  cases hb : a.run b with
  | error e b₁ =>
    rw [hb] at hrun
    cases hrun
  | ok x b₁ =>
    rw [hb] at hrun
    obtain ⟨e, c₁, hc⟩ | ⟨c₁, hc, h₁⟩ := ha h hb
    · rw [hc]
      exact .inl ⟨e, c₁, rfl⟩
    · rw [hc]
      exact hf x h₁ hrun

private theorem pure (x : α) : Repeats (Pure.pure x : Building α) := by
  rintro b c b' y h ⟨⟩
  exact .inr ⟨c, rfl, h⟩

/-- A change that does not depend on what cannot be seen. -/
private theorem update {f : Builder → Builder}
    (hf : ∀ {b c : Builder}, b.Alike c → (f b).Alike (f c)) :
    Repeats (modify f : Building Unit) := by
  rintro b c b' y h ⟨⟩
  exact .inr ⟨f c, rfl, hf h⟩

/-- What runs in lockstep on twins can be recorded on each of them. -/
private theorem record {a : Action α} (ha : Trace.Lockstep Trace.Twins Fault.Broken a) :
    Repeats (Builder.record a) := by
  intro b c b' x h hrun
  have hmatch := ha _ _ h.trace
  generalize hy : a.run b.trace = y, hz : a.run c.trace = z at hmatch
  -- recording succeeded on the one side, so the other side has the same result or broke a rule
  cases hmatch with
  | ok h' =>
    rw [run_record_of_ok hy] at hrun
    cases hrun
    exact .inr ⟨_, run_record_of_ok hz, h', h.names, h.checkpoints⟩
  | right hbroken =>
    obtain ⟨e, rfl⟩ := hbroken
    exact .inl ⟨e, _, run_record_of_broken hz⟩
  | error h' => exact absurd hrun (run_record_ne_ok hy)
  | left hbroken => exact absurd hrun (run_record_ne_ok hy)

private theorem silently {a : Building Unit} (ha : Repeats a) : Repeats (Builder.silently a) :=
  ha.bind fun _ => .pure _

private theorem checkpoint (name : Bytes) : Repeats (Builder.checkpoint name) := by
  refine update fun {b c} h => ⟨h.trace, h.names, ?_⟩
  have hpoint : c.trace.checkpoint = b.trace.checkpoint := by
    rw [Trace.checkpoint, Trace.checkpoint, h.trace.nins_eq, h.trace.nk_eq, h.trace.snapshots_eq]
  show c.checkpoints.insert name c.trace.checkpoint = b.checkpoints.insert name b.trace.checkpoint
  rw [h.checkpoints, hpoint]

private theorem rollback (cp : Checkpoint) : Repeats (Builder.rollback cp) := by
  have hlock := (Trace.lockstep_rollback cp).twins fun ht => ht.operate (.step (.rollback cp))
  refine (record hlock).bind fun _ => update fun h => ⟨h.trace, ?_, h.checkpoints⟩
  exact congrArg (Names.retain · (survives cp)) h.names

private theorem reset : Repeats Builder.reset := by
  have hlock := Trace.lockstep_setup.twins fun ht => ht.operate (.step .setup)
  exact (record hlock).bind fun _ => update fun h => ⟨h.trace, rfl, rfl⟩

/-- **An order** whose instruction is none of constants. -/
theorem carryOut {o : Order} (ho : ∀ {op ty left right}, o = .emit op ty left right →
    op.isConst = false) : Repeats (carryOut o) := by
  cases o with
  | constant k => exact record (Trace.compatible_twins.constant k)
  | fixed ty => exact record (.ask fun _ => rfl)
  | emit op ty left right => exact record (Trace.compatible_twins.emit (ho rfl) ty left right)
  | coerce x y => exact record (Trace.compatible_twins.coerce x y)
  | checkpoint name => exact silently (checkpoint name)
  | rollback cp => exact silently (rollback cp)
  | snapshot refs =>
    refine silently (record fun t u h => .ok ?_)
    exact h.update h.view.folder h.view.guardEmitted (congrArg (Array.push · refs) h.snapshots_eq)
  | reset => exact silently reset

end Repeats

/-! ### Statements -/

private theorem Alike.named (h : b.Alike c) (k : Nat) (name : Option Lexeme) (y : TRef) :
    (b.named name y).Alike (c.named (name.map (Lexeme.moved k)) y) := by
  cases name with
  | none => exact h
  | some l =>
    unfold Builder.named
    dsimp only [Option.map_some]
    split
    · exact ⟨h.trace, congrArg (Names.insert · l.text y) h.names, h.checkpoints⟩
    · exact h

/-- **One statement** further down in another script. -/
theorem Alike.step {b c b' : Builder} {s : Statement} (h : b.Alike c) (hc : c.Healthy)
    (hrun : (step s).run b = .ok () b') (k : Nat) :
    ∃ c', (Builder.step (s.moved k)).run c = .ok () c' ∧ b'.Alike c' := by
  obtain ⟨o, y, b₁, ho, hout, rfl⟩ := run_step_eq_ok.mp hrun
  have ho' : c.order (s.moved k) = .ok o := by
    rw [← toOption_eq_some_iff, h.order_moved, toOption_eq_some_iff]
    exact ho
  -- orders of statements are fit to be carried out, so no rule is broken on the other side
  obtain ⟨hfit, hturn⟩ := hc.isFit_order ho'
  have hrepeats : Repeats (carryOut o) := by
    refine .carryOut fun {op ty left right} heq => ?_
    subst heq
    exact hfit.1
  obtain ⟨e, c₁, hbroken⟩ | ⟨c₁, hout', h₁⟩ := hrepeats h hout
  · exact absurd hbroken (hc.carryOut hfit hturn).not_broken
  · exact ⟨_, run_step_eq_ok.mpr ⟨o, y, c₁, ho', hout', rfl⟩, h₁.named k s.name y⟩

/-- **A script** further down in another script. -/
theorem Alike.run {ss : List Statement} (k : Nat) :
    ∀ {b c b' : Builder}, b.Alike c → c.Healthy → Builder.run ss b = .ok b' →
      ∃ c', Builder.run (ss.map (Statement.moved k)) c = .ok c' ∧ b'.Alike c' := by
  induction ss with
  | nil =>
    rintro b c b' h - ⟨⟩
    exact ⟨c, rfl, h⟩
  | cons s ss ih =>
    intro b c b' h hc hrun
    obtain ⟨b₁, hstep, hrest⟩ := run_cons_eq_ok.mp hrun
    obtain ⟨c₁, hstep', h₁⟩ := h.step hc hstep k
    have hc₁ := ((hc.step (s.moved k)).post hstep').1
    obtain ⟨c', hrest', h'⟩ := ih h₁ hc₁ hrest
    exact ⟨c', run_cons_eq_ok.mpr ⟨c₁, hstep', hrest'⟩, h'⟩

end Script.Builder

end TraceIR
