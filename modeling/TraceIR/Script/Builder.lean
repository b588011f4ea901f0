import TraceIR.Script.BuildError
import TraceIR.Script.Names
import TraceIR.Trace.Coerce

/-!
# From statements to a trace

A builder executes the statements of a script one after another. It holds the trace recorded so
far, what the names of the script stand for, and the checkpoints taken.

* `Builder.order` reads off a statement what it asks for, or says what is wrong with it.
* `Builder.carryOut` does what is asked for and gives the result, and `Builder.step` does both and
  binds the name of the result.
* A rollback forgets the names whose values it removed. Checkpoints stay known, but one that lies
  ahead of the trace is gone.
-/

namespace TraceIR.Script

/-- The statements that are no instructions. -/
inductive Verb where
  | kint
  | knum
  | knumInt
  | knumBits
  | kgc
  | kptr
  | knull
  | kslot
  | kpri
  | knumToBit
  | knumAbs
  | knumNeg
  | coerce (c : Coercion)
  | checkpoint
  | rollback
  | snap
  | reset
  deriving DecidableEq, Repr, Inhabited

/-- The statements that are no instructions, by name. Their letter case counts. -/
def Verb.names : List (String × Verb) :=
  [("kint", .kint), ("knum", .knum), ("knumint", .knumInt), ("knumbits", .knumBits),
    ("kgc", .kgc), ("kptr", .kptr), ("knull", .knull), ("kslot", .kslot), ("kpri", .kpri),
    ("ktobit", .knumToBit), ("kabs", .knumAbs), ("kneg", .knumNeg), ("tonum", .coerce .toNum),
    ("tostr", .coerce .toStr), ("tobit", .coerce .toBit), ("toint", .coerce .toInt),
    ("checkpoint", .checkpoint), ("rollback", .rollback), ("snap", .snap), ("reset", .reset)]

/-- The statement with a given name that is no instruction. -/
def Verb.ofName? (name : Bytes) : Option Verb :=
  names.findSome? fun (s, v) => if Bytes.ascii s == name then some v else none

/-- The state of a script's execution. -/
structure Builder where
  trace : Trace
  names : Names TRef := .empty
  checkpoints : Names Checkpoint := .empty
  deriving Repr, Inhabited

/-- Why execution stops. -/
inductive Stop where
  | wrong (e : BuildError)
  | broken (b : Breach)
  deriving DecidableEq, Repr, Inhabited

/-- A step of a script's execution. -/
abbrev Building := EStateM Stop Builder

namespace Builder

/-- The statement is wrong. -/
def reject {α : Type} (e : BuildError) : Building α :=
  throw (.wrong e)

/-- Say in which part of the statement an error arose. -/
def inPart {α : Type} (p : Part) (x : Except BuildError α) : Except BuildError α :=
  x.mapError (.inside p)

/-- Take a result, or stop with its error. -/
def check {α : Type} (x : Except BuildError α) : Building α :=
  match x with
  | .ok a => pure a
  | .error e => reject e

/-- Record something. -/
def record {α : Type} (a : Action α) : Building α := fun b =>
  match a b.trace with
  | .ok x trace => .ok x { b with trace }
  | .error (.refused r) trace => .error (.wrong (.refused r)) { b with trace }
  | .error (.broken e) trace => .error (.broken e) { b with trace }

/-! ### Arguments -/

/-- The value that an argument names. -/
def valueArg (b : Builder) (a : Arg) : Except BuildError TRef :=
  match a with
  | .ident l =>
    match b.names.get? l.text with
    | some x => .ok x
    | none => .error (.undefined l.text)
  | a => .error (.wrongArg .name a)

/-- An integer argument that fits in a number of bits. -/
def intArg (bits : Nat) (a : Arg) : Except BuildError Int :=
  match a with
  | .int l | .lit _ l => (Numeral.integer bits l.text).mapError (.badNumeral .integer l.text)
  | a => .error (.wrongArg .integer a)

/-- A numeric argument. -/
def numberArg (a : Arg) : Except BuildError Binary64 :=
  match a with
  | .int _ => (intArg 64 a).map Binary64.ofInt
  | .float l => (Numeral.decimal l.text).mapError (.badNumeral .fraction l.text)
  | a => .error (.wrongArg .number a)

/-- An argument that gives a bit pattern. -/
def patternArg (a : Arg) : Except BuildError Binary64 :=
  match a with
  | .int l =>
    match Numeral.natural 64 l.text with
    | .ok n => .ok ⟨UInt64.ofNat n⟩
    | .error e => .error (.badNumeral .pattern l.text e)
  | a => .error (.wrongArg .integer a)

/-- A string argument. -/
def stringArg (a : Arg) : Except BuildError Bytes :=
  match a with
  | .string l =>
    match Quoted.read? l.text with
    | some s => .ok s
    | none => .error .badString
  | a => .error (.wrongArg .string a)

/-- The type with a name. -/
def typeNamed (name : Bytes) : Except BuildError Ty :=
  match Ty.ofName? name with
  | some t => .ok t
  | none => .error (.unknownType name)

/-- A type argument. -/
def typeArg (a : Arg) : Except BuildError Ty :=
  match a with
  | .ident l => typeNamed l.text
  | a => .error (.wrongArg .type a)

/-- A number that fits into an operand. -/
def isSmall (v : Int) : Bool :=
  0 ≤ v && v ≤ (Ref.limit.toNat : Int)

/-! ### Instructions -/

/-- What the operands of an instruction amount to so far. -/
structure Operands where
  /-- The arguments that are left. -/
  args : List Arg
  /-- The type of the first operand that is a value. -/
  ty : Option Ty := none

/-- The operand with a number, counted from one. -/
def operand (b : Builder) (op : Opcode) (index : Nat) (kind : OperandKind) (o : Operands) :
    Except BuildError (Ref × Operands) :=
  match kind, o.args with
  | .const, _ | .absent, _ => .ok (Ref.none, o)
  | _, [] => .error (.operandExpected op index)
  | .ref, a :: args => do
    let x ← inPart (.operand index) (b.valueArg a)
    return (x.ref, { args, ty := some (o.ty.getD x.ty) })
  | .lit, a :: args => do
    let v ← inPart (.operand index) (intArg 32 a)
    if isSmall v then return (UInt32.ofInt v, { o with args })
    else throw (.literalOutOfRange index v)

/-- The type of an instruction's result: the one written, or else the one of its first operand
that is a value. -/
def resultType (op : Opcode) (s : Statement) (operandTy : Option Ty) : Except BuildError Ty := do
  let ty ← match s.ty with
    | some l => (typeNamed l.text).map some
    | none => .ok operandTy
  match ty with
  | some t => return if s.guard then t.tag.guarded else t.tag
  | none => throw (.typeExpected op)

/-- The type and the operands of an instruction. -/
def instruction (b : Builder) (op : Opcode) (s : Statement) :
    Except BuildError (Ty × Ref × Ref) := do
  if op.isConst then throw (.constantOp op)
  let (left, o) ← b.operand op 1 op.shape.left { args := s.args }
  let (right, o) ← b.operand op 2 op.shape.right o
  if !o.args.isEmpty then throw (.tooManyOperands op)
  let ty ← resultType op s o.ty
  return (ty, left, right)

/-! ### Other statements -/

/-- The only argument of a statement. -/
def onlyArg (s : Statement) : Except BuildError Arg :=
  match s.args with
  | [a] => .ok a
  | args => .error (.argCount s.op.text 1 args.length)

/-- A statement without arguments. -/
def noArgs (s : Statement) : Except BuildError Unit :=
  if s.args.isEmpty then .ok () else .error (.argCount s.op.text 0 s.args.length)

/-- The object and the type of a `kgc` statement. Objects of the same type and text are the same
object. -/
def objectOf (s : Statement) : Except BuildError Object :=
  match s.args with
  | [a] => do
    let text ← stringArg a
    return { ty := Ty.str, text := some text }
  | [a, t] => do
    let text ← stringArg a
    let ty ← typeArg t
    if ty.isObject then return { ty, text := some text } else throw (.notObjectType ty)
  | _ => .error .objectArgs

/-- The key and the slot of a `kslot` statement. -/
def slotOf (b : Builder) (s : Statement) : Except BuildError (TRef × Ref) :=
  match s.args with
  | [k, n] => do
    let key ← inPart .key (b.valueArg k)
    if !key.isConst then throw .keyNotConstant
    let slot ← inPart .slot (intArg 17 n)
    if isSmall slot then return (key, UInt32.ofInt slot) else throw (.slotOutOfRange slot)
  | args => .error (.argCount s.op.text 2 args.length)

/-- The fixed constant of a `kpri` statement. -/
def fixedOf (s : Statement) : Except BuildError Ty := do
  let ty ← typeArg (← onlyArg s)
  if ty.isPrimitive then return ty else throw (.notPrimitiveType ty)

/-- The values that a snapshot names, given how many came before. -/
def snapshotRefs (b : Builder) : Nat → List Arg → Except BuildError (List Ref)
  | _, [] => .ok []
  | index, a :: args => do
    let x ← inPart (.snapshot index) (b.valueArg a)
    let rest ← b.snapshotRefs (index + 1) args
    return x.ref :: rest

/-- The checkpoint that a `rollback` statement names, unless the trace is now shorter than it was
then. -/
def target (b : Builder) (s : Statement) : Except BuildError Checkpoint := do
  match ← onlyArg s with
  | .ident l =>
    match b.checkpoints.get? l.text with
    | none => throw (.undefinedCheckpoint l.text)
    | some cp =>
      if b.trace.nins < cp.ins ∨ cp.const < b.trace.nk
          ∨ (b.trace.snapshots.size : Int) < cp.snapshots then
        throw (.checkpointGone l.text)
      else return cp
  | a => throw (.wrongArg .checkpointName a)

/-! ### Orders -/

/-- What a statement asks for. -/
inductive Order where
  | constant (k : Trace.Constant)
  | fixed (ty : Ty)
  | emit (op : Opcode) (ty : Ty) (left right : Ref)
  | coerce (c : Coercion) (x : TRef)
  | checkpoint (name : Bytes)
  | rollback (cp : Checkpoint)
  | snapshot (refs : List Ref)
  | reset

/-- What a statement asks for that is no instruction. -/
def verbOrder (b : Builder) (v : Verb) (s : Statement) : Except BuildError Order := do
  match v with
  | .kint => return .constant (.int (Int32.ofInt (← intArg 32 (← onlyArg s))))
  | .knum => return .constant (.num (← numberArg (← onlyArg s)))
  | .knumInt => return .constant (.numInt (← numberArg (← onlyArg s)))
  | .knumBits => return .constant (.num (← patternArg (← onlyArg s)))
  | .kgc =>
    let o ← objectOf s
    return .constant (.object (some o) o.ty)
  | .kptr => return .constant (.pointer (UInt64.ofInt (← intArg 64 (← onlyArg s))))
  | .knull => return .constant (.null (← typeArg (← onlyArg s)))
  | .kslot =>
    let (key, slot) ← b.slotOf s
    return .constant (.slot key slot)
  | .kpri => return .fixed (← fixedOf s)
  | .knumToBit =>
    noArgs s
    return .constant .numToBit
  | .knumAbs =>
    noArgs s
    return .constant .numAbs
  | .knumNeg =>
    noArgs s
    return .constant .numNeg
  | .coerce c => return .coerce c (← b.valueArg (← onlyArg s))
  | .checkpoint =>
    noArgs s
    match s.name with
    | some l => return .checkpoint l.text
    | none => throw .unnamedCheckpoint
  | .rollback => return .rollback (← b.target s)
  | .snap => return .snapshot (← b.snapshotRefs 0 s.args)
  | .reset =>
    noArgs s
    return .reset

/-- What a statement asks for. -/
def order (b : Builder) (s : Statement) : Except BuildError Order :=
  match Verb.ofName? s.op.text with
  | some v => if s.ty.isSome || s.guard then .error (.noTypeHere s.op.text) else b.verbOrder v s
  | none =>
    match Opcode.ofName? s.op.text with
    | some op => do
      let (ty, left, right) ← b.instruction op s
      return .emit op ty left right
    | none => .error (.unknownOp s.op.text)

/-! ### Execution -/

/-- Does a value survive a rollback? -/
def survives (cp : Checkpoint) (x : TRef) : Bool :=
  if x.isConst then cp.const ≤ x.ref else x.ref < cp.ins

/-- Go back to a checkpoint and forget the names of what is removed. -/
def rollback (cp : Checkpoint) : Building Unit := do
  record (Trace.rollback cp)
  modify fun b => { b with names := b.names.retain (survives cp) }

/-- Remember the present point under a name. -/
def checkpoint (name : Bytes) : Building Unit :=
  modify fun b => { b with checkpoints := b.checkpoints.insert name b.trace.checkpoint }

/-- Begin again with an empty trace and without names. -/
def reset : Building Unit := do
  record Trace.setup
  modify fun b => { b with names := .empty, checkpoints := .empty }

/-- Do something that has no result. -/
def silently (a : Building Unit) : Building TRef := do
  a
  return .none

/-- Do what is asked for. -/
def carryOut : Order → Building TRef
  | .constant k => record k.intern
  | .fixed ty => record (Trace.ask fun _ => Trace.kpri ty)
  | .emit op ty left right => record (Trace.emit op ty left right)
  | .coerce c x => record (Trace.coerce c x)
  | .checkpoint name => silently (checkpoint name)
  | .rollback cp => silently (rollback cp)
  | .snapshot refs => silently (record (Trace.addSnapshot refs))
  | .reset => silently reset

/-- Do what a statement says. -/
def execute (s : Statement) : Building TRef := do
  carryOut (← check ((← get).order s))

/-- Do what a statement says and bind the name of its result, if it has both. -/
def step (s : Statement) : Building Unit := do
  let x ← execute s
  match s.name with
  | some l => if x ≠ .none then modify fun b => { b with names := b.names.insert l.text x }
  | none => pure ()

/-- Execute statements up to the first that fails, and name that one. -/
def run : List Statement → Builder → Except (Statement × Stop) Builder
  | [], b => .ok b
  | s :: ss, b =>
    match step s b with
    | .ok _ b => run ss b
    | .error e _ => .error (s, e)

end Builder

end TraceIR.Script
