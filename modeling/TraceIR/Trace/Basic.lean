import TraceIR.Buffer

/-!
# Traces

A trace is what a recording has built so far: a range of live records, the newest record of every
opcode, and the snapshots taken. Recording steps are `Action`s. A step that fails leaves behind
whatever it did before it failed.

* `Trace.start` gives a trace that holds the `BASE` instruction and the three fixed constants.
* `Trace.emitRaw` appends an instruction as it is.
* `Trace.checkpoint` and `Trace.rollback` take a trace back to an earlier point.
-/

namespace TraceIR

/-! ### Newest records -/

/-- A reference for every opcode. -/
structure Heads where
  table : Vector Ref Opcode.count
  deriving DecidableEq, Repr

namespace Heads

/-- No opcode has a reference. -/
def empty : Heads := ⟨Vector.replicate _ Ref.none⟩

instance : Inhabited Heads := ⟨empty⟩

def get (h : Heads) (op : Opcode) : Ref :=
  h.table[op.index]

def set (h : Heads) (op : Opcode) (r : Ref) : Heads :=
  ⟨h.table.set op.index r⟩

@[simp] theorem get_empty (op : Opcode) : empty.get op = Ref.none := by
  simp [get, empty]

@[simp] theorem get_set_self (h : Heads) (op : Opcode) (r : Ref) : (h.set op r).get op = r := by
  simp [get, set]

theorem get_set_of_ne (h : Heads) {op op' : Opcode} (r : Ref) (hne : op ≠ op') :
    (h.set op r).get op' = h.get op' := by
  have : op.index.val ≠ op'.index.val := fun e => hne (Opcode.index_injective (Fin.ext e))
  simp [get, set, Vector.getElem_set_ne _ _ this]

end Heads

/-! ### State -/

/-- The optimisations that an instruction passes on its way into the trace. -/
structure Folder where
  fold : Bool
  cse : Bool
  deriving DecidableEq, Repr, Inhabited

/-- The optimisations that the options ask for. -/
def Folder.ofConfig (c : Config) : Folder :=
  ⟨c.fold, c.cse⟩

/-- A recording. -/
structure Trace where
  config : Config
  pool : Pool := {}
  /-- Without a folder instructions go into the trace as they are. -/
  folder : Option Folder := none
  buffer : Buffer := {}
  /-- The next instruction. -/
  nins : Ref := Ref.base
  /-- The lowest constant. -/
  nk : Ref := Ref.base
  heads : Heads := .empty
  /-- Was a guard emitted since this was last reset? -/
  guardEmitted : Bool := false
  /-- The references that each snapshot needs, in the order taken. -/
  snapshots : Array (List Ref) := #[]
  deriving Repr, Inhabited

/-- A step of a recording. -/
abbrev Action := EStateM Fault Trace

/-- Refuse a request. -/
def refuse {α : Type} (r : Refusal) : Action α :=
  throw (.refused r)

/-- Stop because a rule is broken. -/
def breach {α : Type} (b : Breach) : Action α :=
  throw (.broken b)

namespace Trace

/-- Is there a live record at the reference? -/
def isLive (t : Trace) (r : Ref) : Bool :=
  t.nk ≤ r && r < t.nins

/-- The number of live records. -/
def size (t : Trace) : Nat :=
  (t.nins - t.nk).toNat

/-- The number of slots. -/
def capacity (t : Trace) : Nat :=
  t.buffer.slots.size

/-- The record in a slot, live or not. -/
def slot (r : Ref) : Action Record := do
  match (← get).buffer.get? r with
  | some x => pure x
  | none => breach .outOfBounds

/-- The live record at a reference. -/
def record? (t : Trace) (r : Ref) : Except Breach Record :=
  if t.isLive r then
    match t.buffer.get? r with
    | some x => .ok x
    | none => .error .outOfBounds
  else .error (.deadRef r t.nk t.nins)

/-- Run a question that can only find a broken rule. -/
def ask {α : Type} (q : Trace → Except Breach α) : Action α := do
  match q (← get) with
  | .ok a => pure a
  | .error b => breach b

/-- The live record at a reference. -/
def record (r : Ref) : Action Record :=
  ask (·.record? r)

/-- Write a slot. -/
def write (r : Ref) (x : Record) : Action Unit := do
  if (← get).buffer.has r then modify fun t => { t with buffer := t.buffer.set r x }
  else breach .outOfBounds

/-- Make a record the newest of its opcode. -/
def setHead (op : Opcode) (r : Ref) : Action Unit :=
  modify fun t => { t with heads := t.heads.set op r }

/-! ### Appending -/

/-- The first reference that no instruction can take. -/
def instructionLimit (c : Config) : Ref :=
  Ref.bias + UInt32.ofInt c.maxInstructions

/-- Take the next instruction slot. -/
def nextInstruction : Action Ref := do
  let r := (← get).nins
  if instructionLimit (← get).config ≤ r ∨ Ref.limit ≤ r then refuse .traceOverflow
  if (← get).buffer.top ≤ r then
    modify fun t => { t with buffer := t.buffer.growTop t.config.minSize }
  modify fun t => { t with nins := r + 1 }
  return r

/-- Append an instruction as it is. -/
def emitRaw (op : Opcode) (ty : Ty) (a b : Ref) : Action TRef := do
  let r ← nextInstruction
  let prev := (← get).heads.get op
  write r { op, ty, left := a, right := b, prev }
  setHead op r
  modify fun t => { t with guardEmitted := t.guardEmitted || ty.isGuard }
  return .of r ty

/-- Take the next constant slot. -/
def nextConstant : Action Ref := do
  let r := (← get).nk
  if (← get).config.maxConstants ≤ (Ref.true - r).toNat ∨ r ≤ 1 then refuse .constOverflow
  if r ≤ (← get).buffer.bot then
    let buffer ← ask fun t => t.buffer.growBottom t.nk t.nins
    modify fun t => { t with buffer }
  modify fun t => { t with nk := r - 1 }
  return r - 1

/-- Add a constant. -/
def addConstant (x : Record) : Action TRef := do
  let r ← nextConstant
  let prev := (← get).heads.get x.op
  write r { x with prev }
  setHead x.op r
  return .of r x.ty

/-! ### Beginning -/

/-- The types of the fixed constants. The one of type `t` lies `t + 1` below the border. -/
def fixedTypes : List Ty := [Ty.nil, Ty.false, Ty.true]

/-- The reference of a fixed constant. -/
def fixedRef (t : Ty) : Ref :=
  Ref.nil - t.tag.bits.toUInt32

/-- Forget everything recorded and begin again in the same buffer. The pool stays. -/
def setup : Action Unit := do
  modify fun t =>
    { t with
      buffer := t.buffer.clear
      nins := Ref.base
      nk := Ref.base
      heads := .empty
      guardEmitted := false
      snapshots := #[] }
  let _ ← EStateM.adaptExcept
    (fun
      | .refused r => .broken (.setup r)
      | f => f)
    (emitRaw .base Ty.ptr Ref.none Ref.none)
  fixedTypes.forM fun t => write (fixedRef t) { op := .kpri, ty := t }
  modify fun t => { t with nk := Ref.true }

/-- A trace ready for recording, with the given pool. -/
def start (config : Config) (pool : Pool) : Except Fault Trace :=
  match setup.run { config := config.normalize, pool } with
  | .ok _ t => .ok t
  | .error e _ => .error e

/-! ### Going back -/

/-- The present point. -/
def checkpoint (t : Trace) : Checkpoint :=
  ⟨t.nins, t.nk, t.snapshots.size⟩

/-- Can the trace be taken back to the checkpoint? -/
def accepts (t : Trace) (cp : Checkpoint) : Bool :=
  cp.ins ≤ t.nins && Ref.first ≤ cp.ins && t.nk ≤ cp.const && cp.const ≤ Ref.true
    && cp.snapshots ≤ t.snapshots.size

/-- Remove the newest `n` instructions. -/
def popInstructions : Nat → Action Unit
  | 0 => pure ()
  | n + 1 => do
    modify fun t => { t with nins := t.nins - 1 }
    let x ← slot (← get).nins
    setHead x.op x.prev
    popInstructions n

/-- Remove the newest `n` constants and empty their slots. -/
def popConstants : Nat → Action Unit
  | 0 => pure ()
  | n + 1 => do
    let r := (← get).nk
    let x ← slot r
    setHead x.op x.prev
    write r .blank
    modify fun t => { t with nk := r + 1 }
    popConstants n

/-- Remove everything emitted, interned or snapshotted since the checkpoint. -/
def rollback (cp : Checkpoint) : Action Unit := do
  let t ← get
  if !t.accepts cp then breach (.badRollback cp t.nk t.nins)
  if cp.snapshots < 0 then breach .outOfBounds
  modify fun t => { t with snapshots := t.snapshots.take cp.snapshots.toNat }
  popInstructions ((← get).nins - cp.ins).toNat
  popConstants (cp.const - (← get).nk).toNat

/-- Keep the values of some references alive. -/
def addSnapshot (refs : List Ref) : Action Unit :=
  modify fun t => { t with snapshots := t.snapshots.push refs }

/-- Forget that a guard was emitted. -/
def resetGuardEmitted : Action Unit :=
  modify fun t => { t with guardEmitted := false }

end Trace

end TraceIR
