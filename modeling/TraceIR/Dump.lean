import TraceIR.Text.Quoted
import TraceIR.Trace.Constant

/-!
# The printed form of a trace

Three sections: the interned constants from the first to the last, the instructions in order, and
the references that each snapshot needs. Constants are numbered down from the border, so `K001`,
`K002` and `K003` are the fixed `nil`, `false` and `true`; instructions are numbered from `BASE`.

* `Formatter` is what fills in the numbers.
* `Dump.refName` is the printed form of a reference.
* `Dump.line` prints one record, `Dump.trace` a whole trace.
-/

namespace TraceIR

/-- How a number is written in a field of some width. Width zero stands for no field at all. -/
structure Formatter where
  number : (width n : Nat) → Bytes

/-- Base ten, with zeros in front. -/
def Formatter.decimal : Formatter where
  number width n := Bytes.padLeft 0x30 width (Bytes.decimal n)

namespace Dump

/-- The printed form of a reference. -/
def refName (r : Ref) (f : Formatter := .decimal) : Bytes :=
  if r.isConst then Bytes.ascii "K" ++ f.number 3 (Ref.bias - r).toNat
  else f.number 4 (r - Ref.bias).toNat

/-- The width of the column of opcodes. -/
def opcodeWidth : Nat := 6

/-- The opcode column. -/
def opcodeColumn (op : Opcode) : Bytes :=
  Bytes.padRight opcodeWidth op.nameBytes

/-- An operand with the space in front of it. -/
def operand (kind : OperandKind) (r : Ref) (f : Formatter := .decimal) : Bytes :=
  match kind with
  | .ref => Bytes.ascii " " ++ refName r f
  | .lit => Bytes.ascii " #" ++ f.number 0 r.toNat
  | .const | .absent => []

/-- A floating-point constant. A NaN shows its pattern. -/
def number (x : Binary64) : Bytes :=
  if x.isNaN then Bytes.ascii "nan(" ++ Bytes.hexMarked x.bits.toNat ++ Bytes.ascii ")"
  else x.text

/-- The value column of a constant. -/
def constant (p : Pool) (x : Record) (f : Formatter := .decimal) : Except Breach Bytes :=
  match x.op with
  | .kint => .ok (Bytes.signed x.payload.asInt.toInt)
  | .knum =>
    match x.payload.num?.bind (·.value? p) with
    | some v => .ok (number v)
    | none => .error .missingNumber
  | .kgc =>
    match x.payload.object?.bind (·.text) with
    | some s => .ok (Quoted.write s)
    | none => .ok (Bytes.ascii "object")
  | .kptr => .ok (Bytes.hexMarked x.payload.asPointer.toNat)
  | .knull => .ok (Bytes.ascii "NULL")
  | .kslot => .ok (refName x.left f ++ Bytes.ascii " @" ++ f.number 0 x.right.toNat)
  | .kpri => .ok x.ty.name
  | _ => .ok []

/-- The columns after the opcode. -/
def details (p : Pool) (x : Record) (f : Formatter := .decimal) : Except Breach Bytes :=
  if x.op.isConst then (constant p x f).map (Bytes.ascii " " ++ ·)
  else .ok (operand x.op.shape.left x.left f ++ operand x.op.shape.right x.right f)

/-- The line of a record. -/
def recordLine (p : Pool) (r : Ref) (x : Record) (f : Formatter := .decimal) :
    Except Breach Bytes := do
  let rest ← details p x f
  let mark := Bytes.ascii (if x.ty.isGuard then " > " else "   ")
  let columns :=
    refName r f ++ mark ++ x.ty.name ++ Bytes.ascii " " ++ opcodeColumn x.op ++ rest
  return columns.trimRight ++ Bytes.ascii "\n"

/-- The line of the live record at a reference. -/
def line (t : Trace) (r : Ref) (f : Formatter := .decimal) : Except Breach Bytes := do
  recordLine t.pool r (← t.record? r) f

/-- The interned constants, oldest first. -/
def constantRefs (t : Trace) : List Ref :=
  (List.range (Ref.true.toNat - t.nk.toNat)).map fun i => Ref.true - 1 - UInt32.ofNat i

/-- The instructions, `BASE` included. -/
def instructionRefs (t : Trace) : List Ref :=
  (List.range (t.nins.toNat - Ref.base.toNat)).map fun i => Ref.base + UInt32.ofNat i

/-- The lines of several records. -/
def lines (t : Trace) (refs : List Ref) (f : Formatter := .decimal) : Except Breach Bytes := do
  return (← refs.mapM fun r => line t r f).flatten

/-- The line of a snapshot. -/
def snapshotLine (index : Nat) (refs : List Ref) (f : Formatter := .decimal) : Bytes :=
  Bytes.ascii "#" ++ f.number 0 index
    ++ (refs.flatMap fun r => Bytes.ascii " " ++ refName r f) ++ Bytes.ascii "\n"

/-- The printed form of a trace. -/
def trace (t : Trace) (f : Formatter := .decimal) : Except Breach Bytes := do
  let constants ← lines t (constantRefs t) f
  let instructions ← lines t (instructionRefs t) f
  let snapshots := t.snapshots.toList.zipIdx.flatMap fun (refs, i) => snapshotLine i refs f
  return Bytes.ascii "---- constants\n" ++ constants ++ Bytes.ascii "---- IR\n" ++ instructions
    ++ Bytes.ascii "---- snapshots\n" ++ snapshots

end Dump

end TraceIR
