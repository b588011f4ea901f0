import TraceIR.Dump

/-!
# The histogram of a trace

How often each opcode occurs among the instructions after `BASE`, the most frequent first; opcodes
that occur equally often come in the order of opcodes.
-/

namespace TraceIR.Histogram

/-- The opcodes of the instructions after `BASE`. -/
def opcodes (t : Trace) : Except Breach (List Opcode) :=
  ((List.range (t.nins.toNat - Ref.first.toNat)).map fun i => Ref.first + UInt32.ofNat i).mapM
    fun r => return (← t.record? r).op

/-- The opcodes that occur, each with its number of occurrences, in the order of the
histogram. -/
def counts (ops : List Opcode) : List (Opcode × Nat) :=
  ((Opcode.all.map fun op => (op, ops.count op)).filter fun (_, n) => n ≠ 0).mergeSort
    fun (_, m) (_, n) => n ≤ m

/-- One line of the histogram. -/
def countLine (op : Opcode) (n : Nat) (f : Formatter := .decimal) : Bytes :=
  Dump.opcodeColumn op ++ Bytes.ascii " " ++ f.number 0 n ++ Bytes.ascii "\n"

/-- The printed histogram. -/
def text (t : Trace) (f : Formatter := .decimal) : Except Breach Bytes := do
  let ops ← opcodes t
  return Bytes.ascii "---- stats: " ++ f.number 0 (t.nins - Ref.first).toNat
    ++ Bytes.ascii " ins " ++ f.number 0 (Ref.true - t.nk).toNat ++ Bytes.ascii " consts\n"
    ++ (counts ops).flatMap fun (op, n) => countLine op n f

end TraceIR.Histogram
