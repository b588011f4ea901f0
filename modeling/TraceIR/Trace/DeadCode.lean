import TraceIR.BitSet
import TraceIR.Trace.Chain

/-!
# Dead code

An instruction that no snapshot needs, directly or through other instructions, is replaced by a
`NOP`. Guards and instructions with a side effect are always needed. References stay valid: nothing
moves.

* `Trace.eliminateDeadCode` walks the instructions from the newest to the oldest. Operands are
  older than their users, so when the walk reaches an instruction all its users are known.
* Chains are relinked on the way: `Sweep.links` remembers for every opcode the last record kept,
  whose link the next one kept goes through.
-/

namespace TraceIR.Trace

/-- The state of the backward walk. -/
structure Sweep where
  /-- The instructions that a later one or a snapshot needs. -/
  needed : BitSet
  /-- For every opcode the oldest record met so far that stays in its chain, none if its chain is
  still fed by the head. -/
  links : Heads := .empty
  removed : Nat := 0

/-- A reference as a key of the set of needed instructions. -/
def key (r : Ref) : Int :=
  r.toNat

/-- Mark an instruction as needed. -/
def Sweep.need (s : Sweep) (r : Ref) : Sweep :=
  { s with needed := (s.needed.insert (key r)).1 }

/-- Mark what an operand refers to, if it is an instruction. -/
def Sweep.needOperand (s : Sweep) (kind : OperandKind) (r : Ref) : Sweep :=
  if kind = .ref ∧ !r.isConst then s.need r else s

/-- Mark what a snapshot needs. -/
def needSnapshot (index : Nat) (high : Ref) : Sweep → List Ref → Except Breach Sweep
  | s, [] => .ok s
  | s, r :: rs =>
    if r.isConst then needSnapshot index high s rs
    else if high ≤ r then .error (.snapshotBeyond index r high)
    else needSnapshot index high (s.need r) rs

/-- Mark what all snapshots need. -/
def needSnapshots (t : Trace) : Except Breach Sweep :=
  t.snapshots.toList.zipIdx.foldlM
    (fun s (refs, i) => needSnapshot i t.nins s refs)
    { needed := .withCapacity (key Ref.base) (key (t.nins - Ref.base)) }

/-- Write a reference through the link that currently feeds an opcode's chain. -/
def relink (links : Heads) (op : Opcode) (r : Ref) : Action Unit := do
  let link := links.get op
  if link = Ref.none then setHead op r
  else
    let x ← record link
    write link { x with prev := r }

/-- Keep an instruction and mark what it needs. -/
def Sweep.keep (s : Sweep) (r : Ref) (x : Record) : Sweep :=
  let s := { s with links := s.links.set x.op r }
  (s.needOperand x.op.shape.left x.left).needOperand x.op.shape.right x.right

/-- Replace an instruction by a `NOP` and move it to the chain of those. -/
def sweepOut (s : Sweep) (r : Ref) (x : Record) : Action Sweep := do
  relink s.links x.op x.prev
  relink s.links .nop r
  write r .blank
  return { s with
    links := s.links.set .nop r
    removed := if x.op = .nop then s.removed else s.removed + 1 }

/-- Treat one instruction. -/
def sweepAt (s : Sweep) (r : Ref) : Action Sweep := do
  let x ← record r
  if s.needed.contains (key r) then
    return { s with needed := s.needed.erase (key r) }.keep r x
  else if x.ty.isGuard || x.op.hasSideEffect then return s.keep r x
  else sweepOut s r x

/-- Treat the `n` instructions below a reference, newest first. -/
def sweepBelow : Nat → Ref → Sweep → Action Sweep
  | 0, _, s => pure s
  | n + 1, r, s => do
    let s ← sweepAt s (r - 1)
    sweepBelow n (r - 1) s

/-- Replace dead instructions, if the options ask for it, and count them. -/
def eliminateDeadCode : Action Nat := do
  if !(← get).config.deadCode then return 0
  else
    let s ← ask needSnapshots
    let high := (← get).nins
    let s ← sweepBelow (high.toNat - Ref.first.toNat) high s
    relink s.links .nop Ref.none
    return s.removed

end TraceIR.Trace
