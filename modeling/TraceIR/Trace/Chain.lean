import TraceIR.Trace.Basic

/-!
# Chains of records

The records of one opcode form a chain from the newest to the oldest, and no reference ends it.
Traces are short, so a walk along a chain takes the place of a table: it finds equal constants and
equal instructions.

* `Trace.chain` lists a chain.
* `Trace.search` walks a chain until a probe has an answer.

A chain that was bent by hand can lead back into itself. A walk that takes more steps than there
are slots has met some slot twice, so it would never end.
-/

namespace TraceIR.Trace

/-- The record in a slot, live or not. -/
def slot? (t : Trace) (r : Ref) : Except Breach Record :=
  match t.buffer.get? r with
  | some x => .ok x
  | none => .error .outOfBounds

/-- At most the first `n` references of the chain that begins at `r`. -/
def refsFrom (t : Trace) : Nat → Ref → Except Breach (List Ref)
  | 0, _ => .ok []
  | n + 1, r =>
    if r = Ref.none then .ok []
    else do
      let x ← t.slot? r
      let rest ← t.refsFrom n x.prev
      return r :: rest

/-- The references of an opcode's chain, newest first. -/
def chain (t : Trace) (op : Opcode) : Except Breach (List Ref) := do
  let refs ← t.refsFrom (t.capacity + 1) (t.heads.get op)
  if t.capacity < refs.length then .error .endlessChain else .ok refs

/-- At most the first `n` references of an opcode's chain. -/
def chainPrefix (t : Trace) (op : Opcode) (n : Nat) : Except Breach (List Ref) :=
  t.refsFrom n (t.heads.get op)

/-- Walk the chain that begins at `r` for at most `n` steps, until `probe` has an answer. -/
def searchFrom {α : Type} (t : Trace) (probe : Ref → Record → Option α) :
    Nat → Ref → Except Breach (Option α)
  | n, r =>
    if r = Ref.none then .ok none
    else match n with
      | 0 => .error .endlessChain
      | n + 1 => do
        let x ← t.slot? r
        match probe r x with
        | some a => .ok (some a)
        | none => t.searchFrom probe n x.prev

/-- The first answer of `probe` along an opcode's chain. -/
def search {α : Type} (t : Trace) (op : Opcode) (probe : Ref → Record → Option α) :
    Except Breach (Option α) :=
  t.searchFrom probe t.capacity (t.heads.get op)

/-- The newest record of an opcode that satisfies a condition. -/
def find (op : Opcode) (same : Record → Bool) : Action (Option Ref) :=
  ask fun t => t.search op fun r x => if same x then some r else none

end TraceIR.Trace
