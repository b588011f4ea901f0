import TraceIR.Binary64

/-!
# The pool of floating-point constants

Traces share the slots in which their floating-point constants lie. A slot is found by the exact
bit pattern, it never changes once it is handed out, and its number is never used for another.
Slots are taken from memory in chunks, and a chunk never moves.

* `Pool.find` gives the slot of a pattern, taking a new one if there is none.
* `Pool.get?` reads a slot.
-/

namespace TraceIR

namespace Pool

/-- The number of slots in a chunk. -/
def chunkSize : Nat := 16

/-- Slots that were taken from memory together. The first `used` of them hold a pattern. -/
structure Chunk where
  used : Nat := 0
  slots : Vector Binary64 chunkSize := .replicate chunkSize ⟨0⟩
  deriving DecidableEq, Repr, Inhabited

namespace Chunk

/-- The patterns in order of first use. -/
def toList (c : Chunk) : List Binary64 :=
  c.slots.toList.take c.used

/-- Where a pattern lies. -/
def indexOf? (c : Chunk) (x : Binary64) : Option Nat :=
  c.toList.findIdx? (· == x)

/-- Put a pattern into the next slot. -/
def push (c : Chunk) (x : Binary64) (h : c.used < chunkSize) : Chunk :=
  { used := c.used + 1, slots := c.slots.set c.used x h }

end Chunk

/-- Where a pattern lies in a row of chunks. -/
def indexIn? (x : Binary64) : List Chunk → Option Nat
  | [] => none
  | c :: row =>
    match c.indexOf? x with
    | some i => some i
    | none => (indexIn? x row).map (chunkSize + ·)

/-- Put a pattern behind all others: into the last chunk, or into a new one if that is full. -/
def pushOnto (x : Binary64) : List Chunk → Nat × List Chunk
  | [] => (0, [({} : Chunk).push x (by decide)])
  | c :: row =>
    if h : row = [] ∧ c.used < chunkSize then (c.used, [c.push x h.2])
    else
      let (i, row) := pushOnto x row
      (chunkSize + i, c :: row)

/-- The pattern at a place in a row of chunks. -/
def getIn? : List Chunk → Nat → Option Binary64
  | [], _ => none
  | c :: row, i => if i < chunkSize then c.toList[i]? else getIn? row (i - chunkSize)

end Pool

/-- The floating-point constants in order of first use. -/
structure Pool where
  /-- The number of slots that were given up before the present ones were taken. -/
  retired : Nat := 0
  /-- The number of slots in use. -/
  size : Nat := 0
  row : List Pool.Chunk := []
  deriving DecidableEq, Repr, Inhabited

namespace Pool

/-- The slot of a pattern, and the pool afterwards. -/
def find (p : Pool) (x : Binary64) : Nat × Pool :=
  match indexIn? x p.row with
  | some i => (p.retired + i, p)
  | none =>
    let (i, row) := pushOnto x p.row
    (p.retired + i, { p with size := p.size + 1, row })

/-- The pattern in a slot. -/
def get? (p : Pool) (slot : Nat) : Option Binary64 :=
  if slot < p.retired then none else getIn? p.row (slot - p.retired)

/-- The number of chunks in use. -/
def chunks (p : Pool) : Nat :=
  p.row.length

/-- The patterns in order of first use. -/
def toList (p : Pool) : List Binary64 :=
  p.row.flatMap Chunk.toList

/-- Give up all slots. -/
def free (p : Pool) : Pool :=
  { retired := p.retired + p.size }

end Pool

end TraceIR
