import TraceIR.Config
import TraceIR.Fault

/-!
# The buffer of a trace

One array of slots serves both ends of a trace: the slot of reference `r` is the one at `r - bot`.
When instructions run out of room at the upper end the array doubles. When constants run out of
room at the lower end, the contents move up by a quarter of the array if more than half of it is
free above, and otherwise into an array of twice the size.

* `Buffer.get?` and `Buffer.set` are the access by reference.
* `Buffer.growTop` and `Buffer.growBottom` make room; a live record keeps its reference.

Slots outside the live range keep what they last held: a chain that was bent by hand can still
lead there.
-/

namespace TraceIR

/-- The slots of a trace and the reference of the first one. -/
structure Buffer where
  slots : Array Record := #[]
  bot : Ref := 0
  deriving Repr, Inhabited

namespace Buffer

/-- The number of slots as a word. -/
def size (b : Buffer) : Ref :=
  UInt32.ofNat b.slots.size

/-- The first reference above the buffer. -/
def top (b : Buffer) : Ref :=
  b.bot + b.size

/-- The place of a reference in the array. -/
def place (b : Buffer) (r : Ref) : Nat :=
  (r - b.bot).toNat

/-- The record at a reference, if the buffer has a slot for it. -/
def get? (b : Buffer) (r : Ref) : Option Record :=
  b.slots[b.place r]?

/-- Does the buffer have a slot for the reference? -/
def has (b : Buffer) (r : Ref) : Bool :=
  b.place r < b.slots.size

/-- Overwrite the slot of a reference. -/
def set (b : Buffer) (r : Ref) (x : Record) : Buffer :=
  { b with slots := b.slots.setIfInBounds (b.place r) x }

/-- Empty every slot. -/
def clear (b : Buffer) : Buffer :=
  { b with slots := Array.replicate b.slots.size .blank }

/-- The first array, placed so that a quarter of it lies below the border. -/
def allocate (n : Ref) : Buffer :=
  { slots := Array.replicate n.toNat .blank, bot := Ref.base - n / 4 }

/-- Make room above. -/
def growTop (b : Buffer) (minSize : Int) : Buffer :=
  if b.size = 0 then allocate (UInt32.ofInt minSize)
  else { b with slots := b.slots ++ Array.replicate b.slots.size .blank }

/-- Copy the first `live` slots of an array into another one, or into itself, from the slot at
`distance` on and as far as there are slots. -/
def copyUp (source target : Array Record) (distance live : Nat) : Except Breach (Array Record) :=
  if distance ≤ target.size ∧ live ≤ source.size then
    .ok (target.extract 0 distance ++ (source.extract 0 live).extract 0 (target.size - distance)
      ++ target.extract (distance + live) target.size)
  else .error .outOfBounds

/-- Move what lies below `high` up by `distance` slots, into another array or within the same one,
so that the buffer can begin lower. -/
def moveUp (b : Buffer) (target : Array Record) (distance high : Ref) : Except Breach Buffer :=
  (copyUp b.slots target distance.toNat (high - b.bot).toNat).map fun slots =>
    { slots, bot := b.bot - distance }

/-- How far the contents move when the array doubles downwards. -/
def stride (n : Ref) : Ref :=
  if 256 ≤ n then 128 else n / 2

/-- Make room below for a trace that holds the range from `low` to below `high`. -/
def growBottom (b : Buffer) (low high : Ref) : Except Breach Buffer :=
  let n := b.size
  if n = 0 ∨ low ≠ b.bot then .error (.misplacedBottom n low b.bot)
  else
    if high + n / 2 < b.top then
      if b.bot ≤ n / 4 then .error (.shiftBelowZero (n / 4) b.bot)
      else b.moveUp b.slots (n / 4) high
    else
      if b.bot ≤ stride n then .error (.growBelowZero (stride n) b.bot)
      else b.moveUp (Array.replicate (2 * n).toNat .blank) (stride n) high

end Buffer

end TraceIR
