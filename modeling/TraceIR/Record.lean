import TraceIR.Opcode
import TraceIR.Pool
import TraceIR.Ty
import TraceIR.Wire

/-!
# Records and constant values

A slot of a trace holds a record: an opcode, a type, two operands, the link to the next older
record of the same opcode, and the payload of a constant.

* `Payload` is what a constant is interned by.
* `Value` is what a constant means.
-/

namespace TraceIR

/-- A bare number in the place of an object. The two zeros equal each other: whoever asks for one
while the other is there means that one. -/
inductive BareNumber where
  | int (k : Int32)
  | num (x : Binary64)
  deriving DecidableEq, Repr, Inhabited

/-- Does the number equal itself? -/
def BareNumber.isReflexive : BareNumber → Bool
  | .int _ => true
  | .num x => !x.isNaN

/-- A collected object. Two objects are the same exactly if all parts agree. -/
structure Object where
  /-- Tells objects apart that look alike. -/
  serial : Nat := 0
  ty : Ty
  /-- The text of the object; an opaque object has none. -/
  text : Option Bytes
  /-- The number that the object is, if it is nothing more than that. -/
  number : Option BareNumber := none
  /-- Nothing but its value tells a bare number from others. Only a NaN, which does not equal
  itself, is another object at every use. -/
  bare : ∀ n, number = some n → ty = .nil ∧ text = none ∧ (n.isReflexive = true → serial = 0) :=
    by simp
  deriving DecidableEq, Repr

instance : Inhabited Object where
  default := { ty := .nil, text := none }

/-- Where a floating-point constant lies: in a slot of the pool, or in one of the two fixed sign
masks, which are no pool slots. -/
inductive NumSlot where
  | pooled (slot : Nat)
  | absMask
  | negMask
  deriving DecidableEq, Repr, Inhabited

/-- The pattern in a slot. -/
def NumSlot.value? (p : Pool) : NumSlot → Option Binary64
  | .pooled slot => p.get? slot
  | .absMask => some ⟨0x7fffffffffffffff⟩
  | .negMask => some ⟨0x8000000000000000⟩

/-- What a constant holds beside its operands. -/
inductive Payload where
  | empty
  | int (k : Int32)
  | num (s : NumSlot)
  | object (o : Object)
  | pointer (p : UInt64)
  deriving DecidableEq, Repr, Inhabited

namespace Payload

/-- The integer, zero for anything else. -/
def asInt : Payload → Int32
  | .int k => k
  | _ => 0

/-- The pointer, null for anything else. -/
def asPointer : Payload → UInt64
  | .pointer p => p
  | _ => 0

def num? : Payload → Option NumSlot
  | .num s => some s
  | _ => none

def object? : Payload → Option Object
  | .object o => some o
  | _ => none

end Payload

/-- One slot of a trace. -/
structure Record where
  op : Opcode := .nop
  ty : Ty := .nil
  left : Ref := 0
  right : Ref := 0
  /-- The next older record with the same opcode. -/
  prev : Ref := 0
  payload : Payload := .empty
  deriving DecidableEq, Repr, Inhabited

/-- The record in an empty slot. -/
def Record.blank : Record := {}

/-- The log form of a record. -/
def Record.wire (x : Record) : Bytes :=
  Wire.fields
    [("op", Wire.text x.op.nameBytes), ("t", Wire.text x.ty.name), ("op1", Wire.int x.left.toNat),
      ("op2", Wire.int x.right.toNat), ("prev", Wire.int x.prev.toNat)]

/-! ### Values of constants -/

/-- The value of a constant. -/
inductive Value where
  | nil
  | bool (b : Bool)
  | int (k : Int32)
  | num (x : Binary64)
  | object (o : Object)
  | pointer (p : UInt64)
  deriving DecidableEq, Repr, Inhabited

/-- What an object is worth. A bare number cannot be told from a constant that is the number. -/
def Object.value (o : Object) : Value :=
  match o.number with
  | some (.int k) => .int k
  | some (.num x) => .num x
  | none => .object o

namespace Value

/-- The number that an integer or floating-point constant stands for. -/
def number? : Value → Option Binary64
  | .int k => some (.ofInt k.toInt)
  | .num x => some x
  | _ => none

/-- The text of an object that has one. -/
def text? : Value → Option Bytes
  | .object o => o.text
  | _ => none

end Value

end TraceIR
