import TraceIR.Opcode
import TraceIR.Binary64

/-!
# What the comparison opcodes mean

* `Opcode.compareNumbers?` decides a comparison of two numbers. An unordered comparison is the
  negation of the opposite ordered one, so it holds if either side is a NaN.
* `Opcode.compareTexts?` decides an ordering of two texts, byte by byte.

Both answer nothing for an opcode that is no such comparison.
-/

namespace TraceIR

/-- Does `a` come strictly before `b` in dictionary order of bytes? -/
def Bytes.precedes : Bytes → Bytes → Bool
  | _, [] => false
  | [], _ :: _ => true
  | a :: as, b :: bs => a < b || (a == b && precedes as bs)

namespace Opcode

/-- The outcome of a comparison of two numbers. -/
def compareNumbers? (op : Opcode) (a b : Binary64) : Option Bool :=
  match op with
  | .eq => some (a.eq b)
  | .ne => some (!a.eq b)
  | .lt => some (a.lt b)
  | .ge => some (b.le a)
  | .le => some (a.le b)
  | .gt => some (b.lt a)
  | .ult => some (!b.le a)
  | .uge => some (!a.lt b)
  | .ule => some (!b.lt a)
  | .ugt => some (!a.le b)
  | _ => none

/-- The outcome of an ordering of two texts. -/
def compareTexts? (op : Opcode) (a b : Bytes) : Option Bool :=
  match op with
  | .lt => some (a.precedes b)
  | .ge => some (!a.precedes b)
  | .le => some (!b.precedes a)
  | .gt => some (b.precedes a)
  | _ => none

theorem compareNumbers?_isSome (op : Opcode) (a b : Binary64) :
    (op.compareNumbers? a b).isSome = op.isComparison := by
  cases op <;> rfl

end Opcode

end TraceIR
