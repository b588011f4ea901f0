/-!
# References

A trace is one numbered row of slots. Constants take the numbers below `Ref.bias` and grow down,
instructions take those from `Ref.bias` on and grow up, and zero is no reference at all. All
arithmetic on references is arithmetic of 32-bit words.
-/

namespace TraceIR

/-- The number of a slot of a trace. -/
abbrev Ref := UInt32

namespace Ref

/-- No reference: the end of a chain, or an operand that is not there. -/
def none : Ref := 0

/-- The border between constants, below it, and instructions. -/
def bias : Ref := 0x8000

/-- The fixed constant `nil`. -/
def nil : Ref := bias - 1

/-- The fixed constant `false`. -/
def false : Ref := bias - 2

/-- The fixed constant `true`, the lowest of the three. Interned constants lie below it. -/
def true : Ref := bias - 3

/-- The `BASE` instruction every trace starts with. -/
def base : Ref := bias

/-- The first instruction that a recording adds. -/
def first : Ref := bias + 1

/-- No instruction gets this reference or a higher one. -/
def limit : Ref := 0xffff

/-- Does the reference name a constant? -/
def isConst (r : Ref) : Bool :=
  r < bias

theorem isConst_iff (r : Ref) : isConst r = Bool.true ↔ r.toNat < 0x8000 := by
  simp [isConst, bias, UInt32.lt_iff_toNat_lt]

end Ref

end TraceIR
