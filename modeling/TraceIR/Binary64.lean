/-!
# Floating-point numbers as bit patterns

A floating-point constant is its 64-bit pattern: two constants are the same exactly if their
patterns are, so `0` and `-0` differ and so do two NaNs with different payloads. The numeric
comparisons, where `0` equals `-0` and a NaN equals nothing, are read off the pattern.

* `Binary64.eq`, `Binary64.lt` and `Binary64.le` are the numeric comparisons.
* `Binary64.nearestMagnitude` rounds an exact quotient to the nearest number, ties to even.
* `Binary64.int32?` finds the 32-bit integer that a number is.
-/

namespace TraceIR

/-- A floating-point number in the 64-bit binary format. -/
structure Binary64 where
  /-- Sign, exponent and fraction, packed. -/
  bits : UInt64
  deriving DecidableEq, Repr, Inhabited

namespace Binary64

/-- Is the sign bit set? -/
def isNegative (x : Binary64) : Bool :=
  0x8000000000000000 ≤ x.bits

/-- The pattern without its sign. On numbers it grows with the absolute value. -/
def magnitude (x : Binary64) : Nat :=
  x.bits.toNat % 0x8000000000000000

/-- The magnitude of the infinities. Higher ones are NaNs. -/
def infinite : Nat := 0x7ff0000000000000

def isNaN (x : Binary64) : Bool :=
  infinite < x.magnitude

def isInfinite (x : Binary64) : Bool :=
  x.magnitude == infinite

/-- The number with a given sign and magnitude. -/
def ofMagnitude (negative : Bool) (m : Nat) : Binary64 :=
  ⟨UInt64.ofNat (if negative then 0x8000000000000000 + m else m)⟩

/-! ### Comparisons -/

/-- The place of a number on the line. The two zeros share one place. -/
def place (x : Binary64) : Int :=
  if x.isNegative then -(x.magnitude : Int) else x.magnitude

/-- Both are numbers, so they can be compared. -/
def ordered (x y : Binary64) : Bool :=
  !x.isNaN && !y.isNaN

def eq (x y : Binary64) : Bool :=
  ordered x y && x.place == y.place

def lt (x y : Binary64) : Bool :=
  ordered x y && x.place < y.place

def le (x y : Binary64) : Bool :=
  ordered x y && x.place ≤ y.place

/-! ### Exact values -/

/-- The exponent field, where the subnormal numbers share the exponent of the least normal
ones. -/
def exponent (m : Nat) : Nat :=
  max (m >>> 52) 1

/-- The significand as an integer, with the hidden bit of normal numbers. -/
def significand (m : Nat) : Nat :=
  if m >>> 52 = 0 then m else m % 0x10000000000000 + 0x10000000000000

/-- Numerator and denominator of the value of a finite magnitude. -/
def ratio (m : Nat) : Nat × Nat :=
  if 1075 ≤ exponent m then (significand m <<< (exponent m - 1075), 1)
  else (significand m, 1 <<< (1075 - exponent m))

/-- The integer part of a finite number. The fraction is cut off. -/
def truncate (x : Binary64) : Int :=
  let (n, d) := ratio x.magnitude
  if x.isNegative then -(n / d : Nat) else (n / d : Nat)

/-! ### Rounding -/

/-- The integer nearest to `n / d`; a half goes to the even neighbour. -/
def roundDiv (n d : Nat) : Nat :=
  let q := n / d
  let r := n % d
  if d < 2 * r ∨ (2 * r = d ∧ q % 2 = 1) then q + 1 else q

/-- The power of two at or just below the quotient of two positive numbers. -/
def floorLog2 (n d : Nat) : Int :=
  let l : Int := (n.log2 : Int) - d.log2
  -- The difference of the two logarithms is right or one too high.
  if n <<< (-l).toNat < d <<< l.toNat then l - 1 else l

/-- The magnitude of the number nearest to `n / d`, with ties to the even pattern. A quotient too
large for a number gives `infinite` or more. A carry out of the significand moves on to the next
exponent by itself, because magnitudes are consecutive. -/
def nearestMagnitude (n d : Nat) : Nat :=
  if n = 0 then 0
  else
    let e := (floorLog2 n d + 1022).toNat
    e <<< 52 + roundDiv (n <<< (1074 - e)) (d <<< (e - 1074))

/-- The number nearest to an integer. -/
def ofInt (k : Int) : Binary64 :=
  ofMagnitude (k < 0) (nearestMagnitude k.natAbs 1)

/-! ### Integers -/

/-- The 32-bit integer that a number is. The number has to lie in the range of these integers and to
be what it was when its fraction is cut off. Negative zero is no integer. -/
def int32? (x : Binary64) : Option Int32 :=
  if !((ofInt (-0x80000000)).le x && x.le (ofInt 0x7fffffff)) then none
  else
    let k := Int32.ofInt x.truncate
    if !(ofInt k.toInt).eq x then none
    else if k == 0 && x.isNegative then none
    else some k

end Binary64

end TraceIR
