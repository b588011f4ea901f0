import TraceIR.Numeral

/-!
# The shortest decimal form of a floating-point number

A number is written with the fewest digits that read back as the same number, and among those with
the ones nearest to it.

* `Binary64.shortest` finds the digits: for one digit, two digits and so on, it tries the two
  neighbours of the value on the grid of decimals with that many digits.
* `Binary64.text` lays them out under `Binary64.layout`.
-/

namespace TraceIR.Binary64

/-- A decimal number `coefficient · 10 ^ power`. -/
structure Decimal where
  coefficient : Nat
  power : Int
  deriving DecidableEq, Repr

/-- The power of ten at or just below the quotient of two positive numbers. -/
def floorLog10 (n d : Nat) : Int :=
  -- From the power of two the answer is known up to one.
  let guess : Int := floorLog2 n d * 30103 / 100000 - 1
  let atMost (e : Int) : Bool := d * Nat.pow 10 e.toNat ≤ n * Nat.pow 10 (-e).toNat
  if atMost (guess + 2) then guess + 2 else if atMost (guess + 1) then guess + 1 else guess

/-- The neighbours of `n / d` on the grid of multiples of `10 ^ p`, the nearer one first. Of two
equally near ones the even one comes first. -/
def gridNeighbours (n d : Nat) (p : Int) : List Decimal :=
  let n := n * Nat.pow 10 (-p).toNat
  let d := d * Nat.pow 10 p.toNat
  let below : Decimal := ⟨n / d, p⟩
  let above : Decimal := ⟨n / d + 1, p⟩
  if roundDiv n d = n / d then [below, above] else [above, below]

/-- Does the decimal read back as a number of magnitude `m`? -/
def readsBack (m : Nat) (x : Decimal) : Bool :=
  Numeral.scaledMagnitude x.coefficient x.power == m

/-- A decimal with the given number of digits that reads back, if there is one. -/
def withDigits? (m digits : Nat) : Option Decimal :=
  let (n, d) := ratio m
  (gridNeighbours n d (floorLog10 n d + 1 - digits)).find? (readsBack m)

/-- The shortest decimal that reads back as a finite positive magnitude. Seventeen digits always
suffice. -/
def shortest (m : Nat) : Decimal :=
  ((List.range 17).findSome? fun i => withDigits? m (i + 1)).getD ⟨0, 0⟩

/-- The digits of a decimal without zeros at the end, and the power of ten of the first one. -/
def Decimal.scientific (x : Decimal) : Bytes × Int :=
  let ds := Bytes.decimal x.coefficient
  let cut := (ds.reverse.dropWhile (· == 0x30)).reverse
  (cut, x.power + (ds.length - 1 : Nat))

/-! ### Layout -/

/-- How the digits of a number are laid out. -/
structure Layout where
  /-- The least power of ten of the first digit that is written without an exponent. -/
  leastPlain : Int
  /-- The first power of ten that is written with an exponent. -/
  firstScaled : Int
  /-- The least number of digits of an exponent. -/
  exponentWidth : Nat

/-- Numbers from `0.0001` to below a million are written plainly, all others with a signed
exponent of at least two digits. -/
def layout : Layout := ⟨-4, 6, 2⟩

/-- Digits with a point after the first `n`. -/
def pointed (ds : Bytes) (n : Nat) : Bytes :=
  let whole := ds.take n
  let part := ds.drop n
  whole ++ List.replicate (n - ds.length) 0x30 ++ (if part.isEmpty then [] else 0x2e :: part)

/-- Plain notation, given the power of ten of the first digit. -/
def plainText (ds : Bytes) (e : Int) : Bytes :=
  if e < 0 then Bytes.ascii "0." ++ List.replicate (-e - 1).toNat 0x30 ++ ds
  else pointed ds (e.toNat + 1)

/-- Notation with an exponent. -/
def scaledText (l : Layout) (ds : Bytes) (e : Int) : Bytes :=
  pointed ds 1 ++ Bytes.ascii (if e < 0 then "e-" else "e+")
    ++ Bytes.padLeft 0x30 l.exponentWidth (Bytes.decimal e.natAbs)

/-- The text of a number's absolute value. -/
def magnitudeText (l : Layout) (m : Nat) : Bytes :=
  if m = 0 then Bytes.ascii "0"
  else
    let (ds, e) := (shortest m).scientific
    if l.leastPlain ≤ e ∧ e < l.firstScaled then plainText ds e else scaledText l ds e

/-- The text of a number. Infinities always carry a sign. -/
def text (x : Binary64) : Bytes :=
  if x.isNaN then Bytes.ascii "NaN"
  else if x.isInfinite then Bytes.ascii (if x.isNegative then "-Inf" else "+Inf")
  else Bytes.ascii (if x.isNegative then "-" else "") ++ magnitudeText layout x.magnitude

end TraceIR.Binary64
