import TraceIR.Bytes
import TraceIR.Binary64

/-!
# Reading numerals

Integers are written in base ten, in base eight after a leading `0`, or in base two, eight or
sixteen after `0b`, `0o` or `0x`. They are read from the left, and the first thing that goes wrong
decides the error: a digit that does not belong to the base, or a value that no longer fits.

* `Numeral.natural` reads a number without a sign, `Numeral.integer` one with an optional sign.
* `Numeral.decimal` reads a decimal fraction to the nearest floating-point number.
* `Numeral.ungroup?` takes out the underscores between digits.
-/

namespace TraceIR

/-- What is wrong with a numeral. -/
inductive NumeralError where
  | malformed
  | outOfRange
  deriving DecidableEq, Repr, Inhabited

/-- The wording of a numeral error. -/
def NumeralError.message : NumeralError → Bytes
  | .malformed => Bytes.ascii "invalid syntax"
  | .outOfRange => Bytes.ascii "value out of range"

namespace Numeral

/-- The value of a digit in any base up to 36. Other characters count as too high for every
base. -/
def digitValue (c : UInt8) : Nat :=
  if 0x30 ≤ c && c ≤ 0x39 then c.toNat - 0x30
  else if 0x61 ≤ c && c ≤ 0x7a then c.toNat - 0x57
  else if 0x41 ≤ c && c ≤ 0x5a then c.toNat - 0x37
  else 36

/-- Read digits of a base on top of `acc`, keeping the value at `max` or below. -/
def readDigits (base max : Nat) : Nat → Bytes → Except NumeralError Nat
  | acc, [] => .ok acc
  | acc, c :: r =>
    if base ≤ digitValue c then .error .malformed
    else
      let acc := acc * base + digitValue c
      if max < acc then .error .outOfRange else readDigits base max acc r

/-- The base that the front of a numeral announces, and the digits after the announcement. A mark
counts only if something follows it. -/
def announced : Bytes → Nat × Bytes
  | 0x30 :: m :: c :: r =>
    if m == 0x62 || m == 0x42 then (2, c :: r)
    else if m == 0x6f || m == 0x4f then (8, c :: r)
    else if m == 0x78 || m == 0x58 then (16, c :: r)
    else (8, m :: c :: r)
  | 0x30 :: r => (8, r)
  | b => (10, b)

/-- A number without a sign that fits in `bits` bits. -/
def natural (bits : Nat) (b : Bytes) : Except NumeralError Nat :=
  if b.isEmpty then .error .malformed
  else
    let (base, ds) := announced b
    readDigits base (1 <<< bits - 1) 0 ds

/-- The sign at the front, if one stands there, and the text after it. -/
def splitSign : Bytes → Bool × Bytes
  | 0x2d :: r => (true, r)
  | 0x2b :: r => (false, r)
  | b => (false, b)

/-- A number with an optional sign that fits in `bits` bits of two's complement. -/
def integer (bits : Nat) (b : Bytes) : Except NumeralError Int := do
  let (negative, b) := splitSign b
  let n ← natural bits b
  if negative then
    if 1 <<< (bits - 1) < n then .error .outOfRange else .ok (-n)
  else
    if 1 <<< (bits - 1) ≤ n then .error .outOfRange else .ok n

/-! ### Decimal fractions -/

def isDigit (c : UInt8) : Bool :=
  0x30 ≤ c && c ≤ 0x39

/-- Take out underscores, each of which has to stand between two digits. -/
def ungroup? : Bytes → Option Bytes
  | [] => some []
  | [c] => if c == 0x5f then none else some [c]
  | a :: b :: r =>
    if a == 0x5f then none
    else if b != 0x5f then (ungroup? (b :: r)).map (a :: ·)
    else if isDigit a && r.head?.any isDigit then (ungroup? r).map (a :: ·)
    else none

/-- The value of a run of decimal digits. -/
def digitsValue (b : Bytes) : Nat :=
  b.foldl (fun acc c => acc * 10 + (c.toNat - 0x30)) 0

/-- The value of the digits of an exponent. It stops growing once it has five digits: such an
exponent decides the result whatever follows. -/
def exponentValue (b : Bytes) : Nat :=
  b.foldl (fun acc c => if acc < 10000 then acc * 10 + (c.toNat - 0x30) else acc) 0

/-- The exponent part of a decimal fraction, if the text is one. No text is the exponent zero. -/
def exponent? : Bytes → Option Int
  | [] => some 0
  | c :: r =>
    let (negative, ds) := splitSign r
    if (c == 0x65 || c == 0x45) && !ds.isEmpty && ds.all isDigit then
      some (if negative then -(exponentValue ds : Int) else exponentValue ds)
    else none

/-- The magnitude nearest to `n · 10 ^ p`. -/
def scaledMagnitude (n : Nat) (p : Int) : Nat :=
  Binary64.nearestMagnitude (n * Nat.pow 10 p.toNat) (Nat.pow 10 (-p).toNat)

/-- A decimal fraction with an optional sign and exponent, read to the nearest number. At least
one digit stands before the exponent. -/
def decimal (b : Bytes) : Except NumeralError Binary64 :=
  let (negative, b) := splitSign b
  let (whole, b) := b.span isDigit
  let (part, b) := match b with
    | 0x2e :: r => r.span isDigit
    | _ => ([], b)
  match exponent? b with
  | none => .error .malformed
  | some e =>
    if (whole ++ part).isEmpty then .error .malformed
    else
      let m := scaledMagnitude (digitsValue (whole ++ part)) (e - part.length)
      if Binary64.infinite ≤ m then .error .outOfRange else .ok (.ofMagnitude negative m)

end Numeral

end TraceIR
