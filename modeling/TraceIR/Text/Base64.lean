import TraceIR.Bytes

/-!
# Bytes in sixty-four characters

Three bytes are written as four characters of six bits each. The last group is filled up with `=`
where there are no bytes left, and line breaks can stand anywhere.

* `Base64.decode?` gives the bytes that a text stands for.
-/

namespace TraceIR.Base64

/-- The six bits that a character stands for. -/
def bits? (c : UInt8) : Option Nat :=
  if 0x41 ≤ c && c ≤ 0x5a then some (c.toNat - 0x41)
  else if 0x61 ≤ c && c ≤ 0x7a then some (c.toNat - 0x61 + 26)
  else if 0x30 ≤ c && c ≤ 0x39 then some (c.toNat - 0x30 + 52)
  else if c == 0x2b then some 62
  else if c == 0x2f then some 63
  else none

/-- The bits of several characters as one number. -/
def number? (cs : Bytes) : Option Nat :=
  cs.foldlM (fun n c => (bits? c).map (n * 64 + ·)) 0

/-- Decode groups of four characters. In the last group, the bits that make no whole byte do not
count. -/
def groups? : Bytes → Option Bytes
  | [] => some []
  | [a, b, 0x3d, 0x3d] => do
    let n ← number? [a, b]
    return [UInt8.ofNat (n >>> 4)]
  | [a, b, c, 0x3d] => do
    let n ← number? [a, b, c]
    return [UInt8.ofNat (n >>> 10), UInt8.ofNat (n >>> 2)]
  | a :: b :: c :: d :: r => do
    let n ← number? [a, b, c, d]
    return UInt8.ofNat (n >>> 16) :: UInt8.ofNat (n >>> 8) :: UInt8.ofNat n :: (← groups? r)
  | _ => none

/-- The bytes that a text stands for. -/
def decode? (text : Bytes) : Option Bytes :=
  groups? (text.filter fun c => c != 0x0a && c != 0x0d)

end TraceIR.Base64
